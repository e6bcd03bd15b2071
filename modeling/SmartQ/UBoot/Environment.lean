import SmartQ.Lib.Crc32
import SmartQ.Lib.StringBlock
import SmartQ.UBoot.Vsprintf

/-!
# The environment

Model of `_do_setenv`, `getenv` and `envmatch` in `u-boot/common/cmd_nvedit.c` and of
`env_crc_update` in `u-boot/common/env_common.c`. The variables stand in a block as strings
`name=value`; all work is done in place.

* `findVar_eq`: where a variable is found.
* `deleteVar_eq`, `appendVar_eq`: what is left of the block.
* `setenv_represents`: a request changes the variables and nothing else.
* `setenvs_getenv`: after any requests `getenv` finds what they set.
-/

namespace SmartQ.UBoot

open SmartQ.Lib

/-! ## Model -/

/-- `ENV_SIZE`: the bytes of the environment behind its checksum. -/
def envSize : ℕ := 0x4000 - 4

/-- `envmatch` over a name with its terminator and the block from an entry on: how far behind
    its start the value is. An entry without `=` that is the name has no value here; the code
    reads on behind both. -/
def envmatch : List Byte → List Byte → Option ℕ
  | c :: s1, d :: env =>
    if c = d then if c = 61 then some 1 else (envmatch s1 env).map (· + 1)
    else if c = 0 ∧ d = 61 then some 1
    else none
  | _, _ => none

/-- Where the string at `i` ends; none if the block ends first. -/
def stringEnd (data : List Byte) (i : ℕ) : Option ℕ :=
  ((data.drop i).findIdx? (· = 0)).map (i + ·)

/-- An entry that is found: its start, its end and the start of its value. -/
structure Found where
  env : ℕ
  nxt : ℕ
  val : ℕ
  deriving DecidableEq

/-- The loop over the entries from `env` on: the entry of `name`. The outer `none` is a loop
    that leaves the block. -/
def findVar (data name : List Byte) : ℕ → ℕ → Option (Option Found)
  | 0, _ => none
  | fuel + 1, env =>
    if byteAt data env = 0 then some none
    else
      match stringEnd data env with
      | none => none
      | some nxt =>
        match envmatch (name ++ [0]) (data.drop env) with
        | some v => some (some ⟨env, nxt, env + v⟩)
        | none => findVar data name fuel (nxt + 1)

/-- `getenv` (lines 583–602): the string behind the name of a variable; the search may also run
    out of the block. -/
def getenv (data name : List Byte) : Option (Option (List Byte)) :=
  (findVar data name data.length 0).map fun r => r.map fun r => cString (data.drop r.val)

/-- The loop that moves the entries behind `nxt` down to `env` (lines 277–282): the block, and
    where it stops. -/
def shiftDown : ℕ → List Byte → ℕ → ℕ → Option (List Byte × ℕ)
  | 0, _, _, _ => none
  | fuel + 1, data, env, nxt =>
    let data := data.set env (byteAt data nxt)
    if byteAt data env = 0 ∧ byteAt data (nxt + 1) = 0 then some (data, env)
    else shiftDown fuel data (env + 1) (nxt + 1)

/-- Delete the entry that starts at `env` and ends at `nxt` (lines 270–285). -/
def deleteVar (data : List Byte) (env nxt : ℕ) : Option (List Byte) :=
  if byteAt data (nxt + 1) = 0 then
    if 0 < env then some (data.set env 0)
    else some ((data.set env 0).set (env + 1) 0)
  else (shiftDown data.length data env (nxt + 1)).map fun r => r.1.set (r.2 + 1) 0

/-- The text of a new entry. -/
def entryText (name : List Byte) : List (List Byte) → List Byte
  | [] => name
  | val :: vals => name ++ 61 :: val ++ vals.flatMap (32 :: ·)

/-- Append a definition (lines 310–338): the block, or none if there is no room. -/
def appendVar (data name : List Byte) (vals : List (List Byte)) : Option (Option (List Byte)) :=
  match untilDouble data with
  | none => none
  | some e =>
    let env := if 0 < e then e + 1 else e
    let len := name.length + 2 + (vals.map (·.length + 1)).sum
    if len > data.length - env then some none
    else some (some (put data env (entryText name vals ++ [0, 0])))

/-- What the variables are copied to. -/
structure Globals where
  baudrate : ℕ
  enetaddr : List ℕ
  ipAddr : ℕ
  loadAddr : ℕ
  deriving DecidableEq

/-- The environment in memory: `env_ptr`, and the variables that follow it. -/
structure Env where
  data : List Byte
  crc : ℕ
  globals : Globals
  deriving DecidableEq

/-- The names that have a meaning of their own. -/
def stdin : List Byte := ascii "stdin"

/-- `stdout`, the name of the console device that is written to. -/
def stdout : List Byte := ascii "stdout"

/-- `stderr`, the name of the console device that errors are written to. -/
def stderr : List Byte := ascii "stderr"

/-- `baudrate`; a value that is not in the table is refused. -/
def baudrateName : List Byte := ascii "baudrate"

/-- `ethaddr`, whose value is also kept as six bytes in a global. -/
def ethaddrName : List Byte := ascii "ethaddr"

/-- `ipaddr`, whose value is also kept as a number in a global. -/
def ipaddrName : List Byte := ascii "ipaddr"

/-- `loadaddr`, whose value is also kept as a number in a global. -/
def loadaddrName : List Byte := ascii "loadaddr"

/-- `CFG_BAUDRATE_TABLE`: the rates that may be given to `baudrate`. -/
def baudrateTable : List ℕ := [9600, 19200, 38400, 57600, 115200]

/-- What requests depend on besides the environment. -/
structure Machine where
  /-- `console_assign` succeeds for this name and device. -/
  assign : List Byte → List Byte → Bool
  /-- The string at address 0, which is read where a value is missing. -/
  atNull : List Byte

/-- A call of `_do_setenv`: `argv[1]`, and `argv[2]` on. -/
structure Request where
  name : List Byte
  vals : List (List Byte)

/-- `env_crc_update`: the checksum is made that of the data again. -/
def Env.crcUpdate (e : Env) : Env := { e with crc := crc32 e.data }

/-- `htonl`, on a machine that stores the low byte first: the four bytes in the other order. -/
def htonl (v : ℕ) : ℕ := u32At (le32 v).reverse 0

/-- The numbers in a text, each with one character behind it, as far as `n` of them. -/
def numbers (base : ℕ) : ℕ → List Byte → List ℕ
  | 0, _ => []
  | n + 1, s => (simpleStrtoul s base).1 % 2 ^ 8 :: numbers base n (simpleStrtoul s base).2.tail

/-- What is copied from a variable that has been set (lines 350–380). -/
def Globals.follow (g : Globals) (name val : List Byte) : Globals :=
  if name = ethaddrName then { g with enetaddr := numbers 16 6 val }
  else if name = ipaddrName then
    { g with ipAddr := htonl ((numbers 10 4 val).foldl (fun addr v => addr * 2 ^ 8 + v) 0) }
  else if name = loadaddrName then { g with loadAddr := (simpleStrtoul val 16).1 }
  else g

variable (m : Machine)

/-- An existing variable may not be changed to this (lines 219–258): a console that is deleted
    or not there, or a baud rate that is not in the table. -/
def Request.refused (r : Request) : Bool :=
  if r.name = stdin ∨ r.name = stdout ∨ r.name = stderr then
    match r.vals with
    | [] => true
    | val :: _ => !m.assign r.name val
  else if r.name = baudrateName then
    (simpleStrtoul (r.vals.headD m.atNull) 10).1 ∉ baudrateTable
  else false

/-- The new baud rate, if the request sets one. -/
def Globals.setBaudrate (g : Globals) (r : Request) : Globals :=
  if r.name = baudrateName then
    { g with baudrate := (simpleStrtoul (r.vals.headD m.atNull) 10).1 }
  else g

/-- `_do_setenv` behind the search and the deletion (lines 303–380). -/
def define (e : Env) (r : Request) : Option (ℕ × Env) :=
  match r.vals with
  | [] => some (0, e.crcUpdate)
  | val :: _ =>
    match appendVar e.data r.name r.vals with
    | none => none
    | some none => some (1, e)
    | some (some data) =>
      some (0, { data := data, crc := crc32 data, globals := e.globals.follow r.name val })

/-- `_do_setenv` (lines 154–385): its value, and the environment it leaves; none if a loop
    leaves the block. -/
def doSetenv (e : Env) (r : Request) : Option (ℕ × Env) :=
  if 61 ∈ r.name then some (1, e)
  else
    match findVar e.data r.name e.data.length 0 with
    | none => none
    | some none => define e r
    | some (some found) =>
      if r.refused m then some (1, e)
      else
        match deleteVar e.data found.env found.nxt with
        | none => none
        | some data => define { e with data := data, globals := e.globals.setBaudrate m r } r

/-- Requests one after the other: the values returned, and the environment. -/
def doSetenvs : Env → List Request → Option (List ℕ × Env)
  | e, [] => some ([], e)
  | e, r :: rs => do
    let (ret, e) ← doSetenv m e r
    let (rets, e) ← doSetenvs e rs
    pure (ret :: rets, e)

/-! ## The block -/

section Block

variable {name n v s text junk : List Byte} {ss ts : List (List Byte)} {data : List Byte}

/-- A name of a variable: a C string without an equals sign. -/
def IsName (n : List Byte) : Prop := 0 ∉ n ∧ 61 ∉ n

theorem IsName.tail {c : Byte} (h : IsName (c :: n)) : IsName n :=
  ⟨fun h0 => h.1 (List.mem_cons_of_mem _ h0), fun h1 => h.2 (List.mem_cons_of_mem _ h1)⟩

/-- A name matches its own entry, and no other. -/
theorem envmatch_entry (hname : IsName name) (hn : IsName n) (rest : List Byte) :
    envmatch (name ++ [0]) (n ++ 61 :: rest) = if name = n then some (n.length + 1) else none := by
  induction name generalizing n with
  | nil =>
    cases n with
    | nil => rfl
    | cons d n =>
      have hd0 : (0 : Byte) ≠ d := fun h => hn.1 (h ▸ List.mem_cons_self)
      have hd61 : d ≠ 61 := fun h => hn.2 (h ▸ List.mem_cons_self)
      rw [List.nil_append, List.cons_append, envmatch, if_neg hd0, if_neg (fun h => hd61 h.2),
        if_neg (List.cons_ne_nil d n).symm]
  | cons c name ih =>
    have hc0 : c ≠ 0 := fun h => hname.1 (h ▸ List.mem_cons_self)
    have hc61 : c ≠ 61 := fun h => hname.2 (h ▸ List.mem_cons_self)
    cases n with
    | nil =>
      rw [List.nil_append, List.cons_append, envmatch, if_neg hc61, if_neg (fun h => hc0 h.1),
        if_neg (List.cons_ne_nil c name)]
    | cons d n =>
      rw [List.cons_append, List.cons_append, envmatch]
      by_cases hcd : c = d
      · rw [if_pos hcd, if_neg hc61, ih hname.tail hn.tail, hcd]
        by_cases heq : name = n
        · rw [if_pos heq, if_pos (congrArg (d :: ·) heq)]
          rfl
        · rw [if_neg heq, if_neg (fun h => heq (List.cons.inj h).2)]
          rfl
      · rw [if_neg hcd, if_neg (fun h => hc0 h.1), if_neg (fun h => hcd (List.cons.inj h).1)]

theorem stringEnd_append (xs : List Byte) (hs : 0 ∉ s) (rest : List Byte) :
    stringEnd (xs ++ (s ++ 0 :: rest)) xs.length = some (xs.length + s.length) := by
  rw [stringEnd, List.drop_left, findIdx?_append hs]
  rfl

/-- Moving a block down to its pair of zeros, over bytes that are lost. -/
theorem shiftDown_eq {k : ℕ} (zs : List Byte) : ∀ (xs ys : List Byte) (fuel : ℕ),
    untilDouble zs = some k → ys ≠ [] → k < fuel →
    ∃ lost, shiftDown fuel (xs ++ (ys ++ zs)) xs.length (xs.length + ys.length) =
      some (xs ++ (zs.take (k + 1) ++ lost), xs.length + k) ∧
      lost.length + k + 1 = ys.length + zs.length := by
  induction zs generalizing k with
  | nil =>
    intro xs ys fuel hk
    cases hk
  | cons z zs ih =>
    intro xs ys fuel hk hys hfuel
    obtain ⟨y, ys, rfl⟩ := List.exists_cons_of_ne_nil hys
    obtain ⟨fuel, rfl⟩ : ∃ f, fuel = f + 1 := ⟨fuel - 1, by omega⟩
    have hread : byteAt (xs ++ (y :: ys ++ z :: zs)) (xs.length + (y :: ys).length) = z := by
      rw [← List.append_assoc, ← List.length_append]
      exact byteAt_append_cons _ _ _
    have hset : (xs ++ (y :: ys ++ z :: zs)).set xs.length z = xs ++ z :: (ys ++ z :: zs) :=
      set_append _ _ _ _
    have hnext : byteAt (xs ++ z :: (ys ++ z :: zs)) (xs.length + (y :: ys).length + 1) =
        byteAt zs 0 := by
      have hsplit : xs ++ z :: (ys ++ z :: zs) = (xs ++ (z :: ys ++ [z])) ++ zs := by simp
      rw [hsplit, byteAt_append_right _ (by simp; omega)]
      congr 1
      simp
    have hz0 : byteAt (xs ++ z :: (ys ++ z :: zs)) xs.length = z := byteAt_append_cons _ _ _
    rw [shiftDown, hread, hset, hz0, hnext]
    rw [untilDouble] at hk
    by_cases hpair : z = 0 ∧ zs.head? = some 0
    · rw [if_pos hpair, Option.some.injEq] at hk
      subst hk
      obtain ⟨hz, hhead⟩ := hpair
      obtain ⟨b, zs, rfl⟩ : ∃ b l, zs = b :: l := by
        cases zs with
        | nil => cases hhead
        | cons b l => exact ⟨b, l, rfl⟩
      refine ⟨ys ++ z :: b :: zs, ?_, ?_⟩
      · rw [if_pos ⟨hz, Option.some.inj hhead⟩]
        simp
      · simp only [List.length_append, List.length_cons]
        omega
    · rw [if_neg hpair] at hk
      obtain ⟨k, hk', rfl⟩ := Option.map_eq_some_iff.mp hk
      have hgo : ¬ (z = 0 ∧ byteAt zs 0 = 0) := by
        rintro ⟨hz, hhead⟩
        cases zs with
        | nil => cases hk'
        | cons b l => exact hpair ⟨hz, congrArg some hhead⟩
      obtain ⟨lost, hrun, hlen⟩ := ih (xs ++ [z]) (ys ++ [z]) fuel hk' (by simp) (by omega)
      refine ⟨lost, ?_, ?_⟩
      · rw [if_neg hgo]
        have hsame : xs ++ [z] ++ (ys ++ [z] ++ zs) = xs ++ z :: (ys ++ z :: zs) := by simp
        rw [hsame] at hrun
        simp only [List.length_append, List.length_cons, List.length_nil] at hrun ⊢
        rw [show xs.length + (ys.length + 1) + 1 = xs.length + (0 + 1) + (ys.length + (0 + 1)) by
          omega]
        rw [hrun]
        simp only [List.append_assoc, List.cons_append, List.nil_append, List.take_succ_cons,
          Option.some.injEq, Prod.mk.injEq]
        exact ⟨trivial, by omega⟩
      · simp only [List.length_append, List.length_cons, List.length_nil] at hlen ⊢
        omega

/-- A deleted entry leaves the others. -/
theorem deleteVar_eq {junk : List Byte} (hss : ∀ s ∈ ss, IsEntry s) (hs : IsEntry s)
    (hts : ∀ s ∈ ts, IsEntry s)
    (hdata : data = pack ss ++ (s ++ 0 :: (pack ts ++ 0 :: junk))) :
    ∃ data', deleteVar data (pack ss).length ((pack ss).length + s.length) = some data' ∧
      Holds data' (ss ++ ts) ∧ data'.length = data.length := by
  have hall : ∀ u ∈ ss ++ ts, IsEntry u := by
    intro u hu
    rcases List.mem_append.mp hu with hu | hu
    · exact hss u hu
    · exact hts u hu
  obtain ⟨b, s', rfl⟩ := List.exists_cons_of_ne_nil hs.1
  have hbehind : ∀ tail : List Byte, byteAt (pack ss ++ (b :: s' ++ 0 :: tail))
      ((pack ss).length + (b :: s').length + 1) = byteAt tail 0 := by
    intro tail
    have hsplit : pack ss ++ (b :: s' ++ 0 :: tail) = (pack ss ++ (b :: s' ++ [0])) ++ tail := by
      simp
    rw [hsplit, byteAt_append_right _ (by simp; omega)]
    congr 1
    simp
  unfold deleteVar
  rw [hdata, hbehind]
  cases ts with
  | nil =>
    rw [pack_nil, List.nil_append, if_pos (show byteAt (0 :: junk) 0 = 0 from rfl)]
    cases ss with
    | nil =>
      refine ⟨_, rfl, ⟨hall, ?_⟩, by simp⟩
      cases s' with
      | nil => exact ⟨0 :: junk, rfl⟩
      | cons c s' => exact ⟨s' ++ 0 :: 0 :: junk, rfl⟩
    | cons t ss =>
      rw [if_pos (by simp), List.cons_append, set_append]
      refine ⟨_, rfl, ⟨hall, ?_⟩, by simp⟩
      rw [List.append_nil]
      exact ⟨s' ++ 0 :: 0 :: junk, by simp [packEnd]⟩
  | cons t ts =>
    have ht := hts t List.mem_cons_self
    have hhead : byteAt (pack (t :: ts) ++ 0 :: junk) 0 ≠ 0 := by
      obtain ⟨c, t', rfl⟩ := List.exists_cons_of_ne_nil ht.1
      intro h0
      apply ht.2
      rw [pack_cons] at h0
      have hc : c = 0 := h0
      rw [hc]
      exact List.mem_cons_self
    have huntil : untilDouble (pack (t :: ts) ++ 0 :: junk) =
        some ((pack (t :: ts)).length - 1) := untilDouble_pack hts (List.cons_ne_nil _ _) rfl
    have hpos : 0 < (pack (t :: ts)).length := by simp
    obtain ⟨lost, hrun, hlen⟩ := shiftDown_eq (pack (t :: ts) ++ 0 :: junk) (pack ss)
      (b :: s' ++ [0]) (pack ss ++ (b :: s' ++ 0 :: (pack (t :: ts) ++ 0 :: junk))).length huntil
      (by simp) (by simp; omega)
    have hsame : pack ss ++ (b :: s' ++ [0] ++ (pack (t :: ts) ++ 0 :: junk)) =
        pack ss ++ (b :: s' ++ 0 :: (pack (t :: ts) ++ 0 :: junk)) := by simp
    have hnxt : (pack ss).length + (b :: s' ++ [0]).length =
        (pack ss).length + (b :: s').length + 1 := by simp; omega
    rw [hsame, hnxt, Nat.sub_add_cancel hpos, List.take_left] at hrun
    obtain ⟨l, lost, rfl⟩ : ∃ l ls, lost = l :: ls := by
      cases lost with
      | nil => simp at hlen; omega
      | cons l ls => exact ⟨l, ls, rfl⟩
    have hplace : (pack ss).length + ((pack (t :: ts)).length - 1) + 1 =
        (pack ss ++ pack (t :: ts)).length := by
      rw [List.length_append]
      omega
    rw [if_neg hhead, hrun, Option.map_some, hplace, ← List.append_assoc, set_append]
    refine ⟨_, rfl, ⟨hall, lost, ?_⟩, ?_⟩
    · rw [pack_append, packEnd, if_neg (List.append_ne_nil_of_right_ne_nil _ (List.cons_ne_nil _ _))]
      simp only [List.append_assoc, List.cons_append, List.nil_append]
    · simp only [List.length_append, List.length_cons] at hlen ⊢
      simp only [List.length_nil] at hlen
      omega

theorem length_entryText (name val : List Byte) (vals : List (List Byte)) :
    (entryText name (val :: vals)).length + 2 =
      name.length + 2 + ((val :: vals).map (·.length + 1)).sum := by
  have hflat : (vals.flatMap (32 :: ·)).length = (vals.map (·.length + 1)).sum := by
    rw [List.length_flatMap]
    rfl
  rw [entryText, List.length_append, List.length_append, hflat, List.length_cons, List.map_cons,
    List.sum_cons]
  omega

/-- A new entry goes behind the others, where there is room. -/
theorem appendVar_eq {val : List Byte} {vals : List (List Byte)} (h : Holds data ss)
    (htext : IsEntry (entryText name (val :: vals))) :
    if (pack ss).length + (entryText name (val :: vals)).length + 2 ≤ data.length then
      ∃ data', appendVar data name (val :: vals) = some (some data') ∧
        Holds data' (ss ++ [entryText name (val :: vals)]) ∧ data'.length = data.length
    else appendVar data name (val :: vals) = some none := by
  obtain ⟨hss, junk, hdata⟩ := h
  obtain ⟨e, he, henv⟩ : ∃ e, untilDouble data = some e ∧
      (if 0 < e then e + 1 else e) = (pack ss).length := by
    rw [← hdata]
    cases ss with
    | nil => exact ⟨0, rfl, rfl⟩
    | cons s ss =>
      have hs := hss s List.mem_cons_self
      have hlen : 1 < (pack (s :: ss)).length := by
        have hpos := List.length_pos_iff.mpr hs.1
        rw [pack_cons, List.length_append, List.length_cons]
        omega
      refine ⟨(pack (s :: ss)).length - 1, ?_, ?_⟩
      · rw [List.append_assoc]
        exact untilDouble_pack hss (List.cons_ne_nil _ _) (head?_packEnd _ _)
      · rw [if_pos (by omega)]
        omega
  have hle : (pack ss).length ≤ data.length := by
    rw [← hdata]
    simp only [List.length_append]
    omega
  unfold appendVar
  rw [he]
  dsimp only
  rw [henv, ← length_entryText]
  split_ifs with hroom hfull hfull
  · omega
  · refine ⟨_, rfl, ⟨?_, ?_⟩, ?_⟩
    · intro s hs
      rcases List.mem_append.mp hs with hs | hs
      · exact hss s hs
      · rw [List.mem_singleton.mp hs]
        exact htext
    · rw [← hdata, List.append_assoc, put_append, packEnd, if_neg (by simp)]
      refine ⟨(packEnd ss ++ junk).drop ((entryText name (val :: vals)).length + 2), ?_⟩
      simp
    · exact length_put (by rw [List.length_append, List.length_cons, List.length_singleton]; omega)
  · rfl
  · omega

end Block

/-! ## The variables -/

/-- The variables, in the order of their entries. -/
abbrev Vars : Type := List (List Byte × List Byte)

/-- The entry of a variable: its name, an equals sign, its value and a zero. -/
def varEntry (x : List Byte × List Byte) : List Byte := x.1 ++ 61 :: x.2

/-- A block holds these variables, and each once. -/
structure Represents (data : List Byte) (vars : Vars) : Prop where
  holds : Holds data (vars.map varEntry)
  nodup : (vars.map Prod.fst).Nodup
  names : ∀ x ∈ vars, IsName x.1
  values : ∀ x ∈ vars, 0 ∉ x.2

/-- The variables without one of them. -/
def Vars.erase (vars : Vars) (name : List Byte) : Vars := vars.filter (·.1 ≠ name)

/-- The variables fit into a block of `size` bytes. -/
def Vars.Fits (vars : Vars) (size : ℕ) : Prop := (pack (vars.map varEntry)).length + 1 ≤ size

instance (vars : Vars) (size : ℕ) : Decidable (vars.Fits size) := by
  unfold Vars.Fits
  infer_instance

/-- What a request does to the variables: the value returned, and the variables. -/
def Vars.request (m : Machine) (size : ℕ) (vars : Vars) (r : Request) : ℕ × Vars :=
  if 61 ∈ r.name then (1, vars)
  else if (vars.lookup r.name).isSome ∧ r.refused m then (1, vars)
  else
    match r.vals with
    | [] => (0, vars.erase r.name)
    | val :: vals =>
      let vars' := vars.erase r.name ++ [(r.name, val ++ vals.flatMap (32 :: ·))]
      if vars'.Fits size then (0, vars') else (1, vars.erase r.name)

/-- Requests one after the other, on the list that the one before has left. -/
def Vars.requests (m : Machine) (size : ℕ) : Vars → List Request → List ℕ × Vars
  | vars, [] => ([], vars)
  | vars, r :: rs =>
    let step := vars.request m size r
    let rest := Vars.requests m size step.2 rs
    (step.1 :: rest.1, rest.2)

section Vars

variable {data name : List Byte} {vars : Vars}

theorem isEntry_varEntry {x : List Byte × List Byte} (hname : IsName x.1) (hval : 0 ∉ x.2) :
    IsEntry (varEntry x) := by
  unfold varEntry
  refine ⟨List.append_ne_nil_of_right_ne_nil _ (List.cons_ne_nil _ _), fun h => ?_⟩
  rcases List.mem_append.mp h with h | h
  · exact hname.1 h
  · rcases List.mem_cons.mp h with h | h
    · exact absurd h (by decide)
    · exact hval h

/-- A variable that is there, between the others. -/
theorem exists_split (h : (vars.lookup name).isSome) :
    ∃ xs v ys, vars = xs ++ (name, v) :: ys ∧ vars.lookup name = some v ∧
      name ∉ xs.map Prod.fst := by
  induction vars with
  | nil => cases h
  | cons x vars ih =>
    by_cases hx : name = x.1
    · refine ⟨[], x.2, vars, ?_, ?_, List.not_mem_nil⟩
      · rw [hx]
        rfl
      · rw [List.lookup_cons, hx, beq_self_eq_true]
    · have hskip : (x :: vars).lookup name = vars.lookup name := by
        rw [List.lookup_cons, beq_false_of_ne hx]
      rw [hskip] at h
      obtain ⟨xs, v, ys, rfl, hv, hnot⟩ := ih h
      refine ⟨x :: xs, v, ys, rfl, hskip.trans hv, ?_⟩
      rw [List.map_cons, List.mem_cons, not_or]
      exact ⟨hx, hnot⟩

/-- The search goes on behind the entry of another variable. -/
theorem findVar_skip {x : List Byte × List Byte} (hname : IsName name) (hx : IsName x.1)
    (hval : 0 ∉ x.2) (hne : name ≠ x.1) (xs rest : List Byte) (fuel : ℕ) :
    findVar (xs ++ (varEntry x ++ 0 :: rest)) name (fuel + 1) xs.length =
      findVar (xs ++ (varEntry x ++ 0 :: rest)) name fuel (xs ++ (varEntry x ++ [0])).length := by
  have hentry := isEntry_varEntry hx hval
  obtain ⟨b, s, hs⟩ := List.exists_cons_of_ne_nil hentry.1
  have hb : b ≠ 0 := fun hb => hentry.2 (hs ▸ hb ▸ List.mem_cons_self)
  have hfirst : byteAt (xs ++ (varEntry x ++ 0 :: rest)) xs.length = b := by
    rw [hs, List.cons_append]
    exact byteAt_append_cons _ _ _
  have hmatch : envmatch (name ++ [0]) ((xs ++ (varEntry x ++ 0 :: rest)).drop xs.length) = none := by
    rw [List.drop_left, varEntry, List.append_assoc, List.cons_append,
      envmatch_entry hname hx, if_neg hne]
  have hlen : (xs ++ (varEntry x ++ [0])).length = xs.length + (varEntry x).length + 1 := by
    simp only [List.length_append, List.length_singleton]
    omega
  rw [findVar, hfirst, if_neg hb, stringEnd_append xs hentry.2 rest]
  dsimp only
  rw [hmatch, hlen]

/-- Past the entries of other variables. -/
theorem findVar_skips (hname : IsName name) (xs rest : List Byte) (fuel : ℕ)
    (hnames : ∀ x ∈ vars, IsName x.1) (hvals : ∀ x ∈ vars, 0 ∉ x.2)
    (hnot : name ∉ vars.map Prod.fst) :
    findVar (xs ++ (pack (vars.map varEntry) ++ rest)) name (fuel + vars.length) xs.length =
      findVar (xs ++ (pack (vars.map varEntry) ++ rest)) name fuel
        (xs ++ pack (vars.map varEntry)).length := by
  induction vars generalizing xs with
  | nil => simp
  | cons x vars ih =>
    rw [List.map_cons, List.mem_cons, not_or] at hnot
    have hx := hnames x List.mem_cons_self
    have hv := hvals x List.mem_cons_self
    have hstep := ih (xs ++ (varEntry x ++ [0]))
      (fun y hy => hnames y (List.mem_cons_of_mem _ hy))
      (fun y hy => hvals y (List.mem_cons_of_mem _ hy)) hnot.2
    have hdata : xs ++ (varEntry x ++ [0]) ++ (pack (vars.map varEntry) ++ rest) =
        xs ++ (varEntry x ++ 0 :: (pack (vars.map varEntry) ++ rest)) := by simp
    have hend : xs ++ (varEntry x ++ [0]) ++ pack (vars.map varEntry) =
        xs ++ pack ((x :: vars).map varEntry) := by simp
    have hblock : xs ++ (pack ((x :: vars).map varEntry) ++ rest) =
        xs ++ (varEntry x ++ 0 :: (pack (vars.map varEntry) ++ rest)) := by simp
    rw [hdata, hend] at hstep
    rw [hblock, List.length_cons, ← Nat.add_assoc, findVar_skip hname hx hv hnot.1, hstep]

theorem length_le_pack (vars : Vars) : vars.length ≤ (pack (vars.map varEntry)).length := by
  induction vars with
  | nil => exact le_rfl
  | cons x vars ih =>
    rw [List.map_cons, pack_cons, List.length_append, List.length_cons, List.length_cons]
    omega

/-- Where a variable is found, if it is there. -/
theorem findVar_eq (h : Represents data vars) (hname : IsName name) :
    (vars.lookup name = none ∧ findVar data name data.length 0 = some none) ∨
    ∃ xs v ys, vars = xs ++ (name, v) :: ys ∧ vars.lookup name = some v ∧
      findVar data name data.length 0 = some (some
        ⟨(pack (xs.map varEntry)).length,
          (pack (xs.map varEntry)).length + (varEntry (name, v)).length,
          (pack (xs.map varEntry)).length + (name.length + 1)⟩) := by
  obtain ⟨-, junk, hdata⟩ := h.holds
  have hlen : (pack (vars.map varEntry)).length < data.length := by
    rw [← hdata]
    unfold packEnd
    split_ifs <;> simp
  have hle := length_le_pack vars
  by_cases hsome : (vars.lookup name).isSome
  · right
    obtain ⟨xs, v, ys, rfl, hv, hnot⟩ := exists_split hsome
    have hmem : (name, v) ∈ xs ++ (name, v) :: ys := by simp
    have hentry : IsEntry (varEntry (name, v)) :=
      isEntry_varEntry (h.names _ hmem) (h.values _ hmem)
    refine ⟨xs, v, ys, rfl, hv, ?_⟩
    obtain ⟨rest, hrest⟩ : ∃ rest,
        data = [] ++ (pack (xs.map varEntry) ++ (varEntry (name, v) ++ 0 :: rest)) := by
      refine ⟨pack (ys.map varEntry) ++ (packEnd ((xs ++ (name, v) :: ys).map varEntry) ++ junk), ?_⟩
      rw [← hdata]
      simp
    obtain ⟨fuel, hfuel⟩ : ∃ fuel, data.length = fuel + 1 + xs.length := by
      refine ⟨data.length - 1 - xs.length, ?_⟩
      rw [List.length_append, List.length_cons] at hle
      omega
    obtain ⟨b, s, hs⟩ := List.exists_cons_of_ne_nil hentry.1
    have hb : b ≠ 0 := fun hb => hentry.2 (hs ▸ hb ▸ List.mem_cons_self)
    have hskip := findVar_skips hname [] (varEntry (name, v) ++ 0 :: rest) (fuel + 1)
      (fun x hx => h.names x (List.mem_append_left _ hx))
      (fun x hx => h.values x (List.mem_append_left _ hx)) hnot
    rw [← hrest, List.length_nil, List.nil_append] at hskip
    rw [hfuel, hskip, hrest, List.nil_append, findVar, stringEnd_append _ hentry.2,
      List.drop_left]
    have hmatch : envmatch (name ++ [0]) (varEntry (name, v) ++ 0 :: rest) =
        some (name.length + 1) := by
      rw [varEntry, List.append_assoc, List.cons_append,
        envmatch_entry hname (h.names _ hmem), if_pos rfl]
    have hfirst : byteAt (pack (xs.map varEntry) ++ (varEntry (name, v) ++ 0 :: rest))
        (pack (xs.map varEntry)).length = b := by
      rw [hs, List.cons_append]
      exact byteAt_append_cons _ _ _
    rw [hfirst, if_neg hb]
    dsimp only
    rw [hmatch]
  · left
    have hnone : vars.lookup name = none := by
      rwa [Option.not_isSome_iff_eq_none] at hsome
    have hnot : name ∉ vars.map Prod.fst := by
      intro hmem
      obtain ⟨x, hx, rfl⟩ := List.mem_map.mp hmem
      rw [List.lookup_eq_none_iff] at hnone
      exact absurd (hnone x hx) (by simp)
    refine ⟨hnone, ?_⟩
    obtain ⟨fuel, hfuel⟩ : ∃ fuel, data.length = fuel + 1 + vars.length :=
      ⟨data.length - 1 - vars.length, by omega⟩
    have hskip := findVar_skips hname [] (packEnd (vars.map varEntry) ++ junk) (fuel + 1)
      h.names h.values hnot
    rw [List.nil_append, List.nil_append, List.length_nil, ← List.append_assoc, hdata] at hskip
    rw [hfuel, hskip, findVar, ← hdata, List.append_assoc, byteAt_append_length _ (head?_packEnd _ _),
      if_pos rfl]

/-- `getenv` finds the value of a variable. -/
theorem getenv_eq (h : Represents data vars) (hname : IsName name) :
    getenv data name = some (vars.lookup name) := by
  unfold getenv
  rcases findVar_eq h hname with ⟨hnone, hfind⟩ | ⟨xs, v, ys, rfl, hv, hfind⟩
  · rw [hfind, hnone]
    rfl
  · obtain ⟨-, junk, hdata⟩ := h.holds
    have hval : 0 ∉ v := h.values (name, v) (by simp)
    have hrest : data = (pack (xs.map varEntry) ++ (name ++ [61])) ++ (v ++ 0 ::
        (pack (ys.map varEntry) ++ (packEnd ((xs ++ (name, v) :: ys).map varEntry) ++ junk))) := by
      rw [← hdata]
      simp [varEntry]
    have hplace : (pack (xs.map varEntry)).length + (name.length + 1) =
        (pack (xs.map varEntry) ++ (name ++ [61])).length := by simp
    rw [hfind, hv, Option.map_some, Option.map_some, hplace, hrest, List.drop_left,
      cString_append hval]

end Vars

/-! ## Requests -/

section Requests

variable {m : Machine} {e : Env} {r : Request} {vars : Vars} {name : List Byte}

/-- The arguments are C strings. -/
def Request.Strings (r : Request) : Prop := 0 ∉ r.name ∧ ∀ val ∈ r.vals, 0 ∉ val

/-- A request that finds no room for its definition. -/
def Vars.Overflows (m : Machine) (size : ℕ) (vars : Vars) (r : Request) : Prop :=
  61 ∉ r.name ∧ ¬ ((vars.lookup r.name).isSome ∧ r.refused m) ∧
    ∃ val vals, r.vals = val :: vals ∧
      ¬ (vars.erase r.name ++ [(r.name, val ++ vals.flatMap (32 :: ·))]).Fits size

theorem erase_of_not_mem (h : name ∉ vars.map Prod.fst) : vars.erase name = vars := by
  unfold Vars.erase
  rw [List.filter_eq_self]
  intro x hx
  rw [decide_eq_true_eq]
  rintro rfl
  exact h (List.mem_map_of_mem hx)

theorem not_mem_erase (vars : Vars) (name : List Byte) :
    name ∉ (vars.erase name).map Prod.fst := by
  unfold Vars.erase
  intro h
  obtain ⟨x, hx, rfl⟩ := List.mem_map.mp h
  exact absurd rfl (of_decide_eq_true (List.mem_filter.mp hx).2)

/-- The variables around the one that is erased. -/
theorem erase_split {xs ys : Vars} {v : List Byte}
    (h : ((xs ++ (name, v) :: ys).map Prod.fst).Nodup) :
    Vars.erase (xs ++ (name, v) :: ys) name = xs ++ ys := by
  rw [List.map_append, List.map_cons, List.nodup_append] at h
  obtain ⟨-, hys, hdis⟩ := h
  have hx : Vars.erase xs name = xs := erase_of_not_mem fun hmem =>
    hdis name hmem name List.mem_cons_self rfl
  have hy : Vars.erase ys name = ys := erase_of_not_mem (List.nodup_cons.mp hys).1
  unfold Vars.erase at hx hy ⊢
  rw [List.filter_append, hx, List.filter_cons, hy, if_neg (by simp)]

/-- The value of a definition is a C string, as its words are. -/
theorem not_mem_value {val : List Byte} {vals : List (List Byte)}
    (hvals : ∀ u ∈ val :: vals, 0 ∉ u) : 0 ∉ val ++ vals.flatMap (32 :: ·) := by
  intro h0
  rcases List.mem_append.mp h0 with h0 | h0
  · exact hvals val List.mem_cons_self h0
  · obtain ⟨u, hu, h0⟩ := List.mem_flatMap.mp h0
    rcases List.mem_cons.mp h0 with h0 | h0
    · exact absurd h0 (by decide)
    · exact hvals u (List.mem_cons_of_mem _ hu) h0

/-- A block with one more entry holds one more variable. -/
theorem Represents.snoc {data data' v : List Byte} (h : Represents data vars) (hname : IsName name)
    (hval : 0 ∉ v) (hnot : name ∉ vars.map Prod.fst)
    (hholds : Holds data' (vars.map varEntry ++ [varEntry (name, v)])) :
    Represents data' (vars ++ [(name, v)]) := by
  constructor
  · rw [List.map_append]
    exact hholds
  · rw [List.map_append, List.nodup_append]
    refine ⟨h.nodup, List.nodup_singleton _, ?_⟩
    rintro n hn n' hn' rfl
    rw [List.mem_singleton.mp hn'] at hn
    exact hnot hn
  · intro x hx
    rcases List.mem_append.mp hx with hx | hx
    · exact h.names x hx
    · rw [List.mem_singleton.mp hx]
      exact hname
  · intro x hx
    rcases List.mem_append.mp hx with hx | hx
    · exact h.values x hx
    · rw [List.mem_singleton.mp hx]
      exact hval

/-- What the definition of a request does to the variables without the old one. -/
def Vars.defined (size : ℕ) (vars : Vars) (r : Request) : ℕ × Vars :=
  match r.vals with
  | [] => (0, vars)
  | val :: vals =>
    let vars' := vars ++ [(r.name, val ++ vals.flatMap (32 :: ·))]
    if vars'.Fits size then (0, vars') else (1, vars)

theorem request_of_name (h : 61 ∈ r.name) (size : ℕ) : vars.request m size r = (1, vars) :=
  if_pos h

theorem request_of_refused (hname : 61 ∉ r.name) (hsome : (vars.lookup r.name).isSome)
    (hrefused : r.refused m) (size : ℕ) : vars.request m size r = (1, vars) := by
  unfold Vars.request
  rw [if_neg hname, if_pos ⟨hsome, hrefused⟩]

/-- A request that is carried out. -/
theorem request_eq (hname : 61 ∉ r.name) (hgo : ¬ ((vars.lookup r.name).isSome ∧ r.refused m))
    (size : ℕ) : vars.request m size r = (vars.erase r.name).defined size r := by
  unfold Vars.request Vars.defined
  rw [if_neg hname, if_neg hgo]

/-- The definition of a request, for a variable that is not there. -/
theorem define_represents (h : Represents e.data vars) (hr : r.Strings) (hname : 61 ∉ r.name)
    (hnot : r.name ∉ vars.map Prod.fst) :
    ∃ e', define e r = some ((vars.defined e.data.length r).1, e') ∧
      Represents e'.data (vars.defined e.data.length r).2 ∧ e'.data.length = e.data.length ∧
      (e'.crc = crc32 e'.data ∨ e' = e ∧ ∃ val vals, r.vals = val :: vals ∧
        ¬ (vars ++ [(r.name, val ++ vals.flatMap (32 :: ·))]).Fits e.data.length) := by
  unfold define Vars.defined
  cases hv : r.vals with
  | nil => exact ⟨e.crcUpdate, rfl, h, rfl, .inl rfl⟩
  | cons val vals =>
    have hval := not_mem_value (hv ▸ hr.2)
    have htext : entryText r.name (val :: vals) =
        varEntry (r.name, val ++ vals.flatMap (32 :: ·)) := by
      simp [entryText, varEntry]
    have hentry : IsEntry (entryText r.name (val :: vals)) := by
      rw [htext]
      exact isEntry_varEntry ⟨hr.1, hname⟩ hval
    have happend := appendVar_eq h.holds hentry
    have hfits : (pack (vars.map varEntry)).length + (entryText r.name (val :: vals)).length + 2 ≤
        e.data.length ↔
        Vars.Fits (vars ++ [(r.name, val ++ vals.flatMap (32 :: ·))]) e.data.length := by
      rw [Vars.Fits, List.map_append, pack_append, htext]
      simp only [List.map_cons, List.map_nil, pack_cons, pack_nil, List.length_append,
        List.length_cons, List.length_nil]
      omega
    dsimp only
    by_cases hroom : Vars.Fits (vars ++ [(r.name, val ++ vals.flatMap (32 :: ·))]) e.data.length
    · rw [if_pos (hfits.mpr hroom)] at happend
      obtain ⟨data', hrun, hholds, hlen⟩ := happend
      rw [htext] at hholds
      rw [if_pos hroom, hrun]
      exact ⟨⟨data', crc32 data', e.globals.follow r.name val⟩, rfl,
        h.snoc ⟨hr.1, hname⟩ hval hnot hholds, hlen, .inl rfl⟩
    · rw [if_neg (fun hle => hroom (hfits.mp hle))] at happend
      rw [if_neg hroom, happend]
      exact ⟨e, rfl, h, rfl, .inr ⟨rfl, val, vals, rfl, hroom⟩⟩

/-- The deletion of a variable where it has been found leaves the others. -/
theorem deleteVar_represents {data v : List Byte} {xs ys : Vars}
    (h : Represents data (xs ++ (name, v) :: ys)) :
    ∃ data', deleteVar data (pack (xs.map varEntry)).length
        ((pack (xs.map varEntry)).length + (varEntry (name, v)).length) = some data' ∧
      Represents data' (Vars.erase (xs ++ (name, v) :: ys) name) ∧
      data'.length = data.length := by
  have hsub : ∀ x ∈ xs ++ ys, x ∈ xs ++ (name, v) :: ys := by
    intro x hx
    rcases List.mem_append.mp hx with hx | hx
    · exact List.mem_append_left _ hx
    · exact List.mem_append_right _ (List.mem_cons_of_mem _ hx)
  have hentries : ∀ l : Vars, (∀ x ∈ l, x ∈ xs ++ (name, v) :: ys) →
      ∀ s ∈ l.map varEntry, IsEntry s := by
    intro l hl s hs
    obtain ⟨x, hx, rfl⟩ := List.mem_map.mp hs
    exact isEntry_varEntry (h.names x (hl x hx)) (h.values x (hl x hx))
  have hmem : (name, v) ∈ xs ++ (name, v) :: ys := by simp
  obtain ⟨-, junk, hdata⟩ := h.holds
  have hblock : data = pack (xs.map varEntry) ++ (varEntry (name, v) ++
      0 :: (pack (ys.map varEntry) ++ 0 :: junk)) := by
    rw [← hdata, packEnd, if_neg (by simp)]
    simp
  obtain ⟨data', hdelete, hholds, hlen⟩ := deleteVar_eq
    (hentries xs fun x hx => hsub x (List.mem_append_left _ hx))
    (isEntry_varEntry (h.names _ hmem) (h.values _ hmem))
    (hentries ys fun x hx => hsub x (List.mem_append_right _ hx)) hblock
  refine ⟨data', hdelete, ?_, hlen⟩
  rw [erase_split h.nodup]
  constructor
  · rw [List.map_append]
    exact hholds
  · exact h.nodup.sublist
      (((List.append_sublist_append_left xs).mpr (List.sublist_cons_self _ _)).map _)
  · exact fun x hx => h.names x (hsub x hx)
  · exact fun x hx => h.values x (hsub x hx)

/-- A request changes the variables as it says, and keeps the checksum that of the block
    unless it loses a variable for want of room. -/
theorem setenv_represents (h : Represents e.data vars) (hr : r.Strings) :
    ∃ e', doSetenv m e r = some ((vars.request m e.data.length r).1, e') ∧
      Represents e'.data (vars.request m e.data.length r).2 ∧
      e'.data.length = e.data.length ∧
      (e.crc = crc32 e.data →
        ¬ ((vars.lookup r.name).isSome ∧ vars.Overflows m e.data.length r) →
        e'.crc = crc32 e'.data) := by
  unfold doSetenv
  by_cases heq : 61 ∈ r.name
  · rw [if_pos heq, request_of_name heq]
    exact ⟨e, rfl, h, rfl, fun hcrc _ => hcrc⟩
  have hname : IsName r.name := ⟨hr.1, heq⟩
  rw [if_neg heq]
  rcases findVar_eq h hname with ⟨hnone, hfind⟩ | ⟨xs, v, ys, hvars, hv, hfind⟩
  · -- a new variable
    have hnot : r.name ∉ vars.map Prod.fst := by
      intro hmem
      obtain ⟨x, hx, hxn⟩ := List.mem_map.mp hmem
      rw [List.lookup_eq_none_iff] at hnone
      exact absurd (hnone x hx) (by simp [hxn])
    have hgo : ¬ ((vars.lookup r.name).isSome ∧ r.refused m) := by
      rw [hnone]
      simp
    obtain ⟨e', hrun, hrep, hlen, hcrc'⟩ := define_represents h hr heq hnot
    rw [hfind, request_eq heq hgo, erase_of_not_mem hnot]
    refine ⟨e', hrun, hrep, hlen, fun hcrc _ => ?_⟩
    rcases hcrc' with hcrc' | ⟨rfl, -⟩
    · exact hcrc'
    · exact hcrc
  · -- an existing one
    have hsome : (vars.lookup r.name).isSome := by
      rw [hv]
      rfl
    rw [hfind]
    dsimp only
    by_cases hrefused : r.refused m
    · rw [if_pos hrefused, request_of_refused heq hsome hrefused]
      exact ⟨e, rfl, h, rfl, fun hcrc _ => hcrc⟩
    have hgo : ¬ ((vars.lookup r.name).isSome ∧ r.refused m) := fun hboth => hrefused hboth.2
    rw [if_neg hrefused, request_eq heq hgo]
    obtain ⟨data', hdelete, hrep, hlen'⟩ := deleteVar_represents (hvars ▸ h)
    rw [← hvars] at hrep
    obtain ⟨e', hrun, hrep', hlen, hcrc'⟩ := define_represents (e := { e with
      data := data'
      globals := e.globals.setBaudrate m r }) hrep hr heq (not_mem_erase _ _)
    dsimp only at hrun hrep' hlen hcrc'
    rw [hlen'] at hrun hrep' hcrc'
    rw [hdelete]
    refine ⟨e', hrun, hrep', hlen.trans hlen', fun _ hlost => ?_⟩
    rcases hcrc' with hcrc' | ⟨-, val, vals, hvals, hroom⟩
    · exact hcrc'
    · exact (hlost ⟨hsome, heq, hgo, val, vals, hvals, hroom⟩).elim

/-- After any requests the block holds the variables they leave. -/
theorem setenvs_represents (m : Machine) (h : Represents e.data vars) {rs : List Request}
    (hrs : ∀ r ∈ rs, r.Strings) :
    ∃ e', doSetenvs m e rs = some ((vars.requests m e.data.length rs).1, e') ∧
      Represents e'.data (vars.requests m e.data.length rs).2 := by
  induction rs generalizing e vars with
  | nil => exact ⟨e, rfl, h⟩
  | cons r rs ih =>
    obtain ⟨e1, hstep, hrep, hlen, -⟩ :=
      setenv_represents (m := m) h (hrs r List.mem_cons_self)
    obtain ⟨e2, hrest, hrep2⟩ := ih hrep fun q hq => hrs q (List.mem_cons_of_mem _ hq)
    rw [hlen] at hrest hrep2
    refine ⟨e2, ?_, hrep2⟩
    rw [doSetenvs, hstep]
    show (doSetenvs m e1 rs >>= fun x => pure (_ :: x.1, x.2)) = _
    rw [hrest]
    rfl

/-- After any requests `getenv` finds the variables they leave. -/
theorem setenvs_getenv (m : Machine) {e : Env} {vars : Vars} (h : Represents e.data vars)
    (rs : List Request) (hrs : ∀ r ∈ rs, r.Strings) :
    ∃ e', doSetenvs m e rs = some ((vars.requests m e.data.length rs).1, e') ∧
      Represents e'.data (vars.requests m e.data.length rs).2 ∧
      ∀ name, IsName name →
        getenv e'.data name = some ((vars.requests m e.data.length rs).2.lookup name) := by
  obtain ⟨e', hrun, hrep⟩ := setenvs_represents m h hrs
  exact ⟨e', hrun, hrep, fun name hname => getenv_eq hrep hname⟩

end Requests

/-- A machine that has none of the consoles a request asks for. -/
def plainMachine : Machine := ⟨fun _ _ => false, []⟩

/-- An environment of ten bytes. -/
def smallEnv : Env :=
  ⟨ascii "a=1" ++ List.replicate 7 0, crc32 (ascii "a=1" ++ List.replicate 7 0),
    ⟨115200, [], 0, 0⟩⟩

/-- The list of variables that the small environment holds. -/
def smallVars : Vars := [(ascii "a", ascii "1")]

/-- A new value, and a variable there is no room for. -/
def smallRequests : List Request :=
  [⟨ascii "a", [ascii "2"]⟩, ⟨ascii "b", [ascii "long"]⟩]

theorem smallEnv_represents : Represents smallEnv.data smallVars := by
  constructor
  · refine ⟨?_, List.replicate 5 0, by decide⟩
    have hall : ∀ s ∈ smallVars.map varEntry, s ≠ [] ∧ 0 ∉ s := by decide
    exact hall
  · decide
  · have hall : ∀ x ∈ smallVars, 0 ∉ x.1 ∧ 61 ∉ x.1 := by decide
    exact hall
  · decide

theorem smallRequests_strings : ∀ r ∈ smallRequests, r.Strings := by
  have hall : ∀ r ∈ smallRequests, 0 ∉ r.name ∧ ∀ val ∈ r.vals, 0 ∉ val := by
    simp only [smallRequests, List.forall_mem_cons]
    decide
  exact hall

theorem setenvs_getenv_small : ∃ e', doSetenvs plainMachine smallEnv smallRequests =
      some ([0, 1], e') ∧
    getenv e'.data (ascii "a") = some (some (ascii "2")) ∧
    getenv e'.data (ascii "b") = some none := by
  obtain ⟨e', hrun, -, hget⟩ :=
    setenvs_getenv plainMachine smallEnv_represents smallRequests smallRequests_strings
  have hrets : (smallVars.requests plainMachine smallEnv.data.length smallRequests).1 = [0, 1] := by
    decide
  refine ⟨e', by rw [hrun, hrets], ?_, ?_⟩
  · rw [hget (ascii "a") ⟨by decide, by decide⟩]
    decide
  · rw [hget (ascii "b") ⟨by decide, by decide⟩]
    decide

end SmartQ.UBoot
