import Mathlib.Data.Nat.Digits.Lemmas
import SmartQ.Lib.CInt

/-!
# Numbers as text

Model of `simple_strtoul`, `simple_strtol`, `number` and `vsprintf` in
`u-boot/lib_generic/vsprintf.c`, built without 64-bit numbers. A string is the list of its
bytes without the terminator.

* `simpleStrtoul_number`: an unsigned number that is printed without blanks in front is read
  back.
* `simpleStrtol_number`: so is a signed one.
* `simpleStrtoul_hex`: the `0x` in front of a number decides its base.
-/

namespace SmartQ.UBoot

open SmartQ.Lib

/-! ## Reading -/

/-- `isxdigit`: a decimal digit or a letter up to F, small or large. -/
def isXDigit (c : Byte) : Bool :=
  48 ≤ c && c ≤ 57 || 65 ≤ c && c ≤ 70 || 97 ≤ c && c ≤ 102

/-- The value of a digit. -/
def digitValue (c : Byte) : ℕ :=
  if 48 ≤ c ∧ c ≤ 57 then c.toNat - 48
  else if 97 ≤ c then c.toNat - 32 - 65 + 10
  else c.toNat - 65 + 10

/-- The loop of `simple_strtoul`: the value, and where it stops. -/
def strtoulLoop (base : ℕ) : List Byte → ℕ → ℕ × List Byte
  | [], result => (result, [])
  | c :: cp, result =>
    if isXDigit c ∧ digitValue c < base then
      strtoulLoop base cp ((result * base + digitValue c) % 2 ^ 32)
    else (result, c :: cp)

/-- Behind a first zero: where the digits start, and their base. -/
def strtoulZero (cp : List Byte) (base : ℕ) : List Byte × ℕ :=
  if cp.head? = some 120 ∧ (cp.tail.head?.any isXDigit) then (cp.tail, 16)
  else (cp, if base = 0 then 8 else base)

/-- `simple_strtoul` (lines 24–47): the value, and where the text goes on. -/
def simpleStrtoul (cp : List Byte) (base : ℕ) : ℕ × List Byte :=
  let (cp, base) := if cp.head? = some 48 then strtoulZero cp.tail base else (cp, base)
  strtoulLoop (if base = 0 then 10 else base) cp 0

/-- `simple_strtol`: a minus sign in front turns the number around. -/
def simpleStrtol (cp : List Byte) (base : ℕ) : ℤ × List Byte :=
  if cp.head? = some 45 then
    let (value, cp) := simpleStrtoul cp.tail base
    (int32 (-value), cp)
  else
    let (value, cp) := simpleStrtoul cp base
    (int32 value, cp)

theorem simpleStrtol_minus (cp : List Byte) (base : ℕ) :
    (simpleStrtol (45 :: cp) base).1 = int32 (-((simpleStrtoul cp base).1 : ℤ)) := by
  unfold simpleStrtol
  rw [List.head?_cons, if_pos rfl, List.tail_cons]

theorem simpleStrtol_of_ne {cp : List Byte} {base : ℕ} (h : cp.head? ≠ some 45) :
    (simpleStrtol cp base).1 = int32 (simpleStrtoul cp base).1 := by
  unfold simpleStrtol
  rw [if_neg h]

/-! ## Writing -/

/-- The flags of `number`: the sign, the side, the fill and the prefix. -/
structure Flags where
  zeropad : Bool := false
  sign : Bool := false
  plus : Bool := false
  space : Bool := false
  left : Bool := false
  special : Bool := false
  large : Bool := false
  deriving DecidableEq

/-- `digits[d]`: the character of a digit, from one of the two tables. -/
def digitChar (large : Bool) (d : ℕ) : Byte :=
  UInt8.ofNat (if d < 10 then 48 + d else (if large then 65 else 97) + (d - 10))

/-- `tmp`: the digits of a number, the last one first. -/
def tmpDigits (large : Bool) (base num : ℕ) : List Byte :=
  if num = 0 then [48] else (Nat.digits base num).map (digitChar large)

/-- The sign in front of a number. -/
def signChar (num : ℤ) (f : Flags) : List Byte :=
  if ¬ f.sign then []
  else if num < 0 then [45]
  else if f.plus then [43]
  else if f.space then [32]
  else []

/-- The prefix of a number in octal or hexadecimal. -/
def specialPrefix (base : ℕ) (f : Flags) : List Byte :=
  if ¬ f.special then []
  else if base = 8 then [48]
  else if base = 16 then [48, digitChar f.large 33]
  else []

/-- `number` (lines 114–184) for the bases 8, 10 and 16. -/
def number (num : ℤ) (base : ℕ) (size precision : ℤ) (f : Flags) : List Byte :=
  let zeropad := f.zeropad && !f.left
  let sign := signChar num f
  let num := if f.sign ∧ num < 0 then -num else num
  let pre := specialPrefix base f
  let tmp := tmpDigits f.large base (toU32 num)
  let precision := max precision tmp.length
  let pad := (size - sign.length - pre.length - precision).toNat
  (if zeropad ∨ f.left then [] else List.replicate pad 32) ++ sign ++ pre
    ++ (if zeropad then List.replicate pad 48 else [])
    ++ List.replicate (precision - tmp.length).toNat 48 ++ tmp.reverse
    ++ (if f.left then List.replicate pad 32 else [])

/-! ## Formats -/

/-- An argument of `vsprintf`; `NULL` is a string too. -/
inductive Arg
  | num (z : ℤ)
  | str (s : Option (List Byte))

/-- `is_digit`: a decimal digit, in a width or a precision. -/
def isDigit (c : Byte) : Bool := 48 ≤ c && c ≤ 57

/-- The flags at the start of a directive, and what follows them. -/
def readFlags : List Byte → Flags → Flags × List Byte
  | [], f => (f, [])
  | c :: fmt, f =>
    if c = 45 then readFlags fmt { f with left := true }
    else if c = 43 then readFlags fmt { f with plus := true }
    else if c = 32 then readFlags fmt { f with space := true }
    else if c = 35 then readFlags fmt { f with special := true }
    else if c = 48 then readFlags fmt { f with zeropad := true }
    else (f, c :: fmt)

/-- `skip_atoi`: a number in the format string, in an `int` that may overflow. -/
def skipAtoi : List Byte → ℤ → ℤ × List Byte
  | [], i => (i, [])
  | c :: fmt, i => if isDigit c then skipAtoi fmt (int32 (i * 10 + c.toNat - 48)) else (i, c :: fmt)

/-- The field width (lines 224–235); a negative one from the arguments adjusts to the left. -/
def fieldWidth (f : Flags) (fmt : List Byte) (args : List Arg) :
    Option (ℤ × Flags × List Byte × List Arg) :=
  if fmt.head?.any isDigit then
    let (width, fmt) := skipAtoi fmt 0
    some (width, f, fmt, args)
  else if fmt.head? = some 42 then
    match args with
    | .num z :: args =>
      some (if z < 0 then (-z, { f with left := true }, fmt.tail, args) else (z, f, fmt.tail, args))
    | _ => none
  else some (-1, f, fmt, args)

/-- The precision (lines 238–250). -/
def precisionOf (fmt : List Byte) (args : List Arg) : Option (ℤ × List Byte × List Arg) :=
  if fmt.head? ≠ some 46 then some (-1, fmt, args)
  else if fmt.tail.head?.any isDigit then
    let (precision, fmt) := skipAtoi fmt.tail 0
    some (max precision 0, fmt, args)
  else if fmt.tail.head? = some 42 then
    match args with
    | .num z :: args => some (max z 0, fmt.tail.tail, args)
    | _ => none
  else some (0, fmt.tail, args)

/-- The qualifier `h`, `l` or `q`. -/
def qualifierOf (fmt : List Byte) : Option Byte × List Byte :=
  match fmt.head? with
  | some c => if c = 104 ∨ c = 108 ∨ c = 113 then (some c, fmt.tail) else (none, fmt)
  | none => (none, fmt)

/-- Blanks around a text, to the width of its field. -/
def justify (f : Flags) (width : ℤ) (text : List Byte) : List Byte :=
  let pad := List.replicate (width - text.length).toNat 32
  if f.left then text ++ pad else pad ++ text

/-- The argument of an integer conversion. -/
def integer (qualifier : Option Byte) (sign : Bool) (z : ℤ) : ℤ :=
  if qualifier = some 104 then (if sign then int16 z else z % 2 ^ 16) else int32 z

/-- An integer conversion in front of `fmt`. -/
def convertInt (f : Flags) (base : ℕ) (width precision : ℤ) (qualifier : Option Byte)
    (fmt : List Byte) : List Arg → Option (List Byte × List Byte × List Arg)
  | .num z :: args => some (number (integer qualifier f.sign z) base width precision f, fmt, args)
  | _ => none

/-- The conversion (lines 262–346) at the start of `fmt`: its text, the format behind it, and
    the arguments left. `%n` has no value. -/
def convert (f : Flags) (width precision : ℤ) (qualifier : Option Byte) (fmt : List Byte)
    (args : List Arg) : Option (List Byte × List Byte × List Arg) :=
  match fmt with
  | [] => some ([37], [], args)
  | c :: fmt =>
    if c = 99 then
      match args with
      | .num z :: args => some (justify f width [UInt8.ofNat (toU32 z)], fmt, args)
      | _ => none
    else if c = 115 then
      match args with
      | .str s :: args =>
        let s := s.getD [60, 78, 85, 76, 76, 62]
        some (justify f width (if precision < 0 then s else s.take precision.toNat), fmt, args)
      | _ => none
    else if c = 112 then
      let f := if width = -1 then { f with zeropad := true } else f
      convertInt f 16 (if width = -1 then 8 else width) precision none fmt args
    else if c = 110 then none
    else if c = 37 then some ([37], fmt, args)
    else if c = 111 then convertInt f 8 width precision qualifier fmt args
    else if c = 88 then convertInt { f with large := true } 16 width precision qualifier fmt args
    else if c = 120 then convertInt f 16 width precision qualifier fmt args
    else if c = 100 ∨ c = 105 then
      convertInt { f with sign := true } 10 width precision qualifier fmt args
    else if c = 117 then convertInt f 10 width precision qualifier fmt args
    else some ([37, c], fmt, args)

/-- What follows a `%`: its flags, width, precision and conversion, and the text it makes. -/
def directive (fmt : List Byte) (args : List Arg) :
    Option (List Byte × List Byte × List Arg) := do
  let (f, fmt) := readFlags fmt {}
  let (width, f, fmt, args) ← fieldWidth f fmt args
  let (precision, fmt, args) ← precisionOf fmt args
  let (qualifier, fmt) := qualifierOf fmt
  convert f width precision qualifier fmt args

/-- The loop of `vsprintf`, with at most `fuel` characters and directives. -/
def vsprintfLoop : ℕ → List Byte → List Arg → Option (List Byte)
  | _, [], _ => some []
  | 0, _ :: _, _ => none
  | fuel + 1, c :: fmt, args =>
    if c ≠ 37 then (c :: ·) <$> vsprintfLoop fuel fmt args
    else do
      let (text, fmt, args) ← directive fmt args
      (text ++ ·) <$> vsprintfLoop fuel fmt args

/-- `vsprintf` (lines 189–348): the string it writes; none if the arguments do not match the
    format. -/
def vsprintf (fmt : List Byte) (args : List Arg) : Option (List Byte) :=
  vsprintfLoop fmt.length fmt args

/-! ## Digits -/

theorem isXDigit_digitChar :
    ∀ large, ∀ d < 16, isXDigit (digitChar large d) = true ∧ digitValue (digitChar large d) = d := by
  decide

theorem digitChar_ne_x : ∀ large, ∀ d < 16, digitChar large d ≠ 120 := by decide

theorem digitChar_eq_zero : ∀ large, ∀ d < 16, digitChar large d = 48 → d = 0 := by decide

/-- The value of digits with the first one in front, on top of `r`. -/
def valueFrom (base r : ℕ) (ds : List ℕ) : ℕ := ds.foldl (fun r d => r * base + d) r

theorem valueFrom_reverse (base : ℕ) (ds : List ℕ) :
    valueFrom base 0 ds.reverse = Nat.ofDigits base ds := by
  rw [valueFrom, List.foldl_reverse, Nat.ofDigits_eq_foldr]
  simp only [Nat.cast_id]
  congr 1
  funext d r
  ring

theorem valueFrom_zeros (base n : ℕ) (ds : List ℕ) :
    valueFrom base 0 (List.replicate n 0 ++ ds) = valueFrom base 0 ds := by
  induction n with
  | zero => rfl
  | succ n ih =>
    rw [List.replicate_succ, List.cons_append, ← ih]
    simp [valueFrom]

/-- The text does not go on with a digit of this base. -/
def Stops (base : ℕ) (rest : List Byte) : Prop :=
  ∀ c ∈ rest.head?, ¬ (isXDigit c ∧ digitValue c < base)

theorem strtoulLoop_stops {base : ℕ} {rest : List Byte} (h : Stops base rest) (r : ℕ) :
    strtoulLoop base rest r = (r, rest) := by
  cases rest with
  | nil => rfl
  | cons c cp => exact if_neg (h c rfl)

theorem strtoulLoop_digits {base : ℕ} (hbase : base ≤ 16) (large : Bool) {ds : List ℕ}
    (hds : ∀ d ∈ ds, d < base) (rest : List Byte) {r : ℕ} (hr : r < 2 ^ 32) :
    strtoulLoop base (ds.map (digitChar large) ++ rest) r =
      strtoulLoop base rest (valueFrom base r ds % 2 ^ 32) := by
  induction ds generalizing r with
  | nil => rw [valueFrom, List.foldl_nil, Nat.mod_eq_of_lt hr, List.map_nil, List.nil_append]
  | cons d ds ih =>
    have hd : d < base := hds d List.mem_cons_self
    obtain ⟨hx, hval⟩ := isXDigit_digitChar large d (by omega)
    have hmod : valueFrom base ((r * base + d) % 2 ^ 32) ds % 2 ^ 32 =
        valueFrom base (r * base + d) ds % 2 ^ 32 := by
      have hgen : ∀ (ds : List ℕ) (a b : ℕ), a % 2 ^ 32 = b % 2 ^ 32 →
          valueFrom base a ds % 2 ^ 32 = valueFrom base b ds % 2 ^ 32 := by
        intro ds
        induction ds with
        | nil => exact fun a b h => h
        | cons e ds ih =>
          intro a b h
          exact ih _ _ (Nat.ModEq.add_right e (Nat.ModEq.mul_right base h))
      exact hgen ds _ _ (Nat.mod_mod _ _)
    have hgo : isXDigit (digitChar large d) = true ∧ digitValue (digitChar large d) < base := by
      rw [hval]
      exact ⟨hx, hd⟩
    rw [List.map_cons, List.cons_append, strtoulLoop, if_pos hgo, hval,
      ih (fun e he => hds e (List.mem_cons_of_mem _ he)) (Nat.mod_lt _ (by norm_num)), hmod]
    rfl

/-- Digits are read up to where they stop. -/
theorem simpleStrtoul_digits {base : ℕ} (h0 : 0 < base) (hbase : base ≤ 16) (large : Bool)
    {ds : List ℕ} (hne : ds ≠ []) (hds : ∀ d ∈ ds, d < base) {rest : List Byte}
    (hstop : Stops base rest) (hx : rest.head? ≠ some 120) :
    simpleStrtoul (ds.map (digitChar large) ++ rest) base =
      (valueFrom base 0 ds % 2 ^ 32, rest) := by
  obtain ⟨d, ds', rfl⟩ := List.exists_cons_of_ne_nil hne
  have hd : d < 16 := (hds d List.mem_cons_self).trans_le hbase
  have hds' : ∀ e ∈ ds', e < base := fun e he => hds e (List.mem_cons_of_mem _ he)
  have hread : strtoulLoop base ((d :: ds').map (digitChar large) ++ rest) 0 =
      (valueFrom base 0 (d :: ds') % 2 ^ 32, rest) := by
    rw [strtoulLoop_digits hbase large hds rest (by norm_num), strtoulLoop_stops hstop]
  unfold simpleStrtoul
  by_cases hz : digitChar large d = 48
  · -- the zero is skipped, and no `x` follows it
    have hd0 : d = 0 := digitChar_eq_zero large d hd hz
    have hnox : (ds'.map (digitChar large) ++ rest).head? ≠ some 120 := by
      cases ds' with
      | nil => exact hx
      | cons e ds' =>
        intro h
        exact digitChar_ne_x large e ((hds' e List.mem_cons_self).trans_le hbase)
          (Option.some.inj h)
    have hskip : strtoulLoop base (ds'.map (digitChar large) ++ rest) 0 =
        (valueFrom base 0 (d :: ds') % 2 ^ 32, rest) := by
      rw [strtoulLoop_digits hbase large hds' rest (by norm_num), strtoulLoop_stops hstop, hd0]
      simp [valueFrom]
    rw [List.map_cons, List.cons_append, hz, List.head?_cons, if_pos rfl, List.tail_cons,
      strtoulZero, if_neg (fun h => hnox h.1), if_neg (by omega)]
    exact (congrArg (fun b => strtoulLoop b _ 0) (if_neg (by omega))).trans hskip
  · rw [if_neg (by
      rw [List.map_cons, List.cons_append, List.head?_cons]
      exact fun h => hz (Option.some.inj h))]
    exact (congrArg (fun b => strtoulLoop b _ 0) (if_neg (by omega))).trans hread

/-- Behind `0x` the digits are hexadecimal, whatever base is asked for. -/
theorem simpleStrtoul_hex (base : ℕ) (large : Bool) {ds : List ℕ} (hne : ds ≠ [])
    (hds : ∀ d ∈ ds, d < 16) {rest : List Byte} (hstop : Stops 16 rest) :
    simpleStrtoul (48 :: 120 :: ds.map (digitChar large) ++ rest) base =
      (valueFrom 16 0 ds % 2 ^ 32, rest) := by
  obtain ⟨d, ds', rfl⟩ := List.exists_cons_of_ne_nil hne
  have hx := (isXDigit_digitChar large d (hds d List.mem_cons_self)).1
  unfold simpleStrtoul
  rw [List.cons_append, List.head?_cons, if_pos rfl, List.tail_cons, strtoulZero,
    if_pos ⟨rfl, by simpa using hx⟩]
  show strtoulLoop 16 ((d :: ds').map (digitChar large) ++ rest) 0 = _
  rw [strtoulLoop_digits le_rfl large hds rest (by norm_num), strtoulLoop_stops hstop]

/-! ## Numbers read back -/

/-- The digits of a number, the first one in front. -/
def numDigits (base num : ℕ) : List ℕ := if num = 0 then [0] else (Nat.digits base num).reverse

theorem numDigits_ne_nil {base num : ℕ} : numDigits base num ≠ [] := by
  unfold numDigits
  split_ifs with h
  · exact List.cons_ne_nil _ _
  · rw [Ne, List.reverse_eq_nil_iff]
    exact Nat.digits_ne_nil_iff_ne_zero.mpr h

theorem lt_of_mem_numDigits {base num d : ℕ} (hbase : 1 < base) (hd : d ∈ numDigits base num) :
    d < base := by
  unfold numDigits at hd
  split_ifs at hd with h
  · rw [List.mem_singleton.mp hd]
    omega
  · exact Nat.digits_lt_base hbase (List.mem_reverse.mp hd)

theorem valueFrom_numDigits (base num : ℕ) : valueFrom base 0 (numDigits base num) = num := by
  unfold numDigits
  split_ifs with h
  · simp [valueFrom, h]
  · rw [valueFrom_reverse, Nat.ofDigits_digits]

theorem tmpDigits_reverse (large : Bool) (base num : ℕ) :
    (tmpDigits large base num).reverse = (numDigits base num).map (digitChar large) := by
  unfold tmpDigits numDigits
  split_ifs
  · cases large <;> rfl
  · rw [List.map_reverse]

theorem map_zeros (large : Bool) (n : ℕ) (ds : List ℕ) :
    (List.replicate n 0 ++ ds).map (digitChar large) =
      List.replicate n 48 ++ ds.map (digitChar large) := by
  rw [List.map_append, List.map_replicate]
  cases large <;> rfl

/-- What `number` prints the digits of. -/
def magnitude (num : ℤ) (f : Flags) : ℕ := toU32 (if f.sign ∧ num < 0 then -num else num)

/-- The parts of a printed number: blanks, its sign, its prefix, its digits behind zeros, and
    blanks again. -/
theorem number_eq (num : ℤ) (base : ℕ) (size precision : ℤ) (f : Flags) :
    ∃ p k q, number num base size precision f =
      List.replicate p 32 ++ (signChar num f ++ (specialPrefix base f
        ++ ((List.replicate k 0 ++ numDigits base (magnitude num f)).map (digitChar f.large)
          ++ List.replicate q 32))) := by
  unfold number magnitude
  dsimp only
  rw [tmpDigits_reverse]
  generalize toU32 (if f.sign ∧ num < 0 then -num else num) = u
  generalize (size - (signChar num f).length - (specialPrefix base f).length -
    max precision (tmpDigits f.large base u).length).toNat = pad
  generalize (max precision (tmpDigits f.large base u).length -
    ((tmpDigits f.large base u).length : ℤ)).toNat = k
  cases hleft : f.left with
  | true =>
    refine ⟨0, k, pad, ?_⟩
    rw [map_zeros]
    simp
  | false =>
    cases hzero : f.zeropad with
    | true =>
      refine ⟨0, pad + k, 0, ?_⟩
      rw [map_zeros, List.replicate_add]
      simp
    | false =>
      refine ⟨pad, k, 0, ?_⟩
      rw [map_zeros]
      simp

theorem stops_blanks (base q : ℕ) : Stops base (List.replicate q 32) := by
  intro c hc
  have h32 : c = 32 := by
    cases q with
    | zero => cases hc
    | succ q => exact (Option.mem_some_iff.mp hc).symm
  rw [h32]
  exact fun h => Bool.false_ne_true h.1

theorem head?_blanks_ne (q : ℕ) {c : Byte} (hc : c ≠ 32) : (List.replicate q 32).head? ≠ some c := by
  cases q with
  | zero => exact (Option.some_ne_none c).symm
  | succ q => exact fun h => hc (Option.some.inj h).symm

/-- A text that begins with no blank has none in front. -/
theorem eq_of_head?_ne {p : ℕ} {text : List Byte}
    (h : (List.replicate p 32 ++ text).head? ≠ some 32) : List.replicate p 32 ++ text = text := by
  cases p with
  | zero => rfl
  | succ p => exact (h rfl).elim

section ReadBack

variable {num : ℤ} {base : ℕ} {size precision : ℤ} {f : Flags}

/-- The digits of a printed number, and the blanks behind them, are read as the number. -/
theorem simpleStrtoul_numDigits (hbase : base = 8 ∨ base = 10 ∨ base = 16) (large : Bool)
    (k q : ℕ) {u : ℕ} (hu : u < 2 ^ 32) :
    (simpleStrtoul ((List.replicate k 0 ++ numDigits base u).map (digitChar large) ++
      List.replicate q 32) base).1 = u := by
  rw [simpleStrtoul_digits (by omega) (by omega) large
    (List.append_ne_nil_of_right_ne_nil _ numDigits_ne_nil) ?_ (stops_blanks _ _)
    (head?_blanks_ne q (by decide)), valueFrom_zeros, valueFrom_numDigits, Nat.mod_eq_of_lt hu]
  intro d hd
  rcases List.mem_append.mp hd with hd | hd
  · rw [List.eq_of_mem_replicate hd]
    omega
  · exact lt_of_mem_numDigits (by omega) hd

theorem toU32_lt (z : ℤ) : toU32 z < 2 ^ 32 := by
  unfold toU32
  omega

/-- An unsigned number that is printed without blanks in front is read back in its base; `0X`
    is the prefix that is not understood. -/
theorem simpleStrtoul_number (hbase : base = 8 ∨ base = 10 ∨ base = 16) (hsign : f.sign = false)
    (hhead : f.special = true → base = 16 → f.large = false)
    (hfront : (number num base size precision f).head? ≠ some 32) :
    (simpleStrtoul (number num base size precision f) base).1 = toU32 num := by
  obtain ⟨p, k, q, htext⟩ := number_eq num base size precision f
  rw [htext] at hfront ⊢
  have hmag : magnitude num f = toU32 num := by
    unfold magnitude
    rw [if_neg (fun h => Bool.false_ne_true (hsign.symm.trans h.1))]
  have hnosign : signChar num f = [] := by
    unfold signChar
    rw [hsign]
    rfl
  rw [eq_of_head?_ne hfront, hmag, hnosign, List.nil_append]
  unfold specialPrefix
  cases hspecial : f.special with
  | false => exact simpleStrtoul_numDigits hbase f.large k q (toU32_lt num)
  | true =>
    rw [if_neg (by decide)]
    rcases hbase with rfl | rfl | rfl
    · -- the zero of an octal number is one more leading zero
      have hzero : ([48] : List Byte) ++ ((List.replicate k 0 ++ numDigits 8 (toU32 num)).map
          (digitChar f.large) ++ List.replicate q 32) =
          (List.replicate (k + 1) 0 ++ numDigits 8 (toU32 num)).map (digitChar f.large) ++
            List.replicate q 32 := by
        rw [map_zeros, map_zeros, List.replicate_succ]
        simp only [List.cons_append, List.nil_append, List.append_assoc]
      rw [if_pos rfl, hzero]
      exact simpleStrtoul_numDigits (Or.inl rfl) f.large (k + 1) q (toU32_lt num)
    · exact simpleStrtoul_numDigits (Or.inr (Or.inl rfl)) f.large k q (toU32_lt num)
    · have hlarge := hhead hspecial rfl
      have hx : digitChar f.large 33 = 120 := by
        rw [hlarge]
        decide
      rw [if_neg (by decide), if_pos rfl, hx]
      show (simpleStrtoul (48 :: 120 :: (List.replicate k 0 ++ numDigits 16 (toU32 num)).map
        (digitChar f.large) ++ List.replicate q 32) 16).1 = _
      rw [simpleStrtoul_hex 16 f.large
        (List.append_ne_nil_of_right_ne_nil _ numDigits_ne_nil) ?_ (stops_blanks _ _),
        valueFrom_zeros, valueFrom_numDigits, Nat.mod_eq_of_lt (toU32_lt num)]
      intro d hd
      rcases List.mem_append.mp hd with hd | hd
      · rw [List.eq_of_mem_replicate hd]
        omega
      · exact lt_of_mem_numDigits (by omega) hd

theorem simpleStrtoul_number_small :
    (simpleStrtoul (number 255 16 (-1) 4 { special := true }) 16).1 = toU32 255 :=
  simpleStrtoul_number (by decide) rfl (fun _ _ => rfl) (by decide)

/-- A signed number that is printed with a minus sign only is read back. -/
theorem simpleStrtol_number (hnum : -(2 ^ 31) ≤ num ∧ num < 2 ^ 31) (hsign : f.sign = true)
    (hplus : f.plus = false) (hspace : f.space = false)
    (hfront : (number num 10 size precision f).head? ≠ some 32) :
    (simpleStrtol (number num 10 size precision f) 10).1 = num := by
  obtain ⟨p, k, q, htext⟩ := number_eq num 10 size precision f
  rw [htext] at hfront ⊢
  have hnopre : specialPrefix 10 f = [] := by
    unfold specialPrefix
    rw [if_neg (show (10 : ℕ) ≠ 8 by decide), if_neg (show (10 : ℕ) ≠ 16 by decide)]
    split_ifs <;> rfl
  rw [eq_of_head?_ne hfront, hnopre, List.nil_append]
  by_cases hneg : num < 0
  · have hminus : signChar num f = [45] := by
      unfold signChar
      rw [if_neg (not_not.mpr hsign), if_pos hneg]
    have hmag : magnitude num f = num.natAbs := by
      unfold magnitude toU32
      rw [if_pos ⟨hsign, hneg⟩]
      omega
    rw [hminus, hmag, List.singleton_append, simpleStrtol_minus,
      simpleStrtoul_numDigits (Or.inr (Or.inl rfl)) f.large k q (by omega),
      int32_of_range (by omega) (by omega)]
    omega
  · have hnone : signChar num f = [] := by
      unfold signChar
      rw [if_neg (not_not.mpr hsign), if_neg hneg, hplus, hspace]
      rfl
    have hmag : magnitude num f = num.natAbs := by
      unfold magnitude toU32
      rw [if_neg (fun h => hneg h.2)]
      omega
    rw [hnone, hmag, List.nil_append, simpleStrtol_of_ne ?_]
    · rw [simpleStrtoul_numDigits (Or.inr (Or.inl rfl)) f.large k q (by omega),
        int32_of_range (by omega) (by omega)]
      omega
    · have hdigit : ∀ large, ∀ d < 10, digitChar large d ≠ 45 := by decide
      obtain ⟨d, ds, hds⟩ := List.exists_cons_of_ne_nil
        (List.append_ne_nil_of_right_ne_nil (List.replicate k 0)
          (@numDigits_ne_nil 10 num.natAbs))
      have hd : d < 10 := by
        have hmem : d ∈ List.replicate k 0 ++ numDigits 10 num.natAbs := by
          rw [hds]
          exact List.mem_cons_self
        rcases List.mem_append.mp hmem with hmem | hmem
        · rw [List.eq_of_mem_replicate hmem]
          omega
        · exact lt_of_mem_numDigits (by omega) hmem
      rw [hds]
      exact fun h => hdigit f.large d hd (Option.some.inj h)

theorem simpleStrtol_number_small :
    (simpleStrtol (number (-42) 10 6 (-1) { sign := true, zeropad := true }) 10).1 = -42 :=
  simpleStrtol_number (by decide) rfl rfl rfl (by decide)

end ReadBack

end SmartQ.UBoot
