import SmartQ.UBoot.Environment

/-!
# The environment over a restart

Model of `env_init`, `env_relocate` and `saveenv` (`u-boot/common/env_flash.c`,
`env_common.c`) with one copy of the environment in the flash, and of `getenv_r`
(`cmd_nvedit.c`), which reads a variable while the environment is still there.

* `defaultEnvironment_represents`: the environment a board without a saved one starts with.
* `setenvs_saved`: what requests have set and a save has written is there again after a restart,
  unless one of them has lost a variable for want of room; a save that fails returns 1.
* `getenvR_iff`: when `getenv_r` stays in its buffer, and when it ends the string.
-/

namespace SmartQ.UBoot

open SmartQ.Lib

/-! ## Model -/

/-- `default_environment` for `CONFIG_BOOT_NOR`: the variables of a board whose flash holds
    none. -/
def defaultEnvironment : List Byte := pack [
  ascii "bootcmd=onenand read c0008000 40000 1c0000;bootm c0008000",
  ascii "bootdelay=3",
  ascii "baudrate=115200",
  ascii "ethaddr=00:40:5c:26:0a:5b",
  ascii "ipaddr=192.168.0.20",
  ascii "serverip=192.168.0.10",
  ascii "gatewayip=192.168.0.1",
  ascii "netmask=255.255.255.0"] ++ [0, 0]

/-- The variables in it. -/
def defaultVars : Vars := [
  (ascii "bootcmd", ascii "onenand read c0008000 40000 1c0000;bootm c0008000"),
  (ascii "bootdelay", ascii "3"),
  (ascii "baudrate", ascii "115200"),
  (ascii "ethaddr", ascii "00:40:5c:26:0a:5b"),
  (ascii "ipaddr", ascii "192.168.0.20"),
  (ascii "serverip", ascii "192.168.0.10"),
  (ascii "gatewayip", ascii "192.168.0.1"),
  (ascii "netmask", ascii "255.255.255.0")]

/-- An environment in the flash: the checksum and the data it was made of. -/
structure Saved where
  crc : ℕ
  data : List Byte

/-- The driver of the flash: the result of `flash_sect_protect`, and those of
    `flash_sect_erase` and `flash_write` with what the sector holds afterwards. A write that
    returns `ERR_OK` has written what it was given. -/
structure FlashDriver where
  unprotect : ℤ
  erase : Saved → ℤ × Saved
  write : Saved → Saved → ℤ × Saved
  written : ∀ env flash, (write env flash).1 = 0 → (write env flash).2 = env

/-- `saveenv` (lines 283–349): its value and the environment in the flash. The result of the
    new protection at the end is ignored. -/
def saveenv (d : FlashDriver) (e : Env) (flash : Saved) : ℤ × Saved :=
  if d.unprotect ≠ 0 then (1, flash)
  else
    let (ret, flash) := d.erase flash
    if ret ≠ 0 then (1, flash)
    else
      let (rc, flash) := d.write ⟨e.crc, e.data⟩ flash
      (if rc ≠ 0 then 1 else 0, flash)

/-- `env_init` and `env_relocate`: the environment a restart finds. -/
def envRelocate (flash : Saved) (g : Globals) : Env :=
  if crc32 flash.data = flash.crc then ⟨flash.data, flash.crc, g⟩
  else
    let data := defaultEnvironment ++ List.replicate (envSize - defaultEnvironment.length) 0
    ⟨data, crc32 data, g⟩

/-- The loop of `getenv_r` from `val` on: the last `n`, and the bytes that are stored. -/
def getenvRLoop (len : ℕ) : List Byte → ℕ → ℕ × List Byte
  | [], n => (n + 1, [])
  | c :: val, n =>
    if n < len then
      if c ≠ 0 then
        let (m, bs) := getenvRLoop len val (n + 1)
        (m, c :: bs)
      else (n + 1, [c])
    else (n + 1, [])

/-- `getenv_r` (lines 604–630): its value, and the bytes stored from `buf` on. -/
def getenvR (data name : List Byte) (len : ℕ) : Option (ℤ × List Byte) :=
  (findVar data name data.length 0).map fun r =>
    match r with
    | none => (-1, [])
    | some r =>
      let (n, bs) := getenvRLoop len (data.drop r.val) 0
      (n, if len = n then bs ++ [0] else bs)

/-! ## The start -/

theorem holds_defaultEnvironment (junk : List Byte) :
    Holds (defaultEnvironment ++ junk) (defaultVars.map varEntry) := by
  have hpack : pack (defaultVars.map varEntry) ++ packEnd (defaultVars.map varEntry) ++ [0] =
      defaultEnvironment := by decide +kernel
  constructor
  · have hall : ∀ s ∈ defaultVars.map varEntry, s ≠ [] ∧ 0 ∉ s := by decide
    exact hall
  · rw [← hpack, List.append_assoc]
    exact List.prefix_append _ _

/-- A board without a saved environment starts with the variables of its configuration. -/
theorem defaultEnvironment_represents (junk : List Byte) :
    Represents (defaultEnvironment ++ junk) defaultVars := by
  constructor
  · exact holds_defaultEnvironment junk
  · decide
  · have hall : ∀ x ∈ defaultVars, 0 ∉ x.1 ∧ 61 ∉ x.1 := by decide
    exact hall
  · decide

/-! ## Requests and a restart -/

section Saved

variable {m : Machine} {e : Env} {vars : Vars}

/-- Some request loses the old value of its variable because the new one does not fit. -/
def Vars.Loses (m : Machine) (size : ℕ) : Vars → List Request → Prop
  | _, [] => False
  | vars, r :: rs =>
    (vars.lookup r.name).isSome ∧ vars.Overflows m size r ∨
      Vars.Loses m size (vars.request m size r).2 rs

/-- The checksum stays that of the block as long as no variable is lost. -/
theorem setenvs_crc (h : Represents e.data vars) (hcrc : e.crc = crc32 e.data)
    {rs : List Request} (hrs : ∀ r ∈ rs, r.Strings) (hkept : ¬ vars.Loses m e.data.length rs) :
    ∃ rets e', doSetenvs m e rs = some (rets, e') ∧ e'.crc = crc32 e'.data := by
  induction rs generalizing e vars with
  | nil => exact ⟨[], e, rfl, hcrc⟩
  | cons r rs ih =>
    obtain ⟨hstep, hrest⟩ := not_or.mp hkept
    obtain ⟨e1, hrun, hrep, hlen, hkeep⟩ :=
      setenv_represents (m := m) h (hrs r List.mem_cons_self)
    obtain ⟨rets, e2, hruns, hcrc2⟩ := ih hrep (hkeep hcrc hstep)
      (fun q hq => hrs q (List.mem_cons_of_mem _ hq)) (by rwa [hlen])
    refine ⟨(vars.request m e.data.length r).1 :: rets, e2, ?_, hcrc2⟩
    rw [doSetenvs, hrun]
    show (doSetenvs m e1 rs >>= fun x => pure (_ :: x.1, x.2)) = _
    rw [hruns]
    rfl

/-- A save returns 0 exactly if all three steps succeed, and 1 otherwise. -/
theorem saveenv_result (d : FlashDriver) (e : Env) (flash : Saved) :
    saveenv d e flash = (0, ⟨e.crc, e.data⟩) ∨ (saveenv d e flash).1 = 1 := by
  unfold saveenv
  by_cases hprotect : d.unprotect ≠ 0
  · rw [if_pos hprotect]
    exact .inr rfl
  · rw [if_neg hprotect]
    dsimp only
    by_cases herase : (d.erase flash).1 ≠ 0
    · rw [if_pos herase]
      exact .inr rfl
    · rw [if_neg herase]
      by_cases hwrite : (d.write ⟨e.crc, e.data⟩ (d.erase flash).2).1 ≠ 0
      · rw [if_pos hwrite]
        exact .inr rfl
      · rw [if_neg hwrite, d.written _ _ (not_not.mp hwrite)]
        exact .inl rfl

/-- An environment with its checksum is found again after a restart. -/
theorem envRelocate_valid {flash : Saved} (hcrc : flash.crc = crc32 flash.data) (g : Globals) :
    (envRelocate flash g).data = flash.data := by
  unfold envRelocate
  rw [if_pos hcrc.symm]

/-- Without one a restart finds the default variables. -/
theorem envRelocate_invalid {flash : Saved} (hcrc : flash.crc ≠ crc32 flash.data) (g : Globals) :
    Represents (envRelocate flash g).data defaultVars := by
  unfold envRelocate
  rw [if_neg (Ne.symm hcrc)]
  exact defaultEnvironment_represents _

/-- What requests have set and a save has written is there again after a restart, unless one of
    the requests has lost a variable for want of room: the function then returns without a new
    checksum. A save that fails says so, and if no right checksum is left in the flash, the
    default variables are found. -/
theorem setenvs_saved (h : Represents e.data vars) (hcrc : e.crc = crc32 e.data)
    (rs : List Request) (hrs : ∀ r ∈ rs, r.Strings) (hkept : ¬ vars.Loses m e.data.length rs)
    (d : FlashDriver) (flash : Saved) (g : Globals) :
    ∃ rets e', doSetenvs m e rs = some (rets, e') ∧
      ((saveenv d e' flash).1 = 0 → ∀ name, IsName name →
        getenv (envRelocate (saveenv d e' flash).2 g).data name =
          some ((vars.requests m e.data.length rs).2.lookup name)) ∧
      ((saveenv d e' flash).1 ≠ 0 → (saveenv d e' flash).1 = 1 ∧
        ((saveenv d e' flash).2.crc ≠ crc32 (saveenv d e' flash).2.data → ∀ name, IsName name →
          getenv (envRelocate (saveenv d e' flash).2 g).data name =
            some (defaultVars.lookup name))) := by
  obtain ⟨e', hrun, hrep⟩ := setenvs_represents m h hrs
  obtain ⟨rets, e'', hrun', hcrc'⟩ := setenvs_crc h hcrc hrs hkept
  obtain ⟨-, rfl⟩ := Prod.mk.inj (Option.some.inj (hrun.symm.trans hrun'))
  refine ⟨_, e', hrun, fun hok name hname => ?_, fun hfail => ⟨?_, fun hbad name hname => ?_⟩⟩
  · rcases saveenv_result d e' flash with hsaved | hone
    · rw [hsaved, envRelocate_valid hcrc' g]
      exact getenv_eq hrep hname
    · exact absurd (hok.symm.trans hone) (by decide)
  · rcases saveenv_result d e' flash with hsaved | hone
    · exact absurd (congrArg Prod.fst hsaved) hfail
    · exact hone
  · exact getenv_eq (envRelocate_invalid hbad g) hname

end Saved

/-- A driver whose flash works: it erases to nothing, and keeps what is written. -/
def soundFlash : FlashDriver where
  unprotect := 0
  erase _ := (0, ⟨2 ^ 32 - 1, []⟩)
  write env _ := (0, env)
  written _ _ _ := rfl

theorem setenvs_saved_small : ∃ rets e', doSetenvs plainMachine smallEnv smallRequests =
      some (rets, e') ∧
    getenv (envRelocate (saveenv soundFlash e' ⟨0, []⟩).2 smallEnv.globals).data (ascii "a") =
      some (some (ascii "2")) := by
  have hkept : ¬ Vars.Loses plainMachine smallEnv.data.length smallVars smallRequests := by
    rintro (⟨-, -, -, val, vals, hvals, hfull⟩ | ⟨hthere, -⟩ | h)
    · obtain ⟨rfl, rfl⟩ := List.cons.inj hvals
      exact hfull (by decide)
    · exact absurd hthere (by decide)
    · exact h
  obtain ⟨rets, e', hrun, hget, -⟩ := setenvs_saved smallEnv_represents (by decide +kernel)
    smallRequests smallRequests_strings hkept soundFlash ⟨0, []⟩ smallEnv.globals
  exact ⟨rets, e', hrun, hget rfl (ascii "a") ⟨by decide, by decide⟩⟩

/-! ## Reading into a buffer -/

theorem getenvRLoop_eq (len : ℕ) {val : List Byte} (hval : 0 ∉ val) (rest : List Byte) (n : ℕ) :
    getenvRLoop len (val ++ 0 :: rest) n =
      if n + val.length < len then (n + val.length + 1, val ++ [0])
      else (max n len + 1, val.take (len - n)) := by
  induction val generalizing n with
  | nil =>
    rw [List.nil_append, getenvRLoop]
    by_cases hn : n < len
    · rw [if_pos hn, if_neg (fun h => h rfl), if_pos (by simpa using hn)]
      rfl
    · rw [if_neg hn, if_neg (by simpa using hn), max_eq_left (by omega), List.take_nil]
  | cons c val ih =>
    have hc : c ≠ 0 := fun hc => hval (hc ▸ List.mem_cons_self)
    rw [List.cons_append, getenvRLoop]
    by_cases hn : n < len
    · rw [if_pos hn, if_pos hc, ih (fun hmem => hval (List.mem_cons_of_mem _ hmem)),
        List.length_cons]
      have htake : len - n = len - (n + 1) + 1 := by omega
      by_cases hroom : n + 1 + val.length < len
      · rw [if_pos hroom, if_pos (by omega)]
        simp only [List.cons_append, Prod.mk.injEq, and_true]
        omega
      · rw [if_neg hroom, if_neg (by omega), htake, List.take_succ_cons]
        simp only [Prod.mk.injEq, and_true]
        omega
    · rw [if_neg hn, if_neg (by rw [List.length_cons]; omega), max_eq_left (by omega),
        Nat.sub_eq_zero_of_le (by omega), List.take_zero]

/-- A variable read into `len` bytes: its start is stored; a byte behind the buffer is stored
    exactly if the string with its terminator fills the buffer, and the string is ended
    exactly if it is shorter than the buffer. -/
theorem getenvR_iff {data name val : List Byte} {vars : Vars} (h : Represents data vars)
    (hname : IsName name) (hval : vars.lookup name = some val) (len : ℕ) :
    ∃ n bs, getenvR data name len = some (n, bs) ∧
      bs.take val.length = val.take len ∧
      (bs.length ≤ len ↔ val.length + 1 ≠ len) ∧
      (0 ∈ bs.take len ↔ val.length < len) := by
  rcases findVar_eq h hname with ⟨hnone, -⟩ | ⟨xs, v, ys, rfl, hv, hfind⟩
  · rw [hval] at hnone
    cases hnone
  obtain rfl : v = val := Option.some.inj (hv.symm.trans hval)
  obtain ⟨-, junk, hdata⟩ := h.holds
  have hv0 : 0 ∉ v := h.values (name, v) (by simp)
  obtain ⟨rest, hrest⟩ : ∃ rest, data.drop
      ((pack (xs.map varEntry)).length + (name.length + 1)) = v ++ 0 :: rest := by
    refine ⟨pack (ys.map varEntry) ++ (packEnd ((xs ++ (name, v) :: ys).map varEntry) ++ junk), ?_⟩
    have hsplit : data = (pack (xs.map varEntry) ++ (name ++ [61])) ++ (v ++ 0 ::
        (pack (ys.map varEntry) ++ (packEnd ((xs ++ (name, v) :: ys).map varEntry) ++ junk))) := by
      rw [← hdata]
      simp [varEntry]
    rw [show (pack (xs.map varEntry)).length + (name.length + 1) =
      (pack (xs.map varEntry) ++ (name ++ [61])).length by simp, hsplit, List.drop_left]
  unfold getenvR
  rw [hfind]
  simp only [Option.map_some]
  rw [hrest, getenvRLoop_eq len hv0 rest 0]
  by_cases hroom : v.length < len
  · rw [if_pos (by omega)]
    dsimp only
    refine ⟨_, _, rfl, ?_, ?_, ?_⟩
    · rw [List.take_of_length_le (show v.length ≤ len by omega)]
      split_ifs
      · rw [List.append_assoc, List.take_left]
      · rw [List.take_left]
    · split_ifs with hfull
      · simp only [List.length_append, List.length_singleton]
        omega
      · simp only [List.length_append, List.length_singleton]
        omega
    · refine ⟨fun _ => hroom, fun _ => ?_⟩
      have hmem : (0 : Byte) ∈ (v ++ [0]).take len := by
        rw [List.take_of_length_le (by rw [List.length_append, List.length_singleton]; omega)]
        exact List.mem_append_right _ List.mem_cons_self
      split_ifs with hfull
      · rw [List.take_append_of_le_length (by
          rw [List.length_append, List.length_singleton]
          omega)]
        exact hmem
      · exact hmem
  · rw [if_neg (by omega), if_neg (by omega)]
    dsimp only
    refine ⟨_, _, rfl, ?_, ?_, ?_⟩
    · rw [Nat.sub_zero, List.take_take, min_eq_right (by omega)]
    · rw [Nat.sub_zero, List.length_take]
      omega
    · refine ⟨fun hmem => (hv0 ?_).elim, fun hlt => absurd hlt hroom⟩
      exact List.mem_of_mem_take (List.mem_of_mem_take hmem)

theorem getenvR_iff_small : ∃ n bs, getenvR smallEnv.data (ascii "a") 2 = some (n, bs) ∧
    ¬ bs.length ≤ 2 ∧ 0 ∈ bs.take 2 := by
  obtain ⟨n, bs, hrun, -, hinside, hended⟩ := @getenvR_iff smallEnv.data (ascii "a")
    (ascii "1") smallVars smallEnv_represents ⟨by decide, by decide⟩ (by decide) 2
  exact ⟨n, bs, hrun, fun h => hinside.mp h (by decide), hended.mpr (by decide)⟩

end SmartQ.UBoot
