import Mathlib.Data.Fintype.Basic
import Mathlib.Tactic
import SmartQ.Lib.Runs

/-!
# The GPIO setters

Model of `gpio_direction_set`, `gpio_set_value` and `gpio_get_value` in
`u-boot/board/samsung/smdk6410/misc.c` (lines 38–132); the first two are the same in
`qi-usb-lcd/src/cpu/s3c6410/smartq.c`. The data offset is read from the table at the number of
the pin in its group, not at the group.

* `field_run`: the parts of the pins behind any calls.
* `exact_iff`: the setters are exact and independent if and only if the code finds the registers
  of every pin they are called on.
-/

namespace SmartQ.UBoot.Gpio

open SmartQ.Lib

/-! ## Model -/

/-- Data offset of a group. -/
def gdat (i : ℕ) : ℕ := [4, 4, 4, 4, 4, 4, 4, 8, 4, 4, 8, 8, 4, 4, 4, 4, 4].getD i 0

/-- Width of a configuration field. -/
def gcsz (i : ℕ) : ℕ := [4, 4, 4, 4, 4, 2, 4, 4, 2, 2, 4, 4, 4, 2, 2, 2, 2].getD i 0

/-- `gbase`: where the registers of a group begin, behind `GPIO_BASE`. -/
def gbase (i : ℕ) : ℕ :=
  [0x000, 0x020, 0x040, 0x060, 0x080, 0x0A0, 0x0C0, 0x0E0, 0x100, 0x120,
    0x800, 0x810, 0x820, 0x830, 0x140, 0x160, 0x180].getD i 0

/-- The address of the first register, that of group A. -/
def gpioBase : ℕ := 0x7f008000

/-- The registers, by their addresses, each of them a word. -/
abbrev Regs := ℕ → BitVec 32

/-- `regconf`: a group of wide fields has two configuration registers, with eight pins in each. -/
def regconf (gpio : ℕ) : ℕ :=
  gpioBase + gbase (gpio >>> 4) + if gcsz (gpio >>> 4) = 4 ∧ gpio % 16 ≥ 8 then 4 else 0

/-- `mask`: the bits of a configuration field of four bits or of two. -/
def mask (gpio : ℕ) : BitVec 32 := if gcsz (gpio >>> 4) = 4 then 0x0F else 0x03

/-- The place of a field in its configuration register. -/
def confShift (gpio : ℕ) : ℕ :=
  if 4 = gcsz (gpio >>> 4) ∧ gpio % 16 ≥ 8 then gcsz (gpio >>> 4) * (gpio % 16 - 8)
  else gcsz (gpio >>> 4) * (gpio % 16)

/-- `regdat`: the data register stands behind the configuration; the table is asked for the pin,
    not for the group. -/
def regdat (gpio : ℕ) : ℕ :=
  gpioBase + gbase (gpio >>> 4) + gdat (gpio % 16) + if 4 = gcsz (gpio >>> 4) then 4 else 0

/-- `gpio_direction_set`: the two configuration bits of the pin are set, and its pull-up
    switched off. -/
def gpioDirectionSet (gpio : ℕ) (out : Bool) (regs : Regs) : Regs :=
  let val := regs (regconf gpio) &&& ~~~(mask gpio <<< confShift gpio)
  let val := if out then val ||| 1#32 <<< confShift gpio else val
  let regs := Function.update regs (regconf gpio) val
  let regpud := regdat gpio + 4
  Function.update regs regpud (regs regpud &&& ~~~(0x3#32 <<< (gpio % 16 * 2)))

/-- `gpio_set_value`: the bit of the pin in the data register of its group. -/
def gpioSetValue (gpio : ℕ) (dat : BitVec 32) (regs : Regs) : Regs :=
  let val := regs (regdat gpio)
  Function.update regs (regdat gpio)
    (if dat ≠ 0 then val ||| 1#32 <<< (gpio % 16) else val &&& ~~~(1#32 <<< (gpio % 16)))

/-- `gpio_get_value`: the bit of the pin in the data register of its group, as 0 or 1. -/
def gpioGetValue (gpio : ℕ) (regs : Regs) : ℕ :=
  if regs (regdat gpio) &&& 1#32 <<< (gpio % 16) ≠ 0 then 1 else 0

/-- `gpio_direction_input`: the field of the pin is cleared. -/
def gpioDirectionInput (gpio : ℕ) (regs : Regs) : Regs := gpioDirectionSet gpio false regs

/-- `gpio_direction_output`: the field of the pin is set to 1, then the value is put out. -/
def gpioDirectionOutput (gpio : ℕ) (dat : BitVec 32) (regs : Regs) : Regs :=
  gpioSetValue gpio dat (gpioDirectionSet gpio true regs)

/-! ## The layout -/

/-- A pin: its configuration field is in front of the data register of its group. -/
structure Pin where
  group : Fin 17
  sub : ℕ
  lt : gcsz group * sub < 8 * gdat group
  deriving DecidableEq

namespace Pin

/-- The number of a pin. -/
def gpio (p : Pin) : ℕ := p.group * 16 + p.sub

end Pin

/-- What a pin has in the registers. -/
inductive Part
  | config
  | data
  | pull
  deriving DecidableEq

namespace Pin

variable (p : Pin)

/-- The register of a part. -/
def addr : Part → ℕ
  | .config => gpioBase + gbase p.group + 4 * (gcsz p.group * p.sub / 32)
  | .data => gpioBase + gbase p.group + gdat p.group
  | .pull => gpioBase + gbase p.group + gdat p.group + 4

/-- Its first bit there. -/
def low : Part → ℕ
  | .config => gcsz p.group * p.sub % 32
  | .data => p.sub
  | .pull => 2 * p.sub

/-- The number of bits that a part of a pin has. -/
def width : Part → ℕ
  | .config => gcsz p.group
  | .data => 1
  | .pull => 2

/-- What a part holds. -/
def field (part : Part) (regs : Regs) : BitVec (p.width part) :=
  (regs (p.addr part)).extractLsb' (p.low part) (p.width part)

/-- The pins whose data register the code finds. -/
def Found : Prop :=
  (gcsz p.group = 2 ∨ gdat p.group = 8) ∧ p.sub ≠ 7 ∧ p.sub ≠ 10 ∧ p.sub ≠ 11

instance : Decidable p.Found := inferInstanceAs (Decidable (_ ∧ _))

end Pin

/-- A call of a setter. -/
inductive Call
  | directionOutput (p : Pin) (dat : BitVec 32)
  | directionInput (p : Pin)
  | setValue (p : Pin) (dat : BitVec 32)

namespace Call

/-- The pin that a call is for. -/
def pin : Call → Pin
  | directionOutput p _ => p
  | directionInput p => p
  | setValue p _ => p

/-- The registers behind a call, with the function of the source that it stands for. -/
def run (regs : Regs) : Call → Regs
  | directionOutput p dat => gpioDirectionOutput p.gpio dat regs
  | directionInput p => gpioDirectionInput p.gpio regs
  | setValue p dat => gpioSetValue p.gpio dat regs

/-- What a call sets for its pin: 1 or 0. -/
def sets : Part → Call → Option Bool
  | .config, directionOutput _ _ => some true
  | .config, directionInput _ => some false
  | .config, setValue _ _ => none
  | .data, directionOutput _ dat => some (dat ≠ 0)
  | .data, directionInput _ => none
  | .data, setValue _ dat => some (dat ≠ 0)
  | .pull, directionOutput _ _ => some false
  | .pull, directionInput _ => some false
  | .pull, setValue _ _ => none

/-- What it sets for the pin `p`. -/
def setsFor (p : Pin) (part : Part) (call : Call) : Option Bool :=
  if call.pin = p then call.sets part else none

end Call

/-- A field with one bit. -/
def bitValue (w : ℕ) (v : Bool) : BitVec w := if v then 1 else 0

/-- The calls leave every pin they touch as the last of them sets it, it is read back so, and all
    other pins are as before. -/
structure Exact (regs : Regs) (calls : List Call) : Prop where
  touched : ∀ p ∈ calls.map Call.pin, ∀ part ≠ .pull,
    p.field part (calls.foldl Call.run regs) =
      ((calls.reverse.findSome? (Call.setsFor p part)).map (bitValue _)).getD
        (p.field part regs)
  value : ∀ p ∈ calls.map Call.pin,
    gpioGetValue p.gpio (calls.foldl Call.run regs) =
      (p.field .data (calls.foldl Call.run regs)).toNat
  other : ∀ q, q ∉ calls.map Call.pin → ∀ part,
    q.field part (calls.foldl Call.run regs) = q.field part regs

/-! ## Bits -/

section Bits

/-- A bit of a register. -/
abbrev Place := ℕ × Fin 32

/-- The bit at a place of the registers. -/
def look (regs : Regs) (k : Place) : Bool := (regs k.1).getLsbD k.2

theorem look_update (regs : Regs) (a : ℕ) (v : BitVec 32) (k : Place) :
    look (Function.update regs a v) k = if k.1 = a then v.getLsbD k.2 else look regs k := by
  unfold look
  by_cases h : k.1 = a
  · rw [if_pos h, h, Function.update_self]
  · rw [if_neg h, Function.update_of_ne h]

theorem getLsbD_clear (v : BitVec 32) (w n : ℕ) (i : Fin 32) :
    (v &&& ~~~(BitVec.ofNat 32 (2 ^ w - 1) <<< n)).getLsbD i =
      if n ≤ i ∧ i < n + w then false else v.getLsbD i := by
  have hi := i.isLt
  rw [BitVec.getLsbD_and, BitVec.getLsbD_not, BitVec.getLsbD_shiftLeft, BitVec.getLsbD_ofNat,
    Nat.testBit_two_pow_sub_one]
  by_cases hn : n ≤ i
  · by_cases hw : i < n + w
    · rw [if_pos ⟨hn, hw⟩]
      simp [hi, show ¬ (i : ℕ) < n by omega, show (i : ℕ) - n < w by omega,
        show (i : ℕ) - n < 32 by omega]
    · rw [if_neg (by omega)]
      simp [hi, show ¬ (i : ℕ) - n < w by omega]
  · rw [if_neg (by omega)]
    simp [hi, show (i : ℕ) < n by omega]

theorem getLsbD_set (v : BitVec 32) (n : ℕ) (i : Fin 32) :
    (v ||| 1#32 <<< n).getLsbD i = if i = n then true else v.getLsbD i := by
  have hi := i.isLt
  rw [BitVec.getLsbD_or, BitVec.getLsbD_shiftLeft, BitVec.getLsbD_one]
  by_cases h : (i : ℕ) = n
  · simp [h, show n < 32 by omega]
  · rw [if_neg h]
    by_cases hn : (i : ℕ) < n
    · simp [hn]
    · simp [show ¬ (i : ℕ) - n = 0 by omega]

/-- What a call sets in the registers, at the addresses that the code computes. -/
def Call.effect (k : Place) : Call → Option Bool
  | .directionOutput p dat => (value p dat).or (direction p true)
  | .directionInput p => direction p false
  | .setValue p dat => value p dat
where
  value (p : Pin) (dat : BitVec 32) : Option Bool :=
    if k.1 = regdat p.gpio ∧ k.2 = p.gpio % 16 then some (dat ≠ 0) else none
  direction (p : Pin) (out : Bool) : Option Bool :=
    if k.1 = regdat p.gpio + 4 ∧ p.gpio % 16 * 2 ≤ k.2 ∧ k.2 < p.gpio % 16 * 2 + 2 then
      some false
    else if k.1 = regconf p.gpio ∧ confShift p.gpio ≤ k.2 ∧
        k.2 < confShift p.gpio + gcsz (p.gpio >>> 4) then
      some (out && k.2 = confShift p.gpio)
    else none

theorem gcsz_eq (g : Fin 17) : gcsz g = 2 ∨ gcsz g = 4 := by
  revert g
  decide

namespace Pin

variable (p : Pin)

theorem sub_lt : p.sub < 16 := by
  have hlayout : ∀ g : Fin 17, 8 * gdat g ≤ 16 * gcsz g := by decide
  have hg := hlayout p.group
  have hlt := p.lt
  rcases gcsz_eq p.group with h | h
  · rw [h] at hg hlt
    omega
  · rw [h] at hg hlt
    omega

theorem gpio_div : p.gpio >>> 4 = p.group := by
  have hsub := p.sub_lt
  rw [gpio, Nat.shiftRight_eq_div_pow]
  omega

theorem gpio_mod : p.gpio % 16 = p.sub := by
  have hsub := p.sub_lt
  rw [gpio]
  omega

theorem regconf_eq : regconf p.gpio = p.addr .config := by
  have hsub := p.sub_lt
  rw [regconf, p.gpio_div, p.gpio_mod]
  show _ = gpioBase + gbase p.group + 4 * (gcsz p.group * p.sub / 32)
  rcases gcsz_eq p.group with h | h
  · rw [h, if_neg (by omega)]
    omega
  · rw [h]
    split_ifs with hhigh
    · omega
    · omega

theorem confShift_eq : confShift p.gpio = p.low .config := by
  have hsub := p.sub_lt
  rw [confShift, p.gpio_div, p.gpio_mod]
  show _ = gcsz p.group * p.sub % 32
  rcases gcsz_eq p.group with h | h
  · rw [h, if_neg (by omega)]
    omega
  · rw [h]
    split_ifs with hhigh
    · omega
    · omega

theorem mask_eq : mask p.gpio = BitVec.ofNat 32 (2 ^ gcsz p.group - 1) := by
  rw [mask, p.gpio_div]
  rcases gcsz_eq p.group with h | h
  · rw [h]
    rfl
  · rw [h]
    rfl

end Pin

/-- The address that the code computes. -/
theorem Pin.regdat_eq (p : Pin) : regdat p.gpio =
    gpioBase + gbase p.group + gdat p.sub + if 4 = gcsz p.group then 4 else 0 := by
  rw [regdat, p.gpio_div, p.gpio_mod]

theorem Pin.found_iff (p : Pin) : p.Found ↔ regdat p.gpio = p.addr .data := by
  have htable : ∀ (g : Fin 17) (s : Fin 16),
      ((gcsz g = 2 ∨ gdat g = 8) ∧ (s : ℕ) ≠ 7 ∧ (s : ℕ) ≠ 10 ∧ (s : ℕ) ≠ 11) ↔
        (gdat s + if 4 = gcsz g then 4 else 0) = gdat g := by decide
  have hpin := htable p.group ⟨p.sub, p.sub_lt⟩
  rw [p.regdat_eq, Nat.add_assoc]
  show _ ↔ _ = gpioBase + gbase p.group + gdat p.group
  rw [Nat.add_left_cancel_iff]
  exact hpin

theorem look_clear (regs : Regs) (a w n : ℕ) (k : Place) :
    look (Function.update regs a (regs a &&& ~~~(BitVec.ofNat 32 (2 ^ w - 1) <<< n))) k =
      if k.1 = a ∧ n ≤ k.2 ∧ k.2 < n + w then false else look regs k := by
  rw [look_update]
  by_cases haddr : k.1 = a
  · have hold : look regs k = (regs a).getLsbD k.2 := by
      rw [look, haddr]
    rw [if_pos haddr, getLsbD_clear, hold]
    split_ifs with hin hplace hplace
    · rfl
    · exact absurd ⟨haddr, hin⟩ hplace
    · exact absurd hplace.2 hin
    · rfl
  · rw [if_neg haddr, if_neg fun h => haddr h.1]

theorem look_set (regs : Regs) (a n : ℕ) (v : BitVec 32) (k : Place) :
    look (Function.update regs a (v ||| 1#32 <<< n)) k =
      if k.1 = a ∧ k.2 = n then true else look (Function.update regs a v) k := by
  rw [look_update, look_update, getLsbD_set]
  split_ifs with haddr hbit hplace hplace hplace
  · rfl
  · exact absurd ⟨haddr, hbit⟩ hplace
  · exact absurd hplace.2 hbit
  · rfl
  · exact absurd hplace.1 haddr
  · rfl

theorem look_gpioSetValue (p : Pin) (dat : BitVec 32) (regs : Regs) (k : Place) :
    look (gpioSetValue p.gpio dat regs) k =
      (Call.effect.value k p dat).getD (look regs k) := by
  unfold gpioSetValue Call.effect.value
  simp only
  by_cases hdat : dat ≠ 0
  · rw [if_pos hdat, look_set, Function.update_eq_self]
    split_ifs with hplace
    · exact (decide_eq_true hdat).symm
    · rfl
  · rw [if_neg hdat, show (1#32 : BitVec 32) = BitVec.ofNat 32 (2 ^ 1 - 1) from rfl, look_clear]
    split_ifs with hplace hplace' hplace'
    · exact (decide_eq_false hdat).symm
    · exact absurd ⟨hplace.1, by omega⟩ hplace'
    · exact absurd ⟨hplace'.1, hplace'.2.ge, by omega⟩ hplace
    · rfl

theorem look_gpioDirectionSet (p : Pin) (out : Bool) (regs : Regs) (k : Place) :
    look (gpioDirectionSet p.gpio out regs) k =
      (Call.effect.direction k p out).getD (look regs k) := by
  have hwidth : 0 < gcsz p.group := by
    rcases gcsz_eq p.group with h | h
    · omega
    · omega
  unfold gpioDirectionSet Call.effect.direction
  simp only
  rw [show (0x3#32 : BitVec 32) = BitVec.ofNat 32 (2 ^ 2 - 1) from rfl, look_clear, p.mask_eq,
    p.gpio_div]
  by_cases hpull : k.1 = regdat p.gpio + 4 ∧ p.gpio % 16 * 2 ≤ k.2 ∧ k.2 < p.gpio % 16 * 2 + 2
  · rw [if_pos hpull, if_pos hpull]
    rfl
  · rw [if_neg hpull, if_neg hpull]
    cases out with
    | false =>
      rw [if_neg (by decide), look_clear]
      split_ifs with hconf
      · rfl
      · rfl
    | true =>
      rw [if_pos rfl, look_set, look_clear]
      split_ifs with hlow hconf hconf
      · exact (decide_eq_true hlow.2).symm
      · exact absurd ⟨hlow.1, hlow.2.ge, by omega⟩ hconf
      · have hne : (k.2 : ℕ) ≠ confShift p.gpio := fun h => hlow ⟨hconf.1, h⟩
        exact (decide_eq_false hne).symm
      · rfl

theorem look_run (regs : Regs) (call : Call) (k : Place) :
    look (call.run regs) k = (call.effect k).getD (look regs k) := by
  cases call with
  | directionOutput p dat =>
    show look (gpioSetValue p.gpio dat (gpioDirectionSet p.gpio true regs)) k =
      ((Call.effect.value k p dat).or (Call.effect.direction k p true)).getD _
    rw [look_gpioSetValue, look_gpioDirectionSet]
    cases Call.effect.value k p dat with
    | some v => rfl
    | none => rfl
  | directionInput p => exact look_gpioDirectionSet p false regs k
  | setValue p dat => exact look_gpioSetValue p dat regs k

end Bits

/-! ## Places of the pins -/

section Layout

/-- The place belongs to a part of a pin. -/
def Pin.At (p : Pin) (part : Part) (k : Place) : Prop :=
  k.1 = p.addr part ∧ p.low part ≤ k.2 ∧ k.2 < p.low part + p.width part

/-- The registers of two groups do not meet. -/
theorem groups_apart (g g' : Fin 17) (h : g ≠ g') :
    gbase g + gdat g + 8 ≤ gbase g' ∨ gbase g' + gdat g' + 8 ≤ gbase g := by
  revert g g'
  decide

theorem gdat_eq (g : Fin 17) : gdat g = 4 ∨ gdat g = 8 := by
  revert g
  decide

/-- The register of a part is one of its group. -/
theorem Pin.addr_mem (p : Pin) (part : Part) :
    gpioBase + gbase p.group ≤ p.addr part ∧
      p.addr part < gpioBase + gbase p.group + gdat p.group + 8 := by
  have hlt := p.lt
  have hdat := gdat_eq p.group
  cases part with
  | config =>
    show _ ≤ gpioBase + gbase p.group + 4 * (gcsz p.group * p.sub / 32) ∧
      gpioBase + gbase p.group + 4 * (gcsz p.group * p.sub / 32) < _
    omega
  | data =>
    show _ ≤ gpioBase + gbase p.group + gdat p.group ∧
      gpioBase + gbase p.group + gdat p.group < _
    omega
  | pull =>
    show _ ≤ gpioBase + gbase p.group + gdat p.group + 4 ∧
      gpioBase + gbase p.group + gdat p.group + 4 < _
    omega

/-- No place belongs to two parts. -/
theorem Pin.At.unique {p q : Pin} {part part' : Part} {k : Place} (h : p.At part k)
    (h' : q.At part' k) : p = q ∧ part = part' := by
  obtain ⟨haddr, hlow, hhigh⟩ := h
  obtain ⟨haddr', hlow', hhigh'⟩ := h'
  have hgroup : p.group = q.group := by
    by_contra hne
    have hapart := groups_apart p.group q.group hne
    have hp := p.addr_mem part
    have hq := q.addr_mem part'
    omega
  obtain ⟨g, s, hs⟩ := p
  obtain ⟨g', s', hs'⟩ := q
  obtain rfl : g = g' := hgroup
  have hdat := gdat_eq g
  have hlt : gcsz g * s < 8 * gdat g := hs
  have hlt' : gcsz g * s' < 8 * gdat g := hs'
  have hsub : s < 16 := (Pin.mk g s hs).sub_lt
  have hsub' : s' < 16 := (Pin.mk g s' hs').sub_lt
  have hsame : part = part' ∧ s = s' := by
    rcases gcsz_eq g with hw | hw
    all_goals
      rw [hw] at hlt hlt'
      cases part
      all_goals
        cases part'
        all_goals
          simp only [Pin.addr, Pin.low, Pin.width, hw] at haddr hlow hhigh haddr' hlow' hhigh'
          refine ⟨?_, ?_⟩
          all_goals
            first
            | rfl
            | omega
  obtain ⟨hpart, rfl⟩ := hsame
  exact ⟨rfl, hpart⟩

theorem Pin.At.iff {p : Pin} {part : Part} {k : Place} (hk : p.At part k) (q : Pin)
    (part' : Part) : q.At part' k ↔ q = p ∧ part' = part := by
  constructor
  · exact fun h => h.unique hk
  · rintro ⟨rfl, rfl⟩
    exact hk

instance (p : Pin) (part : Part) (k : Place) : Decidable (p.At part k) :=
  inferInstanceAs (Decidable (_ ∧ _))

/-- What `gpio_set_value` sets where it finds the data register. -/
theorem value_eq {q : Pin} (hq : q.Found) (k : Place) (dat : BitVec 32) :
    Call.effect.value k q dat = if q.At .data k then some (decide (dat ≠ 0)) else none := by
  have hiff : (k.1 = regdat q.gpio ∧ k.2 = q.gpio % 16) ↔ q.At .data k := by
    rw [Pin.At, q.found_iff.mp hq, q.gpio_mod]
    apply and_congr_right
    intro _
    show (k.2 : ℕ) = q.sub ↔ q.sub ≤ k.2 ∧ k.2 < q.sub + 1
    omega
  unfold Call.effect.value
  simp only [hiff]

theorem direction_eq {q : Pin} (hq : q.Found) (k : Place) (out : Bool) :
    Call.effect.direction k q out =
      if q.At .pull k then some false
      else if q.At .config k then some (out && decide ((k.2 : ℕ) = q.low .config)) else none := by
  have hpull : (k.1 = regdat q.gpio + 4 ∧ q.gpio % 16 * 2 ≤ k.2 ∧
      k.2 < q.gpio % 16 * 2 + 2) ↔ q.At .pull k := by
    rw [Pin.At, q.found_iff.mp hq, q.gpio_mod, Nat.mul_comm q.sub 2]
    rfl
  have hconf : (k.1 = regconf q.gpio ∧ confShift q.gpio ≤ k.2 ∧
      k.2 < confShift q.gpio + gcsz (q.gpio >>> 4)) ↔ q.At .config k := by
    rw [Pin.At, q.regconf_eq, q.confShift_eq, q.gpio_div]
    rfl
  unfold Call.effect.direction
  rw [← q.confShift_eq]
  simp only [hpull, hconf]

/-- What a call sets of a part of a pin, if the code finds the registers of the pin of the
    call. -/
theorem effect_eq {p : Pin} {part : Part} {k : Place} (hk : p.At part k) {call : Call}
    (hcall : call.pin.Found) :
    call.effect k = (call.setsFor p part).map fun v => v && decide ((k.2 : ℕ) = p.low part) := by
  have hbit : p.low .data ≤ k.2 ∧ k.2 < p.low .data + 1 → (k.2 : ℕ) = p.low .data := by
    omega
  unfold Call.setsFor
  cases call with
  | directionOutput q dat =>
    have hfound : q.Found := hcall
    show (Call.effect.value k q dat).or (Call.effect.direction k q true) = _
    rw [value_eq hfound, direction_eq hfound]
    simp only [hk.iff]
    by_cases hq : q = p
    · cases part with
      | config => simp [hq, Call.pin, Call.sets]
      | data => simp [hq, Call.pin, Call.sets, hbit hk.2]
      | pull => simp [hq, Call.pin, Call.sets]
    · simp [hq, Call.pin]
  | directionInput q =>
    have hfound : q.Found := hcall
    show Call.effect.direction k q false = _
    rw [direction_eq hfound]
    simp only [hk.iff]
    by_cases hq : q = p
    · cases part with
      | config => simp [hq, Call.pin, Call.sets]
      | data => simp [hq, Call.pin, Call.sets]
      | pull => simp [hq, Call.pin, Call.sets]
    · simp [hq, Call.pin]
  | setValue q dat =>
    have hfound : q.Found := hcall
    show Call.effect.value k q dat = _
    rw [value_eq hfound]
    simp only [hk.iff]
    by_cases hq : q = p
    · cases part with
      | config => simp [hq, Call.pin, Call.sets]
      | data => simp [hq, Call.pin, Call.sets, hbit hk.2]
      | pull => simp [hq, Call.pin, Call.sets]
    · simp [hq, Call.pin]

end Layout

/-! ## Runs -/

section Runs

theorem Pin.low_add_width_le (p : Pin) (part : Part) : p.low part + p.width part ≤ 32 := by
  have hsub := p.sub_lt
  cases part with
  | config =>
    show gcsz p.group * p.sub % 32 + gcsz p.group ≤ 32
    rcases gcsz_eq p.group with h | h
    · rw [h]
      omega
    · rw [h]
      omega
  | data => exact hsub.trans (by decide)
  | pull =>
    show 2 * p.sub + 2 ≤ 32
    omega

/-- Each bit is as the last call that sets it leaves it. -/
theorem look_runs (calls : List Call) (regs : Regs) (k : Place) :
    look (calls.foldl Call.run regs) k =
      (calls.reverse.findSome? (Call.effect k)).getD (look regs k) :=
  look_foldl look_run k calls regs

/-- The place of a bit of a part. -/
def Pin.place (p : Pin) (part : Part) (i : ℕ) (hi : i < p.width part) : Place :=
  (p.addr part, ⟨p.low part + i, (Nat.add_lt_add_left hi _).trans_le (p.low_add_width_le part)⟩)

theorem Pin.at_place (p : Pin) (part : Part) (i : ℕ) (hi : i < p.width part) :
    p.At part (p.place part i hi) :=
  ⟨rfl, Nat.le_add_right _ _, Nat.add_lt_add_left hi _⟩

theorem Pin.field_getLsbD (p : Pin) (part : Part) (regs : Regs) (i : ℕ)
    (hi : i < p.width part) :
    (p.field part regs).getLsbD i = look regs (p.place part i hi) := by
  rw [Pin.field, BitVec.getLsbD_extractLsb', decide_eq_true hi, Bool.true_and]
  rfl

theorem getLsbD_bitValue (w : ℕ) (v : Bool) {i : ℕ} (hi : i < w) :
    (bitValue w v).getLsbD i = (v && decide (i = 0)) := by
  cases v with
  | false => exact BitVec.getLsbD_zero
  | true =>
    show (1#w).getLsbD i = _
    rw [BitVec.getLsbD_one, decide_eq_true (show 0 < w by omega)]

/-- A part behind calls that find their registers. -/
theorem field_run (p : Pin) (part : Part) (regs : Regs) {calls : List Call}
    (hcalls : ∀ call ∈ calls, call.pin.Found) :
    p.field part (calls.foldl Call.run regs) =
      ((calls.reverse.findSome? (Call.setsFor p part)).map (bitValue _)).getD
        (p.field part regs) := by
  apply BitVec.eq_of_getLsbD_eq
  intro i hi
  have hlast : (calls.reverse.findSome? fun call => call.effect (p.place part i hi)) =
      (calls.reverse.findSome? (Call.setsFor p part)).map fun v =>
        v && decide (((p.place part i hi).2 : ℕ) = p.low part) := by
    apply findSome?_request
    intro call hcall
    exact effect_eq (p.at_place part i hi) (hcalls call (List.mem_reverse.mp hcall))
  rw [p.field_getLsbD part _ i hi, look_runs, hlast]
  cases calls.reverse.findSome? (Call.setsFor p part) with
  | none => exact (p.field_getLsbD part regs i hi).symm
  | some v =>
    have hlow : ((p.place part i hi).2 : ℕ) = p.low part ↔ i = 0 := Nat.add_eq_left
    show (v && decide (((p.place part i hi).2 : ℕ) = p.low part)) = (bitValue _ v).getLsbD i
    rw [getLsbD_bitValue _ v hi, decide_eq_decide.mpr hlow]

/-- The data bit of a pin. -/
def Pin.dataBit (p : Pin) : Place := (p.addr .data, ⟨p.sub, p.sub_lt.trans (by decide)⟩)

/-- The bit at the address that the code computes. -/
def Pin.foundBit (p : Pin) : Place := (regdat p.gpio, ⟨p.sub, p.sub_lt.trans (by decide)⟩)

theorem Pin.at_dataBit (p : Pin) : p.At .data p.dataBit :=
  ⟨rfl, le_rfl, Nat.lt_succ_self _⟩

theorem gpioGetValue_eq (p : Pin) (regs : Regs) :
    gpioGetValue p.gpio regs = (look regs p.foundBit).toNat := by
  have hsub : p.sub < 32 := p.sub_lt.trans (by decide)
  have hbit : BitVec.twoPow 32 p.sub ≠ 0 := by
    intro h
    have hget := congrArg (BitVec.getLsbD · p.sub) h
    simp only [BitVec.getLsbD_twoPow, BitVec.ofNat_eq_ofNat, BitVec.getLsbD_zero] at hget
    simp [hsub] at hget
  rw [gpioGetValue, p.gpio_mod, ← BitVec.twoPow_eq, BitVec.and_twoPow]
  unfold look Pin.foundBit
  cases (regs (regdat p.gpio)).getLsbD p.sub with
  | true => exact if_pos hbit
  | false => rfl

theorem field_data_toNat (p : Pin) (regs : Regs) :
    (p.field .data regs).toNat = (look regs p.dataBit).toNat := by
  have hbit : ∀ x : BitVec 1, x.toNat = (x.getLsbD 0).toNat := by decide
  exact (hbit (p.field .data regs)).trans
    (congrArg Bool.toNat (p.field_getLsbD .data regs 0 Nat.one_pos))

/-- No call sets the data bit of a pin whose register is not found. -/
theorem effect_data {p : Pin} (hp : ¬ p.Found) (call : Call) :
    call.effect p.dataBit = none := by
  have hvalueTable : ∀ (g g' : Fin 17) (s : Fin 16),
      gbase g + gdat g = gbase g' + gdat s + (if 4 = gcsz g' then 4 else 0) → g = g' := by
    decide +kernel
  have hpullTable : ∀ (g g' : Fin 17) (s : Fin 16),
      gbase g + gdat g ≠ gbase g' + gdat s + (if 4 = gcsz g' then 4 else 0) + 4 := by
    decide +kernel
  have hvalue : ∀ q dat, Call.effect.value p.dataBit q dat = none := by
    intro q dat
    refine if_neg fun h => hp ?_
    obtain ⟨haddr, hbit⟩ := h
    have haddr' : gpioBase + gbase p.group + gdat p.group = regdat q.gpio := haddr
    have hbit' : p.sub = q.sub := hbit.trans q.gpio_mod
    rw [q.regdat_eq] at haddr'
    have hgroup : p.group = q.group :=
      hvalueTable p.group q.group ⟨q.sub, q.sub_lt⟩ (by show _ = _ + gdat q.sub + _; omega)
    rw [p.found_iff, p.regdat_eq, hgroup, hbit', ← haddr', hgroup]
    show _ = gpioBase + gbase p.group + gdat p.group
    rw [hgroup]
  have hdirection : ∀ q out,
      Call.effect.direction p.dataBit q out = none := by
    intro q out
    refine (if_neg fun h => ?_).trans (if_neg fun h => ?_)
    · have haddr : gpioBase + gbase p.group + gdat p.group = regdat q.gpio + 4 := h.1
      rw [q.regdat_eq] at haddr
      refine hpullTable p.group q.group ⟨q.sub, q.sub_lt⟩ ?_
      show _ = _ + gdat q.sub + _ + 4
      omega
    · rw [q.regconf_eq, q.confShift_eq, q.gpio_div] at h
      have hconfig : q.At .config p.dataBit := h
      exact absurd (hconfig.unique p.at_dataBit).2 (by decide)
  cases call with
  | directionOutput q dat =>
    show (Call.effect.value _ q dat).or (Call.effect.direction _ q true) = none
    rw [hvalue, hdirection]
    rfl
  | directionInput q => exact hdirection q false
  | setValue q dat => exact hvalue q dat

/-- The setters leave each pin as it was last set, read it back so and keep all others, whatever
    the registers hold, exactly if the code finds the registers of the pins they are called on. -/
theorem exact_iff (calls : List Call) :
    (∀ regs, Exact regs calls) ↔ ∀ call ∈ calls, call.pin.Found := by
  constructor
  · intro h call hcall
    by_contra hp
    have hpin : call.pin ∈ calls.map Call.pin := List.mem_map_of_mem hcall
    have hinj : ∀ a b : Bool, a.toNat = b.toNat → a = b := by decide
    -- the registers with the data bit clear and set are read back alike
    have hread : ∀ regs,
        look (calls.foldl Call.run regs) call.pin.foundBit = look regs call.pin.dataBit := by
      intro regs
      have hvalue := (h regs).value call.pin hpin
      rw [gpioGetValue_eq, field_data_toNat, look_runs calls regs call.pin.dataBit,
        List.findSome?_eq_none_iff.mpr fun c _ => effect_data hp c] at hvalue
      exact hinj _ _ hvalue
    have hne : regdat call.pin.gpio ≠ call.pin.addr .data :=
      fun heq => hp (call.pin.found_iff.mpr heq)
    have hclear := hread fun _ => 0
    have hset := hread (Function.update (fun _ => 0) (call.pin.addr .data) (BitVec.allOnes 32))
    rw [look_runs] at hclear hset
    have hsame : look (Function.update (fun _ => 0) (call.pin.addr .data) (BitVec.allOnes 32))
        call.pin.foundBit = look (fun _ => 0) call.pin.foundBit := by
      rw [look_update]
      exact if_neg hne
    have hbit : look (Function.update (fun _ => 0) (call.pin.addr .data) (BitVec.allOnes 32))
        call.pin.dataBit = true := by
      rw [look_update, BitVec.getLsbD_allOnes]
      exact (if_pos rfl).trans (decide_eq_true call.pin.dataBit.2.isLt)
    rw [hsame, hclear, hbit] at hset
    exact Bool.false_ne_true (BitVec.getLsbD_zero.symm.trans hset)
  · intro h regs
    refine ⟨fun p _ part _ => field_run p part regs h, ?_, ?_⟩
    · intro p hp
      obtain ⟨call, hcall, rfl⟩ := List.mem_map.mp hp
      rw [gpioGetValue_eq, field_data_toNat, Pin.foundBit,
        call.pin.found_iff.mp (h call hcall)]
      rfl
    · intro q hq part
      have hnone : calls.reverse.findSome? (Call.setsFor q part) = none := by
        rw [List.findSome?_eq_none_iff]
        intro call hcall
        refine if_neg fun hpin => hq ?_
        exact List.mem_map.mpr ⟨call, List.mem_reverse.mp hcall, hpin⟩
      rw [field_run q part regs h, hnone]
      rfl

/-- A pin of the group `A`: setting it writes the pull register. -/
theorem not_exact :
    ¬ ∀ (regs : Regs) (calls : List Call), Exact regs calls := by
  intro h
  have htouched := (h (fun _ => 0) [.setValue ⟨0, 0, by decide⟩ 1]).touched ⟨0, 0, by decide⟩
    List.mem_cons_self .data (by decide)
  revert htouched
  decide

end Runs

end SmartQ.UBoot.Gpio
