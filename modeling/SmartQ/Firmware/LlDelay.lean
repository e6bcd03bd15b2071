import Mathlib.Order.Monotone.Basic
import Mathlib.Tactic
import SmartQ.Lib.Bytes

/-!
# The delays of the crypto chip's port

Model of `ll_Delay`, `ll_Clockhigh` and `ll_Clocklow` in `fw-utils/ll_port.c` and of `mdelay` in
`fw-utils/cmd_encrypt.c` over the readings of `gettimeofday`. `ll_Delay` looks at the difference
of the microsecond fields only.

* `returns_iff`: where `ll_Delay` returns, in terms of the microsecond fields.
* `onTime_iff`: exactly when a sequence of delays is on time.
-/

namespace SmartQ.Firmware.LlDelay

open SmartQ.Lib

/-- The readings of `gettimeofday`, in order. -/
structure Clock where
  sec : ℕ → ℕ
  usec : ℕ → ℕ
  usec_lt : ∀ i, usec i < 1000000
  mono : ∀ i, sec i * 1000000 + usec i ≤ sec (i + 1) * 1000000 + usec (i + 1)

/-! ## Model -/

/-- The loop of `ll_Delay` for at most a number of readings: the reading it ends at. -/
def delayLoop (c : Clock) (start ucDelay : ℕ) : ℕ → ℕ → Option ℕ
  | 0, _ => none
  | k + 1, i =>
    let timeUse := toU32 (c.usec i - c.usec start)
    if timeUse < ucDelay then delayLoop c start ucDelay k (i + 1) else some i

/-- `ll_Delay` (lines 29–39), with reading `p` as its first. -/
def llDelay (c : Clock) (ucDelay p k : ℕ) : Option ℕ :=
  delayLoop c p ((2 * ucDelay + 1) % 2 ^ 32) k (p + 1)

/-- The delays of `ll_Clockhigh`. -/
def llClockhigh : List ℕ := [1, 1]

/-- The delays of `ll_Clocklow`. -/
def llClocklow : List ℕ := [1, 2]

/-- The delay of `mdelay`. -/
def mdelay (time_count : ℕ) : List ℕ := [time_count * 1000 % 2 ^ 32]

/-- The delays of a clock cycle are far below the limit of the counter. -/
theorem cycle_lt : ∀ d ∈ llClockhigh ++ llClocklow, d < 2 ^ 30 := by decide

/-- So are those of `mdelay` up to a quarter of an hour. -/
theorem mdelay_lt {time_count : ℕ} (h : time_count ≤ 1000000) :
    ∀ d ∈ mdelay time_count, d < 2 ^ 30 := by
  intro d hd
  have hlt : time_count * 1000 < 2 ^ 30 := by omega
  rw [List.mem_singleton.mp hd]
  exact (Nat.mod_le _ _).trans_lt hlt

/-! ## Delays on time -/

section Time

variable (c : Clock)

/-- A reading in microseconds. -/
def Clock.now (i : ℕ) : ℕ := c.sec i * 1000000 + c.usec i

/-- Reading `i` is the first one that is `2 * d + 1` microseconds after reading `p`. -/
def Due (d p i : ℕ) : Prop :=
  p < i ∧ c.now p + (2 * d + 1) ≤ c.now i ∧ ∀ j, p < j → j < i → c.now j < c.now p + (2 * d + 1)

/-- `ll_Delay(d)` that starts at reading `p` returns at reading `i`. -/
def Returns (d p i : ℕ) : Prop := ∃ k, llDelay c d p k = some i

/-- The delays that follow each other from reading `p` on return when they are due. -/
def OnTime : ℕ → List ℕ → Prop
  | _, [] => True
  | p, d :: ds => (∀ i, Returns c d p i ↔ Due c d p i) ∧ ∀ i, Returns c d p i → OnTime (i + 1) ds

/-- Up to the reading where each delay is due, none has fewer microseconds than the delay's first
    one; and that reading itself has fewer, or at least `2 * d + 1` more. -/
def Undisturbed : ℕ → List ℕ → Prop
  | _, [] => True
  | p, d :: ds =>
    (∀ i, p < i → c.now i < c.now p + (2 * d + 1) → c.usec p ≤ c.usec i) ∧
    (∀ i, Due c d p i → c.usec i < c.usec p ∨ c.usec p + (2 * d + 1) ≤ c.usec i) ∧
    ∀ i, Due c d p i → Undisturbed (i + 1) ds

end Time

/-! ## Proofs -/

variable {c : Clock}

theorem Clock.now_mono (c : Clock) : Monotone c.now := monotone_nat_of_le_succ c.mono

/-- The loop returns at the first reading where the difference is large enough. -/
theorem delayLoop_iff (start ucDelay i p : ℕ) :
    (∃ k, delayLoop c start ucDelay k p = some i) ↔
      p ≤ i ∧ ucDelay ≤ toU32 (c.usec i - c.usec start) ∧
        ∀ j, p ≤ j → j < i → toU32 (c.usec j - c.usec start) < ucDelay := by
  constructor
  · rintro ⟨k, hk⟩
    induction k generalizing p with
    | zero => cases hk
    | succ k ih =>
      rw [delayLoop] at hk
      by_cases h : toU32 (c.usec p - c.usec start) < ucDelay
      · obtain ⟨hp, hi, hbefore⟩ := ih (p + 1) ((if_pos h).symm.trans hk)
        refine ⟨by omega, hi, fun j hj hji => ?_⟩
        rcases Nat.eq_or_lt_of_le hj with rfl | hj
        · exact h
        · exact hbefore j hj hji
      · obtain rfl := Option.some.inj ((if_neg h).symm.trans hk)
        exact ⟨le_rfl, Nat.le_of_not_lt h, fun j hj hji => by omega⟩
  · rintro ⟨hp, hi, hbefore⟩
    obtain ⟨n, rfl⟩ := Nat.exists_eq_add_of_le hp
    refine ⟨n + 1, ?_⟩
    induction n generalizing p with
    | zero => exact if_neg (Nat.not_lt.mpr hi)
    | succ n ih =>
      rw [show p + (n + 1) = p + 1 + n by omega] at hi hbefore ⊢
      rw [delayLoop, if_pos (hbefore p le_rfl (by omega))]
      exact ih (p + 1) (by omega) hi fun j hj hji => hbefore j (by omega) hji

/-- The difference of the microsecond fields is too small for the loop to end. -/
theorem toU32_usec_lt_iff {d i p : ℕ} (hd : d < 2 ^ 30) :
    toU32 (c.usec i - c.usec p) < (2 * d + 1) % 2 ^ 32 ↔
      c.usec p ≤ c.usec i ∧ c.usec i < c.usec p + (2 * d + 1) := by
  have := c.usec_lt i
  have := c.usec_lt p
  unfold toU32
  omega

theorem returns_iff {d p i : ℕ} (hd : d < 2 ^ 30) :
    Returns c d p i ↔ p < i ∧ ¬ (c.usec p ≤ c.usec i ∧ c.usec i < c.usec p + (2 * d + 1)) ∧
      ∀ j, p < j → j < i → c.usec p ≤ c.usec j ∧ c.usec j < c.usec p + (2 * d + 1) := by
  unfold Returns llDelay
  rw [delayLoop_iff]
  refine and_congr Iff.rfl (and_congr ?_ ?_)
  · rw [← toU32_usec_lt_iff hd, not_lt]
  · simp only [toU32_usec_lt_iff hd]
    exact Iff.rfl

/-- A reading less than `m` later has less than `m` microseconds more. -/
theorem usec_lt_of_now_lt {p i m : ℕ} (hpi : p ≤ i) (h : c.now i < c.now p + m) :
    c.usec i < c.usec p + m := by
  have hmono := c.now_mono hpi
  have hi := c.usec_lt i
  unfold Clock.now at h hmono
  omega

/-- One delay is on time iff the microseconds of the readings do not disturb it. -/
theorem returns_iff_due_iff {d p : ℕ} (hd : d < 2 ^ 30) :
    (∀ i, Returns c d p i ↔ Due c d p i) ↔
      (∀ i, p < i → c.now i < c.now p + (2 * d + 1) → c.usec p ≤ c.usec i) ∧
        ∀ i, Due c d p i → c.usec i < c.usec p ∨ c.usec p + (2 * d + 1) ≤ c.usec i := by
  constructor
  · intro h
    refine ⟨fun i hpi hnow => ?_, fun i hdue => ?_⟩
    · -- the first reading with fewer microseconds would end the loop
      by_contra hu
      obtain ⟨m, ⟨hpm, hum⟩, hfirst⟩ : ∃ m, (p < m ∧ c.usec m < c.usec p) ∧
          ∀ j < m, ¬ (p < j ∧ c.usec j < c.usec p) :=
        ⟨Nat.find (p := fun m => p < m ∧ c.usec m < c.usec p) ⟨i, hpi, by omega⟩,
          Nat.find_spec (p := fun m => p < m ∧ c.usec m < c.usec p) _,
          fun j hj => Nat.find_min (p := fun m => p < m ∧ c.usec m < c.usec p) _ hj⟩
      have hmi : m ≤ i := by
        by_contra hlt
        exact hfirst i (by omega) ⟨hpi, by omega⟩
      have hnow' : ∀ j ≤ i, c.now j < c.now p + (2 * d + 1) := fun j hj =>
        lt_of_le_of_lt (c.now_mono hj) hnow
      have hret : Returns c d p m := by
        refine (returns_iff hd).mpr ⟨hpm, by omega, fun j hpj hjm => ?_⟩
        have hu := hfirst j hjm
        exact ⟨by omega, usec_lt_of_now_lt hpj.le (hnow' j (by omega))⟩
      have := ((h m).mp hret).2.1
      have := hnow' m hmi
      omega
    · have := ((returns_iff hd).mp ((h i).mpr hdue)).2.1
      omega
  · rintro ⟨hbefore, hdue⟩ i
    have hsmall : ∀ j, p < j → c.now j < c.now p + (2 * d + 1) →
        c.usec p ≤ c.usec j ∧ c.usec j < c.usec p + (2 * d + 1) := fun j hpj hnow =>
      ⟨hbefore j hpj hnow, usec_lt_of_now_lt hpj.le hnow⟩
    have hof : ∀ i, Due c d p i → Returns c d p i := fun i h =>
      (returns_iff hd).mpr ⟨h.1, by have := hdue i h; omega, fun j hpj hji =>
        hsmall j hpj (h.2.2 j hpj hji)⟩
    refine ⟨fun h => ?_, hof i⟩
    obtain ⟨hpi, hi, hloop⟩ := (returns_iff hd).mp h
    have hlate : c.now p + (2 * d + 1) ≤ c.now i := by
      by_contra hnow
      exact hi (hsmall i hpi (by omega))
    refine ⟨hpi, hlate, fun j hpj hji => ?_⟩
    -- a due reading before would have ended the loop
    by_contra hnow
    have hex : ∃ m, p < m ∧ c.now p + (2 * d + 1) ≤ c.now m := ⟨j, hpj, by omega⟩
    obtain ⟨hpm, hm⟩ := Nat.find_spec hex
    have hmj := Nat.find_min' hex ⟨hpj, by omega⟩
    have hfirst : Due c d p (Nat.find hex) := by
      refine ⟨hpm, hm, fun l hpl hlm => ?_⟩
      have := Nat.find_min hex hlm
      by_contra hl
      exact this ⟨hpl, by omega⟩
    have := hdue _ hfirst
    have := hloop _ hpm (by omega)
    omega

/-- Delays that follow each other are all on time iff the microseconds disturb none of them. -/
theorem onTime_iff (c : Clock) (p : ℕ) (ds : List ℕ) (hd : ∀ d ∈ ds, d < 2 ^ 30) :
    OnTime c p ds ↔ Undisturbed c p ds := by
  induction ds generalizing p with
  | nil => exact Iff.rfl
  | cons d ds ih =>
    have hds := fun q => ih q fun d hd' => hd d (List.mem_cons_of_mem _ hd')
    have hone := returns_iff_due_iff (c := c) (p := p) (hd d List.mem_cons_self)
    constructor
    · rintro ⟨hnow, hrest⟩
      obtain ⟨hbefore, hdue⟩ := hone.mp hnow
      exact ⟨hbefore, hdue, fun i hi => (hds _).mp (hrest i ((hnow i).mpr hi))⟩
    · rintro ⟨hbefore, hdue, hrest⟩
      have hnow := hone.mpr ⟨hbefore, hdue⟩
      exact ⟨hnow, fun i hi => (hds _).mpr (hrest i ((hnow i).mp hi))⟩

/-- A clock that stays in one second: no delay of `ll_Clockhigh` is disturbed. -/
theorem onTime_llClockhigh :
    OnTime ⟨fun _ => 7, fun i => min i 999999, fun i => by omega, fun i => by omega⟩ 0
      llClockhigh := by
  refine (onTime_iff _ 0 llClockhigh (by decide)).mpr ?_
  refine ⟨fun i hi _ => ?_, fun i hi => .inr ?_, fun i _ => ⟨fun j hj _ => ?_, fun j hj => .inr ?_,
    fun _ _ => trivial⟩⟩
  · show min 0 999999 ≤ min i 999999
    omega
  · have := hi.2.1
    simp only [Clock.now] at this ⊢
    omega
  · show min (i + 1) 999999 ≤ min j 999999
    omega
  · have := hj.2.1
    simp only [Clock.now] at this ⊢
    omega

/-- A clock that comes to a whole second one microsecond after its first reading. -/
def crossing : Clock where
  sec i := i
  usec i := if i = 0 then 999999 else 0
  usec_lt i := by split_ifs <;> omega
  mono i := by split_ifs <;> omega

/-- There a delay of 3 microseconds ends after one. -/
theorem not_onTime_crossing : ¬ OnTime crossing 0 [1] := by
  rintro ⟨h, -⟩
  have hret : Returns crossing 1 0 1 := ⟨1, by decide⟩
  have hdue := ((h 1).mp hret).2.1
  exact absurd hdue (by decide)

end SmartQ.Firmware.LlDelay
