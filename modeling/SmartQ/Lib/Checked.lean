import SmartQ.Lib.Prog

/-!
# Programs that stop at an undefined operation

A fragment that checks its operations before it does them, beside the fragment that
just does them.

* `Checks`: the checked fragment does what the other one does, or stops at a check.
* `Safe`: no run from a state of an invariant stops at a check.
-/

namespace SmartQ.Lib

/-- The early ends of a checked fragment: an operation that C leaves undefined, or an
    exit. -/
inductive Fault (ε : Type)
  | undefined
  | exit (e : ε)

namespace Prog

variable {σ ε α β : Type}

/-- A fragment without operations to check. -/
def lift (x : Prog σ ε α) : Prog σ (Fault ε) α := fun s =>
  (x s).map fun p => (p.1.mapError .exit, p.2)

/-- The operand of an operation is one that C defines it for. -/
def check (c : Prop) [Decidable c] : Prog σ (Fault ε) Unit := exitIf (¬ c) .undefined

theorem check_of {c : Prop} [Decidable c] {g : Unit → Prog σ (Fault ε) β} (h : c) :
    (check c >>= g) = g () := by
  funext s
  exact exitIf_of_not (not_not_intro h)

theorem check_of_not {c : Prop} [Decidable c] {g : Unit → Prog σ (Fault ε) β} {s : σ} (h : ¬ c) :
    (check c >>= g) s = some (.error .undefined, s) := exitIf_of h

theorem lift_ok {x : Prog σ ε α} {s s' : σ} {a : α} (h : x s = some (.ok a, s')) :
    x.lift s = some (.ok a, s') := by
  unfold lift
  rw [h]
  rfl

theorem lift_error {x : Prog σ ε α} {s s' : σ} {e : ε} (h : x s = some (.error e, s')) :
    x.lift s = some (.error (.exit e), s') := by
  unfold lift
  rw [h]
  rfl

theorem lift_none {x : Prog σ ε α} {s : σ} (h : x s = none) : x.lift s = none := by
  unfold lift
  rw [h]
  rfl

theorem lift_bind (x : Prog σ ε α) (f : α → Prog σ ε β) :
    (x >>= f).lift = x.lift >>= fun a => (f a).lift := by
  funext s
  rcases hx : x s with _ | ⟨⟨e⟩ | ⟨a⟩, s'⟩
  · rw [lift_none (bind_none hx), bind_none (lift_none hx)]
  · rw [lift_error (bind_error hx), bind_error (lift_error hx)]
  · rw [bind_ok (lift_ok hx)]
    unfold lift
    rw [bind_ok hx]

/-! ## A checked fragment and the fragment it checks -/

/-- `y` does what `x` does, or stops at a check. -/
def Checks (y : Prog σ (Fault ε) α) (x : Prog σ ε α) : Prop :=
  ∀ s, (∃ s', y s = some (.error .undefined, s')) ∨ y s = x.lift s

namespace Checks

theorem lift (x : Prog σ ε α) : Checks x.lift x := fun _ => .inr rfl

theorem ret (a : α) : Checks (pure a : Prog σ (Fault ε) α) (pure a) := fun _ => .inr rfl

theorem get : Checks (Prog.get : Prog σ (Fault ε) σ) Prog.get := fun _ => .inr rfl

theorem modify (f : σ → σ) : Checks (Prog.modify f : Prog σ (Fault ε) Unit) (Prog.modify f) :=
  fun _ => .inr rfl

theorem bind {y : Prog σ (Fault ε) α} {x : Prog σ ε α} {g : α → Prog σ (Fault ε) β}
    {f : α → Prog σ ε β} (hy : Checks y x) (hg : ∀ a, Checks (g a) (f a)) :
    Checks (y >>= g) (x >>= f) := by
  intro s
  rw [lift_bind]
  rcases hy s with ⟨s', hs⟩ | hs
  · exact .inl ⟨s', bind_error hs⟩
  · rcases hx : x s with _ | ⟨⟨e⟩ | ⟨a⟩, s'⟩
    · rw [lift_none hx] at hs
      exact .inr ((bind_none hs).trans (bind_none (lift_none hx)).symm)
    · rw [lift_error hx] at hs
      exact .inr ((bind_error hs).trans (bind_error (lift_error hx)).symm)
    · rw [lift_ok hx] at hs
      rw [bind_ok hs, bind_ok (lift_ok hx)]
      exact hg a s'

theorem check {c : Prop} [Decidable c] {g : Unit → Prog σ (Fault ε) β} {x : Prog σ ε β}
    (hg : Checks (g ()) x) : Checks (Prog.check c >>= g) x := by
  intro s
  by_cases hc : c
  · rw [check_of hc]
    exact hg s
  · exact .inl ⟨s, check_of_not hc⟩

theorem ite {c : Prop} [Decidable c] {y y' : Prog σ (Fault ε) α} {x x' : Prog σ ε α}
    (h : Checks y x) (h' : Checks y' x') : Checks (if c then y else y') (if c then x else x') := by
  split_ifs
  · exact h
  · exact h'

end Checks

/-! ## Runs without an undefined operation -/

/-- From a state of `I`, a run stays in `I` and does not stop at a check. -/
def Safe (I : σ → Prop) (x : Prog σ (Fault ε) α) : Prop :=
  ∀ s, I s → ∀ r s', x s = some (r, s') → I s' ∧ r ≠ .error .undefined

namespace Safe

variable {I : σ → Prop}

theorem ret (a : α) : Safe I (pure a : Prog σ (Fault ε) α) := by
  rintro s hs r s' ⟨⟩
  exact ⟨hs, nofun⟩

theorem get {g : σ → Prog σ (Fault ε) β} (h : ∀ s, I s → Safe I (g s)) :
    Safe I (Prog.get >>= g) := by
  intro s hs r s' hrun
  rw [get_bind] at hrun
  exact h s hs s hs r s' hrun

theorem modify {f : σ → σ} (h : ∀ s, I s → I (f s)) :
    Safe I (Prog.modify f : Prog σ (Fault ε) Unit) := by
  rintro s hs r s' ⟨⟩
  exact ⟨h s hs, nofun⟩

theorem lift {x : Prog σ ε α} (h : Steps (fun s s' => I s → I s') x) : Safe I x.lift := by
  intro s hs r s' hrun
  rcases hx : x s with _ | ⟨⟨e⟩ | ⟨a⟩, s1⟩
  · rw [lift_none hx] at hrun
    cases hrun
  · rw [lift_error hx] at hrun
    cases hrun
    exact ⟨h _ _ _ hx hs, nofun⟩
  · rw [lift_ok hx] at hrun
    cases hrun
    exact ⟨h _ _ _ hx hs, nofun⟩

theorem bind {x : Prog σ (Fault ε) α} {g : α → Prog σ (Fault ε) β} (hx : Safe I x)
    (hg : ∀ a, Safe I (g a)) : Safe I (x >>= g) := by
  intro s hs r s' hrun
  rcases bind_eq_some.mp hrun with ⟨e, he, rfl⟩ | ⟨a, s1, ha, hrest⟩
  · obtain ⟨hI, hne⟩ := hx s hs _ _ he
    exact ⟨hI, fun heq => hne (by cases heq; rfl)⟩
  · exact hg a s1 (hx s hs _ _ ha).1 r s' hrest

theorem ite {c : Prop} [Decidable c] {x y : Prog σ (Fault ε) α} (hx : c → Safe I x)
    (hy : ¬ c → Safe I y) : Safe I (if c then x else y) := by
  by_cases hc : c
  · rw [if_pos hc]
    exact hx hc
  · rw [if_neg hc]
    exact hy hc

theorem exitIf (c : Prop) [Decidable c] (e : ε) :
    Safe I (Prog.exitIf c (.exit e) : Prog σ (Fault ε) Unit) := by
  unfold Prog.exitIf
  split_ifs
  · rintro s hs r s' ⟨⟩
    exact ⟨hs, nofun⟩
  · exact ret ()

end Safe

end Prog

end SmartQ.Lib
