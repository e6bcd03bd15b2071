import Mathlib.Tactic

/-!
# Walks up to a stop

A loop that moves from position to position until a condition holds.

* `Walk.exists_ends`: a walk that moves up in every round reaches its bound.
* `Walk.not_ends_of_fixed`: a round that does not move is the last new one.
-/

namespace SmartQ.Lib

/-- A loop over positions `α`: where it starts, where it goes on, and where it stops. -/
structure Walk (α : Type) where
  start : α
  next : α → α
  stop : α → Prop

namespace Walk

variable {α : Type} (w : Walk α)

/-- The position before round `n`, if the walk gets there. -/
def pos : ℕ → α
  | 0 => w.start
  | n + 1 => w.next (pos n)

/-- The walk gets to round `n`. -/
def Visits (n : ℕ) : Prop := ∀ m < n, ¬ w.stop (w.pos m)

/-- The walk stops in round `n`. -/
def Ends (n : ℕ) : Prop := w.Visits n ∧ w.stop (w.pos n)

variable {w} {n m : ℕ}

theorem visits_zero : w.Visits 0 := by
  intro m hm
  omega

theorem Visits.succ (h : w.Visits n) (hstop : ¬ w.stop (w.pos n)) : w.Visits (n + 1) := by
  intro m hm
  rcases Nat.lt_succ_iff_lt_or_eq.mp hm with hm | rfl
  · exact h m hm
  · exact hstop

theorem Visits.mono (h : w.Visits n) (hmn : m ≤ n) : w.Visits m := fun i hi => h i (by omega)

theorem Ends.le_of_visits (h : w.Ends n) (hm : w.Visits m) : m ≤ n := by
  by_contra hlt
  exact hm n (by omega) h.2

theorem Ends.unique (h : w.Ends n) (h' : w.Ends m) : n = m :=
  le_antisymm (h'.le_of_visits h.1) (h.le_of_visits h'.1)

/-- A round that does not move is repeated for ever. -/
theorem not_ends_of_fixed (h : w.Visits m) (hstop : ¬ w.stop (w.pos m))
    (hfix : w.next (w.pos m) = w.pos m) : ¬ w.Ends n := by
  have hsame : ∀ i, w.pos (m + i) = w.pos m := by
    intro i
    induction i with
    | zero => rfl
    | succ i ih =>
      show w.next (w.pos (m + i)) = _
      rw [ih, hfix]
  intro hends
  have hle := hends.le_of_visits h
  have hlast := hends.2
  rw [← Nat.add_sub_cancel' hle, hsame] at hlast
  exact hstop hlast

section Bounded

variable {w : Walk ℕ} {n : ℕ} (bound : ℕ)

/-- A walk that moves up in every round reaches its bound. -/
theorem exists_ends (hbound : ∀ p, bound ≤ p → w.stop p)
    (hup : ∀ n, w.Visits n → ¬ w.stop (w.pos n) → w.pos n < w.next (w.pos n)) :
    ∃ n, w.Ends n := by
  by_contra hnever
  push Not at hnever
  have hall : ∀ n, w.Visits n ∧ n ≤ w.pos n := by
    intro n
    induction n with
    | zero => exact ⟨visits_zero, Nat.zero_le _⟩
    | succ n ih =>
      obtain ⟨hvisit, hle⟩ := ih
      have hgo : ¬ w.stop (w.pos n) := fun hstop => hnever n ⟨hvisit, hstop⟩
      exact ⟨hvisit.succ hgo, hle.trans_lt (hup n hvisit hgo)⟩
  obtain ⟨hvisit, hle⟩ := hall bound
  exact hnever bound ⟨hvisit, hbound _ hle⟩

end Bounded

end Walk

end SmartQ.Lib
