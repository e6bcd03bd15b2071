import Mathlib.Data.List.Basic
import Mathlib.Tactic.Ring

/-!
# Rings of the most recent values

Values stored one after the other in a fixed number of places, the next one in the place of
the oldest. The place that is stored to next is never read.

* `Recent.push`: a store makes its value the most recent one and drops the oldest.
* `Recent.read`: the values are found going back from the place stored to next.
-/

namespace SmartQ.Lib

universe u

/-- The places, the one stored to next, and the last one used so far. -/
structure RingBuffer (α : Type u) where
  slots : ℕ → α
  idx : ℕ
  max : ℕ

namespace RingBuffer

variable {α : Type u}

/-- The place `i` before the one stored to next. -/
def before (r : RingBuffer α) (i : ℕ) : ℕ := if i ≤ r.idx then r.idx - i else r.idx + (r.max + 1) - i

/-- One place up, and back to the first one behind the last of `n`. -/
def next (n i : ℕ) : ℕ := if i + 1 < n then i + 1 else 0

/-- Store a value in a ring of `n` places. -/
def push (n : ℕ) (r : RingBuffer α) (a : α) : RingBuffer α where
  slots := fun i => if i = r.idx then a else r.slots i
  idx := next n r.idx
  max := if next n r.idx > r.max then next n r.idx else r.max

/-- The ring of `n` places holds the values `xs`, the most recent one first. -/
structure Recent (n : ℕ) (r : RingBuffer α) (xs : List α) : Prop where
  full : r.idx = r.max ∨ r.max + 1 = n
  idx_le : r.idx ≤ r.max
  max_lt : r.max < n
  length_eq : xs.length = r.max
  read : ∀ i (hi : i < xs.length), r.slots (r.before (i + 1)) = xs[i]

variable {n : ℕ} {r : RingBuffer α} {xs : List α}

theorem before_zero : r.before 0 = r.idx := by simp [before]

/-- Going back comes to the place stored to next only after all the others. -/
theorem before_eq_idx {i : ℕ} (hi : i ≤ r.max) : r.before i = r.idx ↔ i = 0 := by
  unfold before
  split_ifs <;> omega

/-- One more place back. -/
theorem before_succ (h : r.idx ≤ r.max) {i : ℕ} (hi : i < r.max) :
    r.before (i + 1) = if r.before i = 0 then r.max else r.before i - 1 := by
  unfold before
  split_ifs <;> omega

/-- Behind the last place back the next one is that stored to next. -/
theorem before_max (h : r.idx ≤ r.max) :
    (if r.before r.max = 0 then r.max else r.before r.max - 1) = r.idx := by
  unfold before
  split_ifs <;> omega

/-- One place forth. -/
theorem before_pred (h : r.idx ≤ r.max) {i : ℕ} (hi : i < r.max) :
    r.before i = if r.before (i + 1) + 1 > r.max then 0 else r.before (i + 1) + 1 := by
  unfold before
  split_ifs <;> omega

theorem Recent.empty (slots : ℕ → α) (hn : 0 < n) : Recent n ⟨slots, 0, 0⟩ [] where
  full := Or.inl rfl
  idx_le := le_rfl
  max_lt := hn
  length_eq := rfl
  read := fun i hi => absurd hi (Nat.not_lt_zero i)

/-- A store moves every value one place back. -/
theorem before_push (h : Recent n r xs) (a : α) {i : ℕ} (hi : i < (push n r a).max) :
    (push n r a).before (i + 1) = r.before i := by
  obtain ⟨hfull, hle, hlt, -, -⟩ := h
  simp only [push, before, next] at hi ⊢
  split_ifs at hi ⊢ <;> omega

theorem Recent.push (h : Recent n r xs) (a : α) :
    Recent n (push n r a) ((a :: xs).take (n - 1)) := by
  obtain ⟨hfull, hle, hlt, hlen, hread⟩ := id h
  have hmax : (RingBuffer.push n r a).max = min (r.max + 1) (n - 1) := by
    simp only [RingBuffer.push, next]
    split_ifs <;> omega
  have hlen' : ((a :: xs).take (n - 1)).length = (RingBuffer.push n r a).max := by
    rw [hmax, List.length_take, List.length_cons, hlen, min_comm]
  refine ⟨?_, ?_, ?_, hlen', ?_⟩
  · simp only [RingBuffer.push, next]
    split_ifs <;> omega
  · simp only [RingBuffer.push]
    split_ifs <;> omega
  · rw [hmax]
    omega
  · intro i hi
    rw [hlen'] at hi
    rw [before_push h a hi]
    cases i with
    | zero =>
      rw [before_zero]
      simp [RingBuffer.push]
    | succ i =>
      have hix : i < xs.length := by omega
      have hne : r.before (i + 1) ≠ r.idx := by
        rw [Ne, before_eq_idx (by omega)]
        exact Nat.succ_ne_zero i
      have hslot : (RingBuffer.push n r a).slots (r.before (i + 1)) = r.slots (r.before (i + 1)) :=
        if_neg hne
      rw [hslot, hread i hix]
      simp

end RingBuffer

end SmartQ.Lib
