import Mathlib.Data.List.Basic
import Mathlib.Tactic

/-!
# Runs that can break off

A machine that takes one input after the other and may break off at each.

* `Throughout`: a property of every state reached and the input taken there.
* `throughout_iff`: two properties that agree where an invariant holds agree on
  whole runs.
* `foldlM_rel`: two machines that step alike run alike.
* `ticks_add`: a machine that is called until it is done.
* `look_foldl`: what a run of steps leaves where each step sets what it touches.
-/

namespace SmartQ.Lib

section Runs

variable {σ ι : Type} (step : σ → ι → Option σ)

/-- `P` holds of every state the run from `s` reaches, with the input it takes
    there. -/
def Throughout (P : σ → ι → Prop) (s : σ) (is : List ι) : Prop :=
  ∀ pre i post t, is = pre ++ i :: post → pre.foldlM step s = some t → P t i

variable {step} {P Q : σ → ι → Prop} {I : σ → Prop} {s : σ} {i : ι} {is : List ι}

theorem throughout_nil : Throughout step P s [] := by
  intro pre i post t h
  exact (List.append_ne_nil_of_right_ne_nil pre (List.cons_ne_nil i post) h.symm).elim

theorem throughout_cons :
    Throughout step P s (i :: is) ↔
      P s i ∧ ∀ t, step s i = some t → Throughout step P t is := by
  constructor
  · intro h
    constructor
    · exact h [] i is s rfl rfl
    · intro t ht pre j post u hsplit hrun
      apply h (i :: pre) j post u
      · rw [hsplit, List.cons_append]
      · rw [List.foldlM_cons, ht]
        exact hrun
  · rintro ⟨hfirst, hrest⟩ pre j post u hsplit hrun
    cases pre with
    | nil =>
      rw [List.nil_append, List.cons.injEq] at hsplit
      cases hrun
      exact hsplit.1 ▸ hfirst
    | cons k pre =>
      rw [List.cons_append, List.cons.injEq] at hsplit
      obtain ⟨rfl, rfl⟩ := hsplit
      rw [List.foldlM_cons] at hrun
      obtain ⟨t, ht, hrun⟩ := Option.bind_eq_some_iff.mp hrun
      exact hrest t ht pre j post u rfl hrun

/-- Where `Q` keeps the invariant that makes it the same as `P`, the two hold of
    the same runs. -/
theorem throughout_iff (hiff : ∀ s i, I s → (P s i ↔ Q s i))
    (hkeep : ∀ s i t, I s → Q s i → step s i = some t → I t) (hs : I s) :
    Throughout step P s is ↔ Throughout step Q s is := by
  induction is generalizing s with
  | nil => exact iff_of_true throughout_nil throughout_nil
  | cons i is ih =>
    rw [throughout_cons, throughout_cons, hiff s i hs]
    apply and_congr_right
    intro hq
    apply forall_congr'
    intro t
    apply imp_congr_right
    intro ht
    exact ih (hkeep s i t hs hq ht)

/-- An invariant the inputs keep holds where the run ends. -/
theorem foldlM_invariant (hkeep : ∀ s i t, I s → step s i = some t → I t) (hs : I s) {t : σ}
    (h : is.foldlM step s = some t) : I t := by
  induction is generalizing s with
  | nil =>
    cases h
    exact hs
  | cons i is ih =>
    rw [List.foldlM_cons] at h
    obtain ⟨u, hu, h⟩ := Option.bind_eq_some_iff.mp h
    exact ih (hkeep s i u hs hu) h

end Runs

section Simulation

variable {σ τ ι : Type} {step : σ → ι → Option σ} {step' : τ → ι → Option τ} {R : σ → τ → Prop}

/-- Two machines that step alike, and break off alike, run alike. -/
theorem foldlM_rel (h : ∀ s t i, R s t → Option.Rel R (step s i) (step' t i)) {s : σ} {t : τ}
    (hst : R s t) (is : List ι) : Option.Rel R (is.foldlM step s) (is.foldlM step' t) := by
  induction is generalizing s t with
  | nil => exact .some hst
  | cons i is ih =>
    rw [List.foldlM_cons, List.foldlM_cons]
    cases hs : step s i with
    | none =>
      have hrel := h s t i hst
      rw [hs] at hrel
      cases ht : step' t i with
      | none => exact .none
      | some t' =>
        rw [ht] at hrel
        cases hrel
    | some s' =>
      have hrel := h s t i hst
      rw [hs] at hrel
      cases ht : step' t i with
      | none =>
        rw [ht] at hrel
        cases hrel
      | some t' =>
        rw [ht] at hrel
        cases hrel with
        | some hst' => exact ih hst'

end Simulation

/-! ## Calls until the machine is done -/

section Ticks

variable {σ : Type} (step : σ → Option (ℤ × σ))

/-- At most `n` calls, until one is not 0. -/
def ticks : ℕ → σ → Option (ℤ × σ)
  | 0, s => some (0, s)
  | n + 1, s => (step s).bind fun r => if r.1 ≠ 0 then some r else ticks n r.2

variable {step} {m n : ℕ} {s t : σ} {r : ℤ}

theorem ticks_succ_of_zero (h : step s = some (0, t)) : ticks step (n + 1) s = ticks step n t := by
  rw [ticks, h]
  rfl

theorem ticks_succ_of_ne (h : step s = some (r, t)) (hr : r ≠ 0) :
    ticks step (n + 1) s = some (r, t) := by
  rw [ticks, h]
  exact if_pos hr

theorem ticks_add (h : ticks step m s = some (0, t)) :
    ticks step (m + n) s = ticks step n t := by
  induction m generalizing s with
  | zero =>
    cases h
    rw [Nat.zero_add]
  | succ m ih =>
    rw [Nat.succ_add, ticks]
    rw [ticks] at h
    obtain ⟨⟨r, u⟩, hu, h⟩ := Option.bind_eq_some_iff.mp h
    rw [hu]
    by_cases hr : r ≠ 0
    · rw [if_pos hr] at h
      cases h
      exact absurd rfl hr
    · rw [if_neg hr] at h
      exact (if_neg hr).trans (ih h)

/-- A machine that is done stays so. -/
theorem ticks_of_le (h : ticks step m s = some (r, t)) (hr : r ≠ 0) (hmn : m ≤ n) :
    ticks step n s = some (r, t) := by
  induction m generalizing s n with
  | zero =>
    cases h
    exact absurd rfl hr
  | succ m ih =>
    obtain ⟨n, rfl⟩ := Nat.exists_eq_succ_of_ne_zero (show n ≠ 0 by omega)
    rw [ticks] at h ⊢
    obtain ⟨p, hp, h⟩ := Option.bind_eq_some_iff.mp h
    rw [hp]
    by_cases hr : p.1 ≠ 0
    · rw [if_pos hr] at h
      exact (if_pos hr).trans h
    · rw [if_neg hr] at h
      exact (if_neg hr).trans (ih h (by omega))

/-- Some calls, none of which is the last, lead from `s` to `t`. -/
def Reaches (step : σ → Option (ℤ × σ)) (s t : σ) : Prop := ∃ n, ticks step n s = some (0, t)

theorem Reaches.refl (s : σ) : Reaches step s s := ⟨0, rfl⟩

theorem Reaches.one (h : step s = some (0, t)) : Reaches step s t :=
  ⟨1, ticks_succ_of_zero h⟩

theorem Reaches.trans {u : σ} (h : Reaches step s t) (h' : Reaches step t u) :
    Reaches step s u := by
  obtain ⟨m, hm⟩ := h
  obtain ⟨n, hn⟩ := h'
  exact ⟨m + n, (ticks_add hm).trans hn⟩

/-- Where a machine that gets to `t` is done later. -/
theorem Reaches.ticks_of_done {u : σ} (h : Reaches step s t) (hn : ticks step n s = some (r, u))
    (hr : r ≠ 0) : ∃ m, ticks step m t = some (r, u) := by
  obtain ⟨m, hm⟩ := h
  refine ⟨n, ?_⟩
  rw [← ticks_add hm]
  exact ticks_of_le hn hr (Nat.le_add_left n m)

/-- What every call keeps. -/
theorem ticks_invariant {P : σ → σ → Prop} (hrefl : ∀ s, P s s)
    (htrans : ∀ s t u, P s t → P t u → P s u) (hstep : ∀ s r t, step s = some (r, t) → P s t)
    (h : ticks step m s = some (r, t)) : P s t := by
  induction m generalizing s with
  | zero =>
    cases h
    exact hrefl _
  | succ m ih =>
    rw [ticks] at h
    obtain ⟨⟨r', u⟩, hu, h⟩ := Option.bind_eq_some_iff.mp h
    by_cases hr : r' ≠ 0
    · rw [if_pos hr] at h
      cases h
      exact hstep _ _ _ hu
    · rw [if_neg hr] at h
      exact htrans _ _ _ (hstep _ _ _ hu) (ih h)

end Ticks

/-! ## Steps that set what they touch -/

section Overlay

variable {σ ι κ ν : Type} {step : σ → ι → σ} {look : σ → κ → ν} {effect : ι → κ → Option ν}

/-- Behind a run, every place has what the last step that sets it gives it. -/
theorem look_foldl (h : ∀ s i k, look (step s i) k = (effect i k).getD (look s k)) (k : κ)
    (is : List ι) :
    ∀ s : σ, look (is.foldl step s) k =
      (is.reverse.findSome? fun i => effect i k).getD (look s k) := by
  induction is with
  | nil => exact fun _ => rfl
  | cons i is ih =>
    intro s
    rw [List.foldl_cons, ih, h, List.reverse_cons, List.findSome?_append]
    cases is.reverse.findSome? fun i => effect i k with
    | some v => rfl
    | none =>
      cases hi : effect i k with
      | some v => simp [hi]
      | none => simp [hi]

/-- The last step of one kind, for steps that agree with requests of this kind. -/
theorem findSome?_request {α : Type} {request : ι → Option α} {k : κ} {g : α → ν} {is : List ι}
    (h : ∀ i ∈ is, effect i k = (request i).map g) :
    (is.findSome? fun i => effect i k) = (is.findSome? request).map g := by
  induction is with
  | nil => rfl
  | cons i is ih =>
    rw [List.findSome?_cons, List.findSome?_cons, h i List.mem_cons_self,
      ih fun j hj => h j (List.mem_cons_of_mem i hj)]
    cases request i with
    | some a => rfl
    | none => rfl

end Overlay

end SmartQ.Lib
