import Mathlib.Tactic

/-!
# Programs with state and an exit

`Prog σ ε α` is a C program fragment over the global state `σ`: from a state
it either does not return (`none`: the bound on its loops ran out), or leaves
the program through an exit `ε`, or returns a value; the state it leaves is
kept in both cases.

* `Prog.bind_eq_some`: a run of a sequence is a run of its parts.
* `Prog.Steps`: the frame and invariant rules. Every fragment built from
  fragments that move the state along a preorder moves it along that preorder.
-/

namespace SmartQ.Lib

/-- A program fragment over the state `σ` with exits `ε` and result `α`. -/
def Prog (σ ε α : Type) : Type := σ → Option (Except ε α × σ)

namespace Prog

variable {σ ε α β : Type}

/-- The fragment that returns `a` and leaves the state as it is. -/
protected def ret (a : α) : Prog σ ε α := fun s => some (.ok a, s)

/-- Sequencing: an exit of `x` skips `f`. -/
protected def seq (x : Prog σ ε α) (f : α → Prog σ ε β) : Prog σ ε β := fun s =>
  match x s with
  | none => none
  | some (.error e, s') => some (.error e, s')
  | some (.ok a, s') => f a s'

instance : Monad (Prog σ ε) where
  pure := Prog.ret
  bind := Prog.seq

/-- Leave the program through `e`, whatever follows. -/
def exit (e : ε) : Prog σ ε α := fun s => some (.error e, s)

/-- Read the state of the machine, and leave it as it is. -/
def get : Prog σ ε σ := fun s => some (.ok s, s)

/-- Change the state of the machine, without a result and without an end. -/
def modify (f : σ → σ) : Prog σ ε Unit := fun s => some (.ok (), f s)

/-- A step that computes a value and the next state. -/
def step (f : σ → α × σ) : Prog σ ε α := fun s => some (.ok (f s).1, (f s).2)

/-- Leave the program through `e` if `c` holds. -/
def exitIf (c : Prop) [Decidable c] (e : ε) : Prog σ ε Unit := if c then exit e else Prog.ret ()

/-- `if (c) x;`: the step where the condition holds, and nothing elsewhere. -/
def doIf (c : Prop) [Decidable c] (x : Prog σ ε Unit) : Prog σ ε Unit := if c then x else Prog.ret ()

/-- The loop bound ran out before the loop came to its end: no result. -/
def stuck : Prog σ ε α := fun _ => none

-- Proved by `(rfl)`, so that `simp` rewrites with them and the kernel does not
-- have to find the unfolding again.
@[simp] theorem pure_apply (a : α) (s : σ) : (pure a : Prog σ ε α) s = some (.ok a, s) := (rfl)

@[simp] theorem exit_apply (e : ε) (s : σ) : (exit e : Prog σ ε α) s = some (.error e, s) := (rfl)

@[simp] theorem get_apply (s : σ) : (get : Prog σ ε σ) s = some (.ok s, s) := (rfl)

@[simp] theorem modify_apply (f : σ → σ) (s : σ) :
    (modify f : Prog σ ε Unit) s = some (.ok (), f s) := (rfl)

@[simp] theorem step_apply (f : σ → α × σ) (s : σ) :
    (step f : Prog σ ε α) s = some (.ok (f s).1, (f s).2) := (rfl)

@[simp] theorem stuck_apply (s : σ) : (stuck : Prog σ ε α) s = none := (rfl)

theorem bind_ok {x : Prog σ ε α} {f : α → Prog σ ε β} {s s' : σ} {a : α}
    (h : x s = some (.ok a, s')) : (x >>= f) s = f a s' := by
  show Prog.seq x f s = _
  simp only [Prog.seq, h]

theorem bind_error {x : Prog σ ε α} {f : α → Prog σ ε β} {s s' : σ} {e : ε}
    (h : x s = some (.error e, s')) : (x >>= f) s = some (.error e, s') := by
  show Prog.seq x f s = _
  simp only [Prog.seq, h]

/-- Sequencing looks at a fragment only where it is run. -/
theorem bind_congr {x y : Prog σ ε α} {f : α → Prog σ ε β} {s t : σ} (h : x s = y t) :
    (x >>= f) s = (y >>= f) t := by
  show Prog.seq x f s = Prog.seq y f t
  simp only [Prog.seq, h]

/-- And at what follows only where that is reached. -/
theorem bind_congr_right {x : Prog σ ε α} {f g : α → Prog σ ε β} {s : σ}
    (h : ∀ a s', x s = some (.ok a, s') → f a s' = g a s') : (x >>= f) s = (x >>= g) s := by
  show Prog.seq x f s = Prog.seq x g s
  rcases hx : x s with _ | ⟨⟨e⟩ | ⟨a⟩, s'⟩
  · simp only [Prog.seq, hx]
  · simp only [Prog.seq, hx]
  · simp only [Prog.seq, hx]
    exact h a s' hx

theorem bind_none {x : Prog σ ε α} {f : α → Prog σ ε β} {s : σ} (h : x s = none) :
    (x >>= f) s = none := by
  show Prog.seq x f s = _
  simp only [Prog.seq, h]

theorem bind_assoc {γ : Type} (x : Prog σ ε α) (f : α → Prog σ ε β) (g : β → Prog σ ε γ) :
    (x >>= f) >>= g = x >>= fun a => f a >>= g := by
  funext s
  rcases hx : x s with _ | ⟨⟨e⟩ | ⟨a⟩, s'⟩
  · rw [bind_none hx, bind_none (bind_none hx)]
  · rw [bind_error hx, bind_error (bind_error hx)]
  · rw [bind_ok hx, bind_congr (bind_ok hx)]

/-- A run of `x >>= f` is an exiting run of `x`, or a returning run of `x`
    followed by a run of `f`. -/
theorem bind_eq_some {x : Prog σ ε α} {f : α → Prog σ ε β} {s s'' : σ} {r : Except ε β} :
    (x >>= f) s = some (r, s'') ↔
      (∃ e, x s = some (.error e, s'') ∧ r = .error e) ∨
      ∃ a s', x s = some (.ok a, s') ∧ f a s' = some (r, s'') := by
  rcases hx : x s with _ | ⟨⟨e⟩ | ⟨a⟩, s'⟩
  · simp [bind_none hx]
  · rw [bind_error hx]
    constructor
    · rintro ⟨⟩
      exact .inl ⟨e, rfl, rfl⟩
    · rintro (⟨e', h, rfl⟩ | ⟨a, s1, h, -⟩)
      · cases h; rfl
      · cases h
  · rw [bind_ok hx]
    constructor
    · intro h
      exact .inr ⟨a, s', rfl, h⟩
    · rintro (⟨e', h, -⟩ | ⟨a', s1, h, h'⟩)
      · cases h
      · cases h; exact h'

theorem bind_eq_ok {x : Prog σ ε α} {f : α → Prog σ ε β} {s s'' : σ} {b : β} :
    (x >>= f) s = some (.ok b, s'') ↔
      ∃ a s', x s = some (.ok a, s') ∧ f a s' = some (.ok b, s'') := by
  rw [bind_eq_some]
  constructor
  · rintro (⟨e, -, h⟩ | h)
    · cases h
    · exact h
  · exact .inr

/-- `Prog.step` never exits. -/
theorem step_bind {f : σ → α × σ} {g : α → Prog σ ε β} {s s'' : σ} {r : Except ε β}
    (h : (step f >>= g) s = some (r, s'')) :
    ∃ a s', (step f : Prog σ ε α) s = some (.ok a, s') ∧ g a s' = some (r, s'') :=
  ⟨(f s).1, (f s).2, rfl, h⟩

/-- `Prog.modify` never exits. -/
@[simp] theorem modify_bind {f : σ → σ} {g : Unit → Prog σ ε β} {s : σ} :
    (modify f >>= g) s = g () (f s) := (rfl)

@[simp] theorem get_bind {g : σ → Prog σ ε β} {s : σ} : (get >>= g) s = g s s := (rfl)

@[simp] theorem ret_bind {a : α} {g : α → Prog σ ε β} {s : σ} : (pure a >>= g) s = g a s := (rfl)

@[simp] theorem exit_bind {e : ε} {g : α → Prog σ ε β} {s : σ} :
    (exit e >>= g) s = some (.error e, s) := (rfl)

/-- A run past an `exitIf` did not meet its condition. -/
theorem exitIf_bind {c : Prop} [Decidable c] {e : ε} {g : Unit → Prog σ ε β} {s s'' : σ}
    {r : Except ε β} (h : (exitIf c e >>= g) s = some (r, s'')) :
    c ∧ r = .error e ∧ s'' = s ∨ ¬ c ∧ g () s = some (r, s'') := by
  unfold exitIf at h
  split_ifs at h with hc
  · cases h
    exact .inl ⟨hc, rfl, rfl⟩
  · exact .inr ⟨hc, h⟩

theorem exitIf_of {c : Prop} [Decidable c] {e : ε} {g : Unit → Prog σ ε β} {s : σ} (h : c) :
    (exitIf c e >>= g) s = some (.error e, s) := by
  rw [exitIf, if_pos h]
  rfl

theorem exitIf_of_not {c : Prop} [Decidable c] {e : ε} {g : Unit → Prog σ ε β} {s : σ} (h : ¬ c) :
    (exitIf c e >>= g) s = g () s := by
  rw [exitIf, if_neg h]
  rfl

theorem doIf_of {c : Prop} [Decidable c] {x : Prog σ ε Unit} {s : σ} (h : c) :
    doIf c x s = x s := by
  unfold doIf
  exact congrFun (if_pos h) s

theorem doIf_of_not {c : Prop} [Decidable c] {x : Prog σ ε Unit} {g : Unit → Prog σ ε β} {s : σ}
    (h : ¬ c) : (doIf c x >>= g) s = g () s := by
  rw [doIf, if_neg h]
  rfl

/-! ## Steps along a preorder -/

/-- Every run of `x`, whether it returns or exits, leads from a state to an
    `R`-related one. -/
def Steps (R : σ → σ → Prop) (x : Prog σ ε α) : Prop := ∀ s r s', x s = some (r, s') → R s s'

section Steps

variable {R : σ → σ → Prop} (hrefl : ∀ s, R s s)
  (htrans : ∀ s s' s'', R s s' → R s' s'' → R s s'')

include hrefl in
theorem Steps.ret (a : α) : Steps R (pure a : Prog σ ε α) := by
  rintro s r s' ⟨⟩
  exact hrefl s

include hrefl in
theorem Steps.exit (e : ε) : Steps R (Prog.exit e : Prog σ ε α) := by
  rintro s r s' ⟨⟩
  exact hrefl s

include hrefl in
theorem Steps.get : Steps R (Prog.get : Prog σ ε σ) := by
  rintro s r s' ⟨⟩
  exact hrefl s

theorem Steps.modify {f : σ → σ} (h : ∀ s, R s (f s)) : Steps R (Prog.modify f : Prog σ ε Unit) := by
  rintro s r s' ⟨⟩
  exact h s

theorem Steps.step {f : σ → α × σ} (h : ∀ s, R s (f s).2) : Steps R (Prog.step f : Prog σ ε α) := by
  rintro s r s' ⟨⟩
  exact h s

include hrefl in
theorem Steps.exitIf (c : Prop) [Decidable c] (e : ε) :
    Steps R (Prog.exitIf c e : Prog σ ε Unit) := by
  unfold Prog.exitIf
  split_ifs
  · exact Steps.exit hrefl e
  · exact Steps.ret hrefl ()

include hrefl in
theorem Steps.doIf (c : Prop) [Decidable c] {x : Prog σ ε Unit} (hx : Steps R x) :
    Steps R (Prog.doIf c x) := by
  unfold Prog.doIf
  split_ifs
  · exact hx
  · exact Steps.ret hrefl ()

theorem Steps.stuck : Steps R (Prog.stuck : Prog σ ε α) := by
  rintro s r s' ⟨⟩

include htrans in
theorem Steps.bind {x : Prog σ ε α} {f : α → Prog σ ε β} (hx : Steps R x)
    (hf : ∀ a, Steps R (f a)) : Steps R (x >>= f) := by
  intro s r s'' h
  rcases bind_eq_some.mp h with ⟨e, he, -⟩ | ⟨a, s', ha, hb⟩
  · exact hx _ _ _ he
  · exact htrans _ _ _ (hx _ _ _ ha) (hf a _ _ _ hb)

end Steps

end Prog

end SmartQ.Lib
