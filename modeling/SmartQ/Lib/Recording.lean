import SmartQ.Lib.Prog

/-!
# Programs that keep a record

What the operations of a fragment answer depends on the state, and so on the
operations before them. A fragment whose operations note their answers beside the
state makes the answers of a run a value that one can speak about.

* `Prog.record`: an operation that notes its answer.
* `Prog.Recording`: the rules for fragments made of such operations: they do what they
  do without a record, and the record only grows.
-/

namespace SmartQ.Lib.Prog

variable {σ ε τ α β : Type}

/-- `x`, with its answer noted in a record by `note`. -/
def record (note : α → τ → τ) (x : Prog σ ε α) : Prog (σ × τ) ε α := fun s =>
  match x s.1 with
  | none => none
  | some (.error e, s') => some (.error e, s', s.2)
  | some (.ok a, s') => some (.ok a, s', note a s.2)

theorem record_ok {note : α → τ → τ} {x : Prog σ ε α} {s s' : σ × τ} {a : α}
    (h : record note x s = some (.ok a, s')) : x s.1 = some (.ok a, s'.1) ∧ s'.2 = note a s.2 := by
  unfold record at h
  rcases hx : x s.1 with _ | ⟨⟨e⟩ | ⟨b⟩, s1⟩
  · rw [hx] at h
    cases h
  · rw [hx] at h
    cases h
  · rw [hx] at h
    cases h
    exact ⟨rfl, rfl⟩

/-- `y` does what `x` does and keeps a record, which moves along `R`. -/
structure Recording (R : τ → τ → Prop) (y : Prog (σ × τ) ε α) (x : Prog σ ε α) : Prop where
  same : ∀ s t, (y (s, t)).map (fun p => (p.1, p.2.1)) = x s
  grows : Steps (fun s s' => R s.2 s'.2) y

namespace Recording

variable {R : τ → τ → Prop} {y : Prog (σ × τ) ε α} {x : Prog σ ε α} {s s' : σ}
  {r : Except ε α}

/-- Every run of the fragment is a run with a record. -/
theorem run (h : Recording R y x) (hrun : x s = some (r, s')) (t : τ) :
    ∃ t', y (s, t) = some (r, (s', t')) := by
  have hsame := h.same s t
  rw [hrun, Option.map_eq_some_iff] at hsame
  obtain ⟨⟨r', s1, t'⟩, hy, heq⟩ := hsame
  cases heq
  exact ⟨t', hy⟩

/-- Every run with a record is a run of the fragment. -/
theorem run_same {s s' : σ × τ} (h : Recording R y x) (hrun : y s = some (r, s')) :
    x s.1 = some (r, s'.1) := by
  have hsame := h.same s.1 s.2
  rw [hrun] at hsame
  exact hsame.symm

theorem record {note : α → τ → τ} (hrefl : ∀ t, R t t) (hnote : ∀ a t, R t (note a t))
    (x : Prog σ ε α) : Recording R (record note x) x := by
  constructor
  · intro s t
    unfold Prog.record
    rcases x s with _ | ⟨⟨e⟩ | ⟨a⟩, s1⟩ <;> rfl
  · rintro ⟨s, t⟩ r s' hrun
    unfold Prog.record at hrun
    rcases hx : x s with _ | ⟨⟨e⟩ | ⟨a⟩, s1⟩ <;> simp only [hx] at hrun
    · cases hrun
    · cases hrun
      exact hrefl t
    · cases hrun
      exact hnote a t

theorem ret (hrefl : ∀ t, R t t) (a : α) :
    Recording R (pure a : Prog (σ × τ) ε α) (pure a : Prog σ ε α) :=
  ⟨fun _ _ => rfl, Steps.ret (fun s => hrefl s.2) a⟩

theorem bind (htrans : ∀ t t' t'', R t t' → R t' t'' → R t t'') (hx : Recording R y x)
    {g : α → Prog (σ × τ) ε β} {f : α → Prog σ ε β} (hf : ∀ a, Recording R (g a) (f a)) :
    Recording R (y >>= g) (x >>= f) := by
  refine ⟨fun s t => ?_, Steps.bind (fun s s' s'' => htrans s.2 s'.2 s''.2) hx.grows
    fun a => (hf a).grows⟩
  rcases hrun : x s with _ | ⟨⟨e⟩ | ⟨a⟩, s1⟩
  · have hnone := hx.same s t
    rw [hrun, Option.map_eq_none_iff] at hnone
    rw [bind_none hrun, bind_none hnone, Option.map_none]
  · obtain ⟨t', hy⟩ := hx.run hrun t
    rw [bind_error hrun, bind_error hy, Option.map_some]
  · obtain ⟨t', hy⟩ := hx.run hrun t
    rw [bind_ok hrun, bind_ok hy]
    exact (hf a).same s1 t'

theorem ite {c : Prop} [Decidable c] {y' : Prog (σ × τ) ε α} {x' : Prog σ ε α}
    (h : Recording R y x) (h' : Recording R y' x') :
    Recording R (if c then y else y') (if c then x else x') := by
  split_ifs
  · exact h
  · exact h'

end Recording

end SmartQ.Lib.Prog
