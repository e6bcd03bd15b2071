import SmartQ.Lib.Prog

/-!
# Programs within a budget

A total-correctness triple with a price: `μ` measures what a state has used of a resource
of which there is `limit`.

* `Prog.Spends`: from a state of `P` with `c` left the fragment ends, and not with one of the
  exits that are not `fine`; if it returns it has used at most `c`, and `Q` holds.
* The rules: `ret`, `get`, `modify`, `exit`, `bind`, `conseq`, and `frame` for what the
  fragment leaves alone in every run.
-/

namespace SmartQ.Lib

namespace Prog

variable {σ ε α β : Type}

/-- Of a run that started with the measure at `used`: it ends well, within `c`. -/
structure Pays (μ : σ → ℕ) (fine : ε → Prop) (used c : ℕ) (Q : α → σ → Prop)
    (run : Option (Except ε α × σ)) : Prop where
  ends : ∃ r s, run = some (r, s)
  exits : ∀ e s, run = some (.error e, s) → fine e
  returns : ∀ a s, run = some (.ok a, s) → Q a s ∧ μ s ≤ used + c

/-- From a state of `P` with `c` left below `limit`, `x` ends well, within `c`. -/
def Spends (μ : σ → ℕ) (limit : ℕ) (fine : ε → Prop) (P : σ → Prop) (c : ℕ) (x : Prog σ ε α)
    (Q : α → σ → Prop) : Prop :=
  ∀ s, P s → μ s + c ≤ limit → Pays μ fine (μ s) c Q (x s)

namespace Spends

variable {μ : σ → ℕ} {limit : ℕ} {fine : ε → Prop} {P P' : σ → Prop} {c d : ℕ} {x : Prog σ ε α}
  {Q Q' : α → σ → Prop}

/-- From a run that returns. -/
theorem of_ok (h : ∀ s, P s → μ s + c ≤ limit →
    ∃ a s', x s = some (.ok a, s') ∧ Q a s' ∧ μ s' ≤ μ s + c) :
    Spends μ limit fine P c x Q := by
  intro s hs hroom
  obtain ⟨a, s', hrun, hq, hle⟩ := h s hs hroom
  rw [hrun]
  refine ⟨⟨_, _, rfl⟩, fun e s1 heq => ?_, fun b s1 heq => ?_⟩
  · cases heq
  · cases heq
    exact ⟨hq, hle⟩

/-- From a run that exits. -/
theorem of_error (h : ∀ s, P s → μ s + c ≤ limit → ∃ e s', x s = some (.error e, s') ∧ fine e) :
    Spends μ limit fine P c x Q := by
  intro s hs hroom
  obtain ⟨e, s', hrun, he⟩ := h s hs hroom
  rw [hrun]
  refine ⟨⟨_, _, rfl⟩, fun b s1 heq => ?_, fun b s1 heq => ?_⟩
  · cases heq
    exact he
  · cases heq

theorem ret (a : α) (h : ∀ s, P s → Q a s) : Spends μ limit fine P 0 (pure a) Q :=
  of_ok fun s hs _ => ⟨a, s, rfl, h s hs, le_refl _⟩

theorem get_bind {f : σ → Prog σ ε β} {R : β → σ → Prop}
    (h : ∀ t, P t → Spends μ limit fine P c (f t) R) :
    Spends μ limit fine P c (Prog.get >>= f) R := by
  intro s hs hroom
  rw [Prog.get_bind]
  exact h s hs s hs hroom

theorem modify {f : σ → σ} {Q : Unit → σ → Prop} (h : ∀ s, P s → Q () (f s) ∧ μ (f s) ≤ μ s) :
    Spends μ limit fine P 0 (Prog.modify f) Q :=
  of_ok fun s hs _ => ⟨(), f s, rfl, h s hs⟩

theorem exit {e : ε} (he : fine e) : Spends μ limit fine P c (Prog.exit e) Q :=
  of_error fun s _ _ => ⟨e, s, rfl, he⟩

theorem exitIf {b : Prop} [Decidable b] {e : ε} (he : fine e) :
    Spends μ limit fine P 0 (Prog.exitIf b e) fun _ s => P s ∧ ¬ b := by
  unfold Prog.exitIf
  split_ifs with hb
  · exact exit he
  · exact ret () fun s hs => ⟨hs, hb⟩

theorem bind {f : α → Prog σ ε β} {R : β → σ → Prop} (hx : Spends μ limit fine P c x Q)
    (hf : ∀ a, Spends μ limit fine (Q a) d (f a) R) :
    Spends μ limit fine P (c + d) (x >>= f) R := by
  intro s hs hroom
  obtain ⟨⟨r, s1, hrun⟩, hexits, hreturns⟩ := hx s hs (by omega)
  rcases r with e | a
  · rw [bind_error hrun]
    refine ⟨⟨_, _, rfl⟩, fun b s2 heq => ?_, fun b s2 heq => ?_⟩
    · cases heq
      exact hexits e s1 hrun
    · cases heq
  · obtain ⟨hq, hle⟩ := hreturns a s1 hrun
    rw [bind_ok hrun]
    obtain ⟨hends, hexits1, hreturns1⟩ := hf a s1 hq (by omega)
    refine ⟨hends, hexits1, fun b s2 hb => ?_⟩
    obtain ⟨hr, hle1⟩ := hreturns1 b s2 hb
    exact ⟨hr, by omega⟩

theorem conseq (h : Spends μ limit fine P c x Q) (hP : ∀ s, P' s → P s)
    (hQ : ∀ a s, Q a s → Q' a s) (hc : c ≤ d) : Spends μ limit fine P' d x Q' := by
  intro s hs hroom
  obtain ⟨hends, hexits, hreturns⟩ := h s (hP s hs) (by omega)
  refine ⟨hends, hexits, fun a s1 hrun => ?_⟩
  obtain ⟨hq, hle⟩ := hreturns a s1 hrun
  exact ⟨hQ a s1 hq, by omega⟩

theorem post (h : Spends μ limit fine P c x Q) (hQ : ∀ a s, Q a s → Q' a s) :
    Spends μ limit fine P c x Q' :=
  h.conseq (fun _ hs => hs) hQ (le_refl c)

theorem within (h : Spends μ limit fine P c x Q) (hc : c ≤ d) : Spends μ limit fine P d x Q :=
  h.conseq (fun _ hs => hs) (fun _ _ hq => hq) hc

/-- Behind a fragment that takes nothing. -/
theorem bind_free {f : α → Prog σ ε β} {R : β → σ → Prop} (hx : Spends μ limit fine P 0 x Q)
    (hf : ∀ a, Spends μ limit fine (Q a) d (f a) R) :
    Spends μ limit fine P d (x >>= f) R :=
  (hx.bind hf).within (Nat.zero_add d).le

/-- A part of the precondition that says nothing of the state. -/
theorem given {p : Prop} (h : p → Spends μ limit fine P c x Q) :
    Spends μ limit fine (fun s => P s ∧ p) c x Q :=
  fun s hs hroom => h hs.2 s hs.1 hroom

/-- What every run of the fragment leaves alone. -/
theorem frame {R : σ → σ → Prop} (h : Spends μ limit fine P c x Q) (hR : Steps R x)
    (hP : ∀ s s', P s → R s s' → P' s') : Spends μ limit fine P c x fun a s => Q a s ∧ P' s := by
  intro s hs hroom
  obtain ⟨hends, hexits, hreturns⟩ := h s hs hroom
  refine ⟨hends, hexits, fun a s1 hrun => ?_⟩
  obtain ⟨hq, hle⟩ := hreturns a s1 hrun
  exact ⟨⟨hq, hP s s1 hs (hR s _ s1 hrun)⟩, hle⟩

theorem ite {b : Prop} [Decidable b] {y : Prog σ ε α}
    (hx : b → Spends μ limit fine P c x Q) (hy : ¬ b → Spends μ limit fine P c y Q) :
    Spends μ limit fine P c (if b then x else y) Q := by
  split_ifs with hb
  · exact hx hb
  · exact hy hb

/-- Another measure, which the first one bounds on both sides. -/
theorem measure {ν : σ → ℕ} {k : ℕ} (h : Spends μ limit fine P c x Q)
    (hle : ∀ s, P s → μ s ≤ ν s + k) (hge : ∀ a s, Q a s → ν s ≤ μ s) :
    Spends ν limit fine P (c + k) x Q := by
  intro s hs hroom
  have hstart := hle s hs
  obtain ⟨hends, hexits, hreturns⟩ := h s hs (by omega)
  refine ⟨hends, hexits, fun a s1 hrun => ?_⟩
  obtain ⟨hq, hused⟩ := hreturns a s1 hrun
  have hend := hge a s1 hq
  exact ⟨hq, by omega⟩

end Spends

end Prog

end SmartQ.Lib
