import SmartQ.Lib.Prog

/-!
# Programs with a limit on a resource

A family of fragments over a limit `e`, such as the size of a pool: `used` is what a
state has taken of the resource, `full` the exit behind the limit.

* `Prog.Limited`: a run that ends under some limit is the run under every limit it
  stays below, and every other limit stops it with `full`.
-/

namespace SmartQ.Lib

namespace Prog

variable {σ ε α β : Type}

/-- What a run that ends regularly says about the runs under other limits. `Regular`
    excludes `full`, and exits behind which nothing is known. -/
def Limited (used : σ → ℕ) (full : ε) (Regular : ε → Prop) (x : ℕ → Prog σ ε α) : Prop :=
  ∀ e s r s', x e s = some (r, s') → (∀ b, r = .error b → Regular b) →
    used s ≤ used s' ∧ ∀ e', used s ≤ e' →
      (used s' ≤ e' → x e' s = some (r, s')) ∧
      (e' < used s' → ∃ s'', x e' s = some (.error full, s''))

section Limited

variable {used : σ → ℕ} {full : ε} {Regular : ε → Prop}

/-- A fragment that takes nothing. -/
theorem Limited.const {x : Prog σ ε α} (h : Steps (fun s s' => used s' = used s) x) :
    Limited used full Regular fun _ => x := by
  intro e s r s' hrun _
  have hused : used s' = used s := h s r s' hrun
  exact ⟨hused.ge, fun e' he => ⟨fun _ => hrun, fun hlt => absurd he (by omega)⟩⟩

theorem Limited.ret (a : α) : Limited used full Regular fun _ => (pure a : Prog σ ε α) := by
  apply Limited.const
  rintro s r s' ⟨⟩
  rfl

theorem Limited.get : Limited used full Regular fun _ => (Prog.get : Prog σ ε σ) := by
  apply Limited.const
  rintro s r s' ⟨⟩
  rfl

theorem Limited.exit (b : ε) : Limited used full Regular fun _ => (Prog.exit b : Prog σ ε α) := by
  apply Limited.const
  rintro s r s' ⟨⟩
  rfl

theorem Limited.exitIf (c : Prop) [Decidable c] (b : ε) :
    Limited used full Regular fun _ => (Prog.exitIf c b : Prog σ ε Unit) := by
  unfold Prog.exitIf
  split_ifs
  · exact Limited.exit b
  · exact Limited.ret ()

theorem Limited.stuck : Limited used full Regular fun _ => (Prog.stuck : Prog σ ε α) :=
  Limited.const Steps.stuck

theorem Limited.modify {f : σ → σ} (h : ∀ s, used (f s) = used s) :
    Limited used full Regular fun _ => (Prog.modify f : Prog σ ε Unit) :=
  Limited.const (Steps.modify h)

theorem Limited.bind {x : ℕ → Prog σ ε α} {f : ℕ → α → Prog σ ε β}
    (hx : Limited used full Regular x) (hf : ∀ a, Limited used full Regular fun e => f e a) :
    Limited used full Regular fun e => x e >>= f e := by
  intro e s r s'' hrun hr
  rcases bind_eq_some.mp hrun with ⟨b, hb, rfl⟩ | ⟨a, s', ha, hb⟩
  · obtain ⟨hle, hother⟩ := hx e s _ s'' hb fun b' hb' => hr b' (by cases hb'; rfl)
    refine ⟨hle, fun e' he => ⟨fun hin => bind_error ((hother e' he).1 hin), fun hlt => ?_⟩⟩
    obtain ⟨s3, hfull⟩ := (hother e' he).2 hlt
    exact ⟨s3, bind_error hfull⟩
  · obtain ⟨hle, hother⟩ := hx e s _ s' ha fun b hb => by cases hb
    obtain ⟨hle', hother'⟩ := hf a e s' r s'' hb hr
    refine ⟨hle.trans hle', fun e' he => ⟨fun hin => ?_, fun hlt => ?_⟩⟩
    · exact (bind_ok ((hother e' he).1 (hle'.trans hin))).trans
        ((hother' e' (hle'.trans hin)).1 hin)
    · by_cases hmid : used s' ≤ e'
      · obtain ⟨s3, hfull⟩ := (hother' e' hmid).2 hlt
        exact ⟨s3, (bind_ok ((hother e' he).1 hmid)).trans hfull⟩
      · obtain ⟨s3, hfull⟩ := (hother e' he).2 (by omega)
        exact ⟨s3, bind_error hfull⟩

theorem Limited.ite {c : Prop} [Decidable c] {x y : ℕ → Prog σ ε α}
    (hx : Limited used full Regular x) (hy : Limited used full Regular y) :
    Limited used full Regular fun e => if c then x e else y e := by
  by_cases hc : c
  · simp only [if_pos hc]
    exact hx
  · simp only [if_neg hc]
    exact hy

end Limited

end Prog

end SmartQ.Lib
