import MinerGate.Lib.Transition

/-!
# Simulation of runs with events left out

The second system follows the first one but takes no step where the first one takes one of
its own.
-/

namespace Transition

set_option autoImplicit false

universe u v w
variable {σ : Type u} {τ : Type v} {ε : Type w}

/-- Along a step of the first system the second one takes the same step, or stands still on an event
that is `own`. -/
structure Follows (first : σ → ε → Option σ) (second : τ → ε → Option τ) (C : σ → ε → Prop)
    (own : ε → Bool) (R : σ → τ → Prop) : Prop where
  step : ∀ s e t s', R s s' → C s e → first s e = some t →
    (own e = true ∧ R t s') ∨ ∃ t', second s' e = some t' ∧ R t t'

variable {first : σ → ε → Option σ} {second : τ → ε → Option τ} {C : σ → ε → Prop}
  {own : ε → Bool} {R : σ → τ → Prop} {s t : σ} {s' : τ} {es : List ε}

/-- Every run is followed by one on a part of its events, among them all that are not `own`. -/
theorem Follows.exec (h : Follows first second C own R) (hR : R s s')
    (hC : Along first C s es) (hrun : exec first s es = some t) :
    ∃ es' t', es'.Sublist es ∧ es'.filter (!own ·) = es.filter (!own ·) ∧
      Transition.exec second s' es' = some t' ∧ R t t' := by
  induction es generalizing s s' with
  | nil =>
    rw [exec_nil, Option.some.injEq] at hrun
    exact ⟨[], s', .slnil, rfl, rfl, hrun ▸ hR⟩
  | cons e es ih =>
    obtain ⟨m, hm, hrun⟩ := exec_cons.mp hrun
    obtain ⟨hc, hC⟩ := (along_cons hm).mp hC
    rcases h.step s e m s' hR hc hm with ⟨hown, hR⟩ | ⟨m', hm', hR⟩
    · obtain ⟨es', t', hsub, hfilter, hrun', hR⟩ := ih hR hC hrun
      refine ⟨es', t', hsub.cons e, ?_, hrun', hR⟩
      rw [hfilter, List.filter_cons_of_neg (by simp [hown])]
    · obtain ⟨es', t', hsub, hfilter, hrun', hR⟩ := ih hR hC hrun
      refine ⟨e :: es', t', hsub.cons_cons e, ?_, exec_cons.mpr ⟨m', hm', hrun'⟩, hR⟩
      rw [List.filter_cons, List.filter_cons, hfilter]

end Transition
