import Mathlib.Data.List.Basic
import Mathlib.Order.Basic

/-!
# Runs of a partial step function

`step s e = none` says that the event `e` is not enabled in `s`. A run is a list of
events, oldest first. The rules below carry an invariant from one step to a whole
run, also where the step needs a side condition that every step of the run meets.
-/

namespace Transition

set_option autoImplicit false

universe u v
variable {σ : Type u} {ε : Type v}

/-- The state after the events `es`; `none` when one of them is not enabled. -/
def exec (step : σ → ε → Option σ) : σ → List ε → Option σ
  | s, [] => some s
  | s, e :: es => (step s e).bind fun t => exec step t es

/-- Every step of the run meets `C`, a condition on the state before it and its event. -/
def Along (step : σ → ε → Option σ) (C : σ → ε → Prop) : σ → List ε → Prop
  | _, [] => True
  | s, e :: es => C s e ∧ ∀ t ∈ step s e, Along step C t es

instance decidableAlong {step : σ → ε → Option σ} {C : σ → ε → Prop}
    [∀ s e, Decidable (C s e)] : ∀ s es, Decidable (Along step C s es)
  | _, [] => .isTrue trivial
  | s, e :: es =>
    haveI : DecidablePred fun t => Along step C t es := fun t => decidableAlong t es
    inferInstanceAs (Decidable (C s e ∧ ∀ t ∈ step s e, Along step C t es))

variable {step : σ → ε → Option σ} {C D : σ → ε → Prop} {s t u : σ} {e : ε} {es fs : List ε}

@[simp] theorem exec_nil : exec step s [] = some s := rfl

theorem exec_cons : exec step s (e :: es) = some u ↔
    ∃ t, step s e = some t ∧ exec step t es = some u := by
  simp [exec, Option.bind_eq_some_iff]

theorem exec_append : exec step s (es ++ fs) = some u ↔
    ∃ t, exec step s es = some t ∧ exec step t fs = some u := by
  induction es generalizing s with
  | nil => simp
  | cons e es ih =>
    rw [List.cons_append, exec_cons]
    constructor
    · rintro ⟨t, he, h⟩
      obtain ⟨m, hm, hu⟩ := ih.mp h
      exact ⟨m, exec_cons.mpr ⟨t, he, hm⟩, hu⟩
    · rintro ⟨m, h, hu⟩
      obtain ⟨t, he, hm⟩ := exec_cons.mp h
      exact ⟨t, he, ih.mpr ⟨m, hm, hu⟩⟩

@[simp] theorem along_nil : Along step C s [] := trivial

theorem along_cons (h : step s e = some t) :
    Along step C s (e :: es) ↔ C s e ∧ Along step C t es := by
  constructor
  · intro ⟨hc, ha⟩
    exact ⟨hc, ha t h⟩
  · intro ⟨hc, ha⟩
    refine ⟨hc, fun t' ht' => ?_⟩
    rw [h, Option.mem_some_iff] at ht'
    exact ht' ▸ ha

/-- All along a run: in every state that it comes to, of the event that is next. -/
theorem along_iff_prefix : Along step C s es ↔
    ∀ fs e, fs ++ [e] <+: es → ∀ t, exec step s fs = some t → C t e := by
  induction es generalizing s with
  | nil => simp
  | cons e es ih =>
    constructor
    · rintro ⟨hc, ha⟩ fs e' hfs u hu
      cases fs with
      | nil =>
        rw [List.nil_append, List.cons_prefix_cons] at hfs
        rw [exec_nil, Option.some.injEq] at hu
        rw [hfs.1, ← hu]
        exact hc
      | cons e'' fs =>
        obtain ⟨rfl, hrest⟩ := List.cons_prefix_cons.mp hfs
        obtain ⟨t, ht, hu⟩ := exec_cons.mp hu
        exact ih.mp (ha t ht) fs e' hrest u hu
    · intro h
      refine ⟨h [] e (List.prefix_append [e] es) s rfl, fun t ht => ih.mpr fun fs e' hfs u hu => ?_⟩
      exact h (e :: fs) e' (List.cons_prefix_cons.mpr ⟨rfl, hfs⟩) u (exec_cons.mpr ⟨t, ht, hu⟩)

/-- Events that are made of others are steps that are made of theirs. -/
theorem exec_flatMap {δ : Type*} {f : δ → List ε} {ds : List δ} :
    exec step s (ds.flatMap f) = exec (fun s d => exec step s (f d)) s ds := by
  induction ds generalizing s with
  | nil => rfl
  | cons d ds ih =>
    apply Option.ext
    intro u
    rw [List.flatMap_cons, exec_append, exec_cons]
    simp only [ih]

theorem Along.congr (h : ∀ s e, C s e ↔ D s e) : Along step C s es ↔ Along step D s es := by
  rw [show C = D from funext fun s => funext fun e => propext (h s e)]

theorem Along.and (hC : Along step C s es) (hD : Along step D s es) :
    Along step (fun s e => C s e ∧ D s e) s es := by
  induction es generalizing s with
  | nil => trivial
  | cons e es ih => exact ⟨⟨hC.1, hD.1⟩, fun t ht => ih (hC.2 t ht) (hD.2 t ht)⟩

theorem along_of_forall (h : ∀ s e, C s e) : Along step C s es := by
  induction es generalizing s with
  | nil => trivial
  | cons e es ih => exact ⟨h s e, fun _ _ => ih⟩

theorem along_of_events (h : ∀ e ∈ es, ∀ s, C s e) : Along step C s es := by
  induction es generalizing s with
  | nil => trivial
  | cons e es ih =>
    exact ⟨h e List.mem_cons_self s, fun _ _ => ih fun e' he' => h e' (List.mem_cons_of_mem e he')⟩

/-- A run whose steps are enabled exactly when they meet `C`. -/
theorem exec_isSome (h : ∀ s e, (step s e).isSome ↔ C s e) :
    (exec step s es).isSome ↔ Along step C s es := by
  induction es generalizing s with
  | nil => simp
  | cons e es ih =>
    cases hs : step s e with
    | none =>
      have hc : ¬ C s e := by
        rw [← h, hs]
        exact Bool.false_ne_true
      simp [exec, Along, hs, hc]
    | some t =>
      have hc : C s e := (h s e).mp (by rw [hs]; rfl)
      rw [along_cons hs, exec, hs, Option.bind_some, ih]
      exact ⟨fun h => ⟨hc, h⟩, fun h => h.2⟩

/-- The run rule: what every step that meets `C` preserves holds after every run
all of whose steps meet `C`. -/
theorem exec_invariant {I : σ → Prop} (hstep : ∀ s e t, I s → C s e → step s e = some t → I t)
    (hI : I s) (hC : Along step C s es) (h : exec step s es = some u) : I u := by
  induction es generalizing s with
  | nil =>
    rw [exec_nil, Option.some.injEq] at h
    exact h ▸ hI
  | cons e es ih =>
    obtain ⟨t, he, ht⟩ := exec_cons.mp h
    obtain ⟨hc, ha⟩ := (along_cons he).mp hC
    exact ih (hstep s e t hI hc he) ha ht

/-- The run rule for an invariant that every step preserves. -/
theorem exec_invariant_of_step {I : σ → Prop} (hstep : ∀ s e t, I s → step s e = some t → I t)
    (hI : I s) (h : exec step s es = some u) : I u :=
  exec_invariant (C := fun _ _ => True) (fun s e t hI _ he => hstep s e t hI he) hI
    (along_of_forall fun _ _ => trivial) h

/-- What holds of every step that meets `C` in a state with the invariant holds all along a run
whose steps meet `C`. -/
theorem Along.of_invariant {I : σ → Prop}
    (hstep : ∀ s e t, I s → C s e → step s e = some t → I t) (hD : ∀ s e, I s → C s e → D s e)
    (hI : I s) (hC : Along step C s es) : Along step D s es := by
  induction es generalizing s with
  | nil => trivial
  | cons e es ih =>
    exact ⟨hD s e hI hC.1, fun t ht => ih (hstep s e t hI hC.1 ht) (hC.2 t ht)⟩

/-- A condition that holds wherever an invariant does is met by every step of a run. -/
theorem along_of_invariant {I : σ → Prop} (hstep : ∀ s e t, I s → step s e = some t → I t)
    (hC : ∀ s e, I s → C s e) (hI : I s) : Along step C s es := by
  induction es generalizing s with
  | nil => trivial
  | cons e es ih => exact ⟨hC s e hI, fun t ht => ih (hstep s e t hI ht)⟩

/-- The rule for a condition whose violation leaves a mark: a run that ends without the mark meets
the condition. -/
theorem along_of_unmarked {I M : σ → Prop}
    (hstep : ∀ s e t, I s → D s e → step s e = some t → I t)
    (hmark : ∀ s e t, I s → D s e → ¬ C s e → step s e = some t → M t)
    (hkeep : ∀ s e t, M s → D s e → step s e = some t → M t)
    (hI : I s) (hD : Along step D s es) (h : exec step s es = some u) (hu : ¬ M u) :
    Along step C s es := by
  induction es generalizing s with
  | nil => trivial
  | cons e es ih =>
    obtain ⟨t, he, ht⟩ := exec_cons.mp h
    obtain ⟨hd, hD⟩ := (along_cons he).mp hD
    refine (along_cons he).mpr ⟨?_, ih (hstep s e t hI hd he) hD ht⟩
    by_contra hc
    exact hu (exec_invariant hkeep (hmark s e t hI hd hc he) hD ht)

/-- The rule for a quantity that no step lowers, and that a step keeps exactly when it meets `C`. -/
theorem along_iff_kept {f : σ → Int} (hle : ∀ s e t, step s e = some t → f s ≤ f t)
    (hC : ∀ s e t, step s e = some t → (f t = f s ↔ C s e)) (h : exec step s es = some u) :
    f s ≤ f u ∧ (f u = f s ↔ Along step C s es) := by
  induction es generalizing s with
  | nil =>
    rw [exec_nil, Option.some.injEq] at h
    rw [h]
    exact ⟨Int.le_refl _, iff_of_true rfl trivial⟩
  | cons e es ih =>
    obtain ⟨t, he, ht⟩ := exec_cons.mp h
    obtain ⟨hle', hkept⟩ := ih ht
    have hfirst := hle s e t he
    rw [along_cons he, ← hC s e t he, ← hkept]
    exact ⟨by omega, by omega⟩

/-- The rule for a condition that is exact: the steps of a run meet it if and only if every state
that the run comes to is good. -/
theorem along_iff_reached {I G : σ → Prop}
    (hstep : ∀ s e t, I s → C s e → step s e = some t → I t) (hG : ∀ s, I s → G s)
    (hbad : ∀ s e, I s → ¬ C s e → ∃ t, step s e = some t ∧ ¬ G t) (hI : I s) :
    (∀ fs t, fs <+: es → exec step s fs = some t → G t) ↔ Along step C s es := by
  induction es generalizing s with
  | nil =>
    refine ⟨fun _ => trivial, fun _ fs t hfs hrun => ?_⟩
    rw [List.prefix_nil.mp hfs, exec_nil, Option.some.injEq] at hrun
    exact hG t (hrun ▸ hI)
  | cons e es ih =>
    constructor
    · intro h
      have hc : C s e := by
        by_contra hc
        obtain ⟨t, ht, hnot⟩ := hbad s e hI hc
        refine hnot (h [e] t (List.prefix_append [e] es) ?_)
        exact exec_cons.mpr ⟨t, ht, rfl⟩
      refine ⟨hc, fun t ht => (ih (hstep s e t hI hc ht)).mp fun fs u hfs hrun => ?_⟩
      exact h (e :: fs) u (List.cons_prefix_cons.mpr ⟨rfl, hfs⟩) (exec_cons.mpr ⟨t, ht, hrun⟩)
    · rintro ⟨hc, ha⟩ fs u hfs hrun
      cases fs with
      | nil =>
        rw [exec_nil, Option.some.injEq] at hrun
        exact hG u (hrun ▸ hI)
      | cons e' fs =>
        obtain ⟨rfl, hrest⟩ := List.cons_prefix_cons.mp hfs
        obtain ⟨t, ht, hrun⟩ := exec_cons.mp hrun
        exact (ih (hstep s e' t hI hc ht)).mpr (ha t ht) fs u hrest hrun

section Watch
variable {γ : Type*} {note : σ → ε → γ → γ} {g g' : γ}

/-- The run together with an observer that takes a note of every step: of the state before it and
its event. -/
def watch (step : σ → ε → Option σ) (note : σ → ε → γ → γ) (p : σ × γ) (e : ε) : Option (σ × γ) :=
  (step p.1 e).map fun t => (t, note p.1 e p.2)

theorem watch_eq_some : watch step note (s, g) e = some (t, g') ↔
    step s e = some t ∧ g' = note s e g := by
  rw [watch, Option.map_eq_some_iff]
  constructor
  · rintro ⟨u, hu, heq⟩
    cases heq
    exact ⟨hu, rfl⟩
  · rintro ⟨hu, rfl⟩
    exact ⟨t, hu, rfl⟩

theorem along_watch :
    Along (watch step note) (fun p e => C p.1 e) (s, g) es ↔ Along step C s es := by
  induction es generalizing s g with
  | nil => exact Iff.rfl
  | cons e es ih =>
    constructor
    · intro ⟨hc, ha⟩
      exact ⟨hc, fun t ht => ih.mp (ha _ (watch_eq_some.mpr ⟨ht, rfl⟩))⟩
    · intro ⟨hc, ha⟩
      refine ⟨hc, fun ⟨t, g'⟩ ht => ?_⟩
      exact ih.mpr (ha t (watch_eq_some.mp ht).1)

end Watch

end Transition
