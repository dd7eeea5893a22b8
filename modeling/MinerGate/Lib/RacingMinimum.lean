import Mathlib.Data.List.Nodup
import Mathlib.Logic.Function.Basic
import Mathlib.Order.Lattice
import MinerGate.Lib.Transition

/-!
# A minimum that threads race for

Each thread loads a cell and then, in a step of its own, stores its value there if that is less than
what it has loaded. Which value is left depends on the order of the steps.
-/

namespace RacingMinimum

set_option autoImplicit false

open Transition

universe u v
variable {ι : Type u} {α : Type v}

inductive Phase (α : Type v) where
  | ready
  | loaded (seen : α)
  | done
deriving DecidableEq

structure Race (ι : Type u) (α : Type v) where
  cell : α
  phase : ι → Phase α

inductive Event (ι : Type u) where
  | load (i : ι)
  | store (i : ι)
deriving DecidableEq

def Race.Over (s : Race ι α) : Prop := ∀ i, s.phase i = .done

/-- The race of the threads that take part, before their first step. -/
def start (init : α) (takesPart : ι → Prop) [DecidablePred takesPart] : Race ι α where
  cell := init
  phase i := if takesPart i then .ready else .done

variable [DecidableEq ι] [LinearOrder α]

def step (value : ι → α) (s : Race ι α) : Event ι → Option (Race ι α)
  | .load i =>
    match s.phase i with
    | .ready => some { s with phase := Function.update s.phase i (.loaded s.cell) }
    | _ => none
  | .store i =>
    match s.phase i with
    | .loaded seen =>
      some ⟨if value i < seen then value i else s.cell, Function.update s.phase i .done⟩
    | _ => none

theorem step_cases {value : ι → α} {s t : Race ι α} {e : Event ι} (h : step value s e = some t) :
    (∃ i, e = .load i ∧ s.phase i = .ready ∧
      t = { s with phase := Function.update s.phase i (.loaded s.cell) }) ∨
    ∃ i seen, e = .store i ∧ s.phase i = .loaded seen ∧
      t = ⟨if value i < seen then value i else s.cell, Function.update s.phase i .done⟩ := by
  cases e with
  | load i =>
    simp only [step] at h
    split at h
    case h_1 hphase =>
      cases h
      exact Or.inl ⟨i, rfl, hphase, rfl⟩
    case h_2 => cases h
  | store i =>
    simp only [step] at h
    split at h
    case h_1 seen hphase =>
      cases h
      exact Or.inr ⟨i, seen, rfl, hphase, rfl⟩
    case h_2 => cases h

/-- The cell has its first value or that of a thread below it. While it has its first value, every
thread has seen that one and no thread below it is done. -/
structure Fair (value : ι → α) (init : α) (takesPart : ι → Prop) (s : Race ι α) : Prop where
  cell : s.cell = init ∨ ∃ i, takesPart i ∧ value i < init ∧ s.cell = value i
  part : ∀ i, s.phase i ≠ .done → takesPart i
  seen : ∀ i seen, s.phase i = .loaded seen → seen ≤ init ∧ (s.cell = init → seen = init)
  waits : s.cell = init → ∀ i, takesPart i → value i < init → s.phase i ≠ .done

section Fair
variable {value : ι → α} {s t : Race ι α} {e : Event ι} {es : List (Event ι)} {init : α}
  {takesPart : ι → Prop} {i : ι}

theorem Fair.load (hs : Fair value init takesPart s) (hi : s.phase i = .ready) :
    Fair value init takesPart { s with phase := Function.update s.phase i (.loaded s.cell) } := by
  have hpart : takesPart i := hs.part i (by simp [hi])
  constructor
  · exact hs.cell
  · intro j hj
    by_cases hji : j = i
    · exact hji ▸ hpart
    · simp only [Function.update_of_ne hji] at hj
      exact hs.part j hj
  · intro j seen hj
    by_cases hji : j = i
    · simp only [hji, Function.update_self, Phase.loaded.injEq] at hj
      rw [← hj]
      refine ⟨?_, id⟩
      rcases hs.cell with heq | ⟨k, -, hlt, heq⟩
      · exact heq.le
      · exact heq ▸ hlt.le
    · simp only [Function.update_of_ne hji] at hj
      exact hs.seen j seen hj
  · intro hcell j hj hlt
    by_cases hji : j = i
    · simp [hji]
    · simp only [Function.update_of_ne hji]
      exact hs.waits hcell j hj hlt

theorem Fair.store {seen : α} (hs : Fair value init takesPart s)
    (hi : s.phase i = .loaded seen) : Fair value init takesPart
      ⟨if value i < seen then value i else s.cell, Function.update s.phase i .done⟩ := by
  have hpart : takesPart i := hs.part i (by simp [hi])
  obtain ⟨hle, hfirst⟩ := hs.seen i seen hi
  have hcell : (if value i < seen then value i else s.cell) = init →
      s.cell = init ∧ ¬ value i < init := by
    intro h
    split at h
    case isTrue hlt => exact absurd (hlt.trans_le hle) (h ▸ lt_irrefl _)
    case isFalse hlt => exact ⟨h, hfirst h ▸ hlt⟩
  constructor
  · simp only
    split
    case isTrue hlt => exact Or.inr ⟨i, hpart, hlt.trans_le hle, rfl⟩
    case isFalse => exact hs.cell
  · intro j hj
    by_cases hji : j = i
    · exact hji ▸ hpart
    · simp only [Function.update_of_ne hji] at hj
      exact hs.part j hj
  · intro j seen hj
    by_cases hji : j = i
    · simp [hji] at hj
    · simp only [Function.update_of_ne hji] at hj
      obtain ⟨hle, hfirst⟩ := hs.seen j seen hj
      exact ⟨hle, fun h => hfirst (hcell h).1⟩
  · intro h j hj hlt
    obtain ⟨hfirst, hnot⟩ := hcell h
    have hji : j ≠ i := by
      rintro rfl
      exact hnot hlt
    simp only [Function.update_of_ne hji]
    exact hs.waits hfirst j hj hlt

theorem Fair.step (hs : Fair value init takesPart s) (h : RacingMinimum.step value s e = some t) :
    Fair value init takesPart t := by
  obtain ⟨i, -, hi, rfl⟩ | ⟨i, seen, -, hi, rfl⟩ := step_cases h
  · exact hs.load hi
  · exact hs.store hi

variable [DecidablePred takesPart]

omit [DecidableEq ι] in
theorem fair_start : Fair value init takesPart (start init takesPart) := by
  constructor
  · exact Or.inl rfl
  · intro i hi
    by_contra hnot
    exact hi (if_neg hnot)
  · intro i seen h
    simp only [start] at h
    split at h <;> cases h
  · intro _ i hi _
    simp [start, hi]

/-- When the race is over the cell has the value of a thread below its first value, if one takes
part. -/
theorem cell_of_over (hrun : exec (RacingMinimum.step value) (start init takesPart) es = some t)
    (hover : t.Over) :
    (t.cell = init ∧ ∀ i, takesPart i → ¬ value i < init) ∨
      ∃ i, takesPart i ∧ value i < init ∧ t.cell = value i := by
  have hfair : Fair value init takesPart t :=
    exec_invariant_of_step (fun _ _ _ hs h => hs.step h) fair_start hrun
  rcases hfair.cell with hcell | hcell
  · exact Or.inl ⟨hcell, fun i hi hlt => hfair.waits hcell i hi hlt (hover i)⟩
  · exact Or.inr hcell

/-- Threads that run one after the other come to the end of the race. -/
theorem exists_exec (value : ι → α) (is : List ι) (hready : ∀ i ∈ is, s.phase i = .ready)
    (hnodup : is.Nodup) :
    ∃ es t, exec (RacingMinimum.step value) s es = some t ∧ (∀ i ∈ is, t.phase i = .done) ∧
      ∀ i ∉ is, t.phase i = s.phase i := by
  induction is generalizing s with
  | nil => exact ⟨[], s, rfl, by simp, fun _ _ => rfl⟩
  | cons i is ih =>
    obtain ⟨hi, hnodup⟩ := List.nodup_cons.mp hnodup
    have hload : RacingMinimum.step value s (.load i) =
        some { s with phase := Function.update s.phase i (.loaded s.cell) } := by
      simp only [RacingMinimum.step, hready i List.mem_cons_self]
    obtain ⟨u, hu⟩ : ∃ u : Race ι α, u = { s with
        phase := Function.update s.phase i (.loaded s.cell) } := ⟨_, rfl⟩
    have hphase : u.phase i = .loaded s.cell := by rw [hu]; exact Function.update_self _ _ _
    obtain ⟨v, hv⟩ : ∃ v : Race ι α, v = ⟨if value i < s.cell then value i else u.cell,
        Function.update u.phase i .done⟩ := ⟨_, rfl⟩
    have hstore : RacingMinimum.step value u (.store i) = some v := by
      simp only [RacingMinimum.step, hphase, hv]
    have hothers : ∀ j, j ≠ i → v.phase j = s.phase j := by
      intro j hj
      simp only [hv, hu, Function.update_of_ne hj]
    have hdone : v.phase i = .done := by rw [hv]; exact Function.update_self _ _ _
    have hrest : ∀ j ∈ is, v.phase j = .ready := by
      intro j hj
      rw [hothers j (fun heq => hi (heq ▸ hj))]
      exact hready j (List.mem_cons_of_mem i hj)
    obtain ⟨es, t, hrun, hall, hsame⟩ := ih hrest hnodup
    refine ⟨.load i :: .store i :: es, t, ?_, ?_, ?_⟩
    · exact exec_cons.mpr ⟨u, hu ▸ hload, exec_cons.mpr ⟨v, hstore, hrun⟩⟩
    · intro j hj
      rcases List.mem_cons.mp hj with rfl | hj
      · rw [hsame j hi, hdone]
      · exact hall j hj
    · intro j hj
      obtain ⟨hji, hj⟩ := not_or.mp (fun h => hj (List.mem_cons.mpr h))
      rw [hsame j hj, hothers j hji]

theorem exists_over (is : List ι) (hnodup : is.Nodup) (his : ∀ i, i ∈ is ↔ takesPart i) :
    ∃ es t, exec (RacingMinimum.step value) (start init takesPart) es = some t ∧ t.Over := by
  have hready : ∀ i ∈ is, (start init takesPart).phase i = .ready :=
    fun i hi => if_pos ((his i).mp hi)
  obtain ⟨es, t, hrun, hdone, hsame⟩ := exists_exec value is hready hnodup
  refine ⟨es, t, hrun, fun i => ?_⟩
  by_cases hi : i ∈ is
  · exact hdone i hi
  · rw [hsame i hi]
    exact if_neg fun h => hi ((his i).mpr h)

end Fair

end RacingMinimum
