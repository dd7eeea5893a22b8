import Mathlib.Data.List.Basic

/-!
# Readers that store a default

A reader returns the value that it finds for a key. Where it finds none, it stores a value and
returns one, and a later reader may find what was stored. The reads of a run are stable exactly when
every key that is read is steady at the start: a value that is found is the one that is stored, and
a default that is returned is the one that is stored with it.
-/

set_option autoImplicit false

universe u v w

/-- `load` is the value that is stored and counts as one, `find` the one that a reader finds. -/
structure ReadThrough (σ : Type u) (κ : Type v) (α : Type w) where
  find : σ → κ → Option α
  load : σ → κ → Option α
  save : σ → κ → σ
  returned : κ → α
  saved : κ → α

namespace ReadThrough
variable {σ : Type u} {κ : Type v} {α : Type w}

def get (R : ReadThrough σ κ α) (s : σ) (k : κ) : α × σ :=
  match R.find s k with
  | some v => (v, s)
  | none => (R.returned k, R.save s k)

/-- The keys with what is returned for them, and the state after the reads. -/
def readAll (read : σ → κ → α × σ) : σ → List κ → List (κ × α) × σ
  | s, [] => ([], s)
  | s, k :: ks =>
    let r := readAll read (read s k).2 ks
    ((k, (read s k).1) :: r.1, r.2)

/-- All reads of a key return one value: the one that was stored before, if there was one, and the
one that is stored afterwards. -/
structure Stable (load : σ → κ → Option α) (s : σ) (results : List (κ × α)) (t : σ) : Prop where
  same : ∀ k v w, (k, v) ∈ results → (k, w) ∈ results → v = w
  before : ∀ k v u, (k, v) ∈ results → load s k = some u → v = u
  after : ∀ k v, (k, v) ∈ results → load t k = some v

/-- Saving a default stores it and concerns no other key. -/
structure Lawful (R : ReadThrough σ κ α) : Prop where
  load_save_self : ∀ s k, R.load (R.save s k) k = some (R.saved k)
  load_save_ne : ∀ s {k k'}, k' ≠ k → R.load (R.save s k) k' = R.load s k'
  find_save_self : ∀ s {k}, R.find s k = none →
    R.find (R.save s k) k = none ∨ R.find (R.save s k) k = some (R.saved k)
  find_save_ne : ∀ s {k k'}, k' ≠ k → R.find (R.save s k) k' = R.find s k'

variable {R : ReadThrough σ κ α} {s : σ} {k k' : κ} {ks : List κ} {v : α}

/-- The condition on a key in the state before the reads. -/
def Steady (R : ReadThrough σ κ α) (s : σ) (k : κ) : Prop :=
  match R.find s k with
  | some v => R.load s k = some v
  | none => R.returned k = R.saved k ∧ ∀ u, R.load s k = some u → u = R.saved k

/-- The default stands in the store, and a reader finds it or nothing. -/
structure Filled (R : ReadThrough σ κ α) (s : σ) (k : κ) : Prop where
  load : R.load s k = some (R.saved k)
  find : R.find s k = none ∨ R.find s k = some (R.saved k)

theorem get_of_find (h : R.find s k = some v) : R.get s k = (v, s) := by
  rw [get, h]

theorem get_of_none (h : R.find s k = none) : R.get s k = (R.returned k, R.save s k) := by
  rw [get, h]

theorem steady_of_find (h : R.find s k = some v) : R.Steady s k ↔ R.load s k = some v := by
  rw [Steady, h]

theorem steady_of_none (h : R.find s k = none) :
    R.Steady s k ↔ R.returned k = R.saved k ∧ ∀ u, R.load s k = some u → u = R.saved k := by
  rw [Steady, h]

/-- A key whose stored value is the one that is found, and its default the one that is saved. -/
theorem steady_of_find_eq (h : R.find s k = R.load s k) (hdefault : R.returned k = R.saved k) :
    R.Steady s k := by
  cases hload : R.load s k with
  | some v => exact (steady_of_find (h.trans hload)).mpr hload
  | none =>
    refine (steady_of_none (h.trans hload)).mpr ⟨hdefault, fun u hu => ?_⟩
    rw [hload] at hu
    cases hu

theorem mem_readAll_cons {read : σ → κ → α × σ} :
    (k, v) ∈ (readAll read s (k' :: ks)).1 ↔
      (k = k' ∧ v = (read s k').1) ∨ (k, v) ∈ (readAll read (read s k').2 ks).1 := by
  rw [readAll, List.mem_cons, Prod.mk.injEq]

theorem mem_readAll_of_mem {read : σ → κ → α × σ} (h : k ∈ ks) :
    ∃ v, (k, v) ∈ (readAll read s ks).1 := by
  induction ks generalizing s with
  | nil => cases h
  | cons k' ks ih =>
    rcases List.mem_cons.mp h with heq | hmem
    · exact ⟨_, mem_readAll_cons.mpr (Or.inl ⟨heq, rfl⟩)⟩
    · obtain ⟨v, hv⟩ := ih (s := (read s k').2) hmem
      exact ⟨v, mem_readAll_cons.mpr (Or.inr hv)⟩

theorem mem_of_mem_readAll {read : σ → κ → α × σ} (h : (k, v) ∈ (readAll read s ks).1) :
    k ∈ ks := by
  induction ks generalizing s with
  | nil => cases h
  | cons k' ks ih =>
    rcases mem_readAll_cons.mp h with ⟨heq, -⟩ | hmem
    · rw [heq]
      exact List.mem_cons_self
    · exact List.mem_cons_of_mem _ (ih hmem)

section Laws
variable (hR : R.Lawful)
include hR

/-- A read of one key changes nothing for another. -/
theorem get_ne (h : k' ≠ k) :
    R.find (R.get s k).2 k' = R.find s k' ∧ R.load (R.get s k).2 k' = R.load s k' := by
  cases hfind : R.find s k with
  | some v =>
    rw [get_of_find hfind]
    exact ⟨rfl, rfl⟩
  | none =>
    rw [get_of_none hfind]
    exact ⟨hR.find_save_ne s h, hR.load_save_ne s h⟩

theorem filled_save (h : R.find s k = none) : R.Filled (R.save s k) k :=
  ⟨hR.load_save_self s k, hR.find_save_self s h⟩

/-- A key that is filled stays so. -/
theorem filled_get (k' : κ) (h : R.Filled s k) : R.Filled (R.get s k').2 k := by
  by_cases heq : k = k'
  · rw [← heq]
    rcases h.find with hfind | hfind
    · rw [get_of_none hfind]
      exact filled_save hR hfind
    · rw [get_of_find hfind]
      exact h
  · obtain ⟨hfind, hload⟩ := get_ne hR (s := s) heq
    exact ⟨hload.trans h.load, hfind ▸ h.find⟩

/-- What the reads return for a key that is found. -/
theorem readAll_of_find (ks : List κ) (h : R.find s k = some v) :
    (∀ u, (k, u) ∈ (readAll R.get s ks).1 → u = v) ∧
      R.load (readAll R.get s ks).2 k = R.load s k := by
  induction ks generalizing s with
  | nil => exact ⟨fun u hu => (by cases hu), rfl⟩
  | cons k' ks ih =>
    by_cases heq : k = k'
    · subst heq
      obtain ⟨hall, hload⟩ := ih h
      rw [readAll, get_of_find h]
      refine ⟨fun u hu => ?_, hload⟩
      rcases List.mem_cons.mp hu with hu | hu
      · cases hu
        rfl
      · exact hall u hu
    · obtain ⟨hfind, hload⟩ := get_ne hR (s := s) heq
      obtain ⟨hall, hload'⟩ := ih (hfind.trans h)
      refine ⟨fun u hu => ?_, hload'.trans hload⟩
      rcases mem_readAll_cons.mp hu with ⟨hk, -⟩ | hu
      · exact absurd hk heq
      · exact hall u hu

/-- What they return for a key that is filled. -/
theorem readAll_of_filled (ks : List κ) (h : R.Filled s k) :
    (∀ u, (k, u) ∈ (readAll R.get s ks).1 → u = R.returned k ∨ u = R.saved k) ∧
      R.load (readAll R.get s ks).2 k = some (R.saved k) := by
  induction ks generalizing s with
  | nil => exact ⟨fun u hu => (by cases hu), h.load⟩
  | cons k' ks ih =>
    obtain ⟨hall, hload⟩ := ih (filled_get hR k' h)
    refine ⟨fun u hu => ?_, hload⟩
    rcases mem_readAll_cons.mp hu with ⟨hk, hu⟩ | hu
    · subst hk
      rcases h.find with hfind | hfind
      · rw [get_of_none hfind] at hu
        exact Or.inl hu
      · rw [get_of_find hfind] at hu
        exact Or.inr hu
    · exact hall u hu

/-- What they return for a key that is read and not found: the default at the first read. -/
theorem readAll_of_none (h : R.find s k = none) (hk : k ∈ ks) :
    (k, R.returned k) ∈ (readAll R.get s ks).1 ∧
      (∀ u, (k, u) ∈ (readAll R.get s ks).1 → u = R.returned k ∨ u = R.saved k) ∧
        R.load (readAll R.get s ks).2 k = some (R.saved k) := by
  induction ks generalizing s with
  | nil => cases hk
  | cons k' ks ih =>
    by_cases heq : k = k'
    · subst heq
      obtain ⟨hall, hload⟩ := readAll_of_filled hR ks (filled_save hR h)
      rw [readAll, get_of_none h]
      refine ⟨List.mem_cons_self, fun u hu => ?_, hload⟩
      rcases List.mem_cons.mp hu with hu | hu
      · cases hu
        exact Or.inl rfl
      · exact hall u hu
    · have hmem : k ∈ ks := (List.mem_cons.mp hk).resolve_left heq
      obtain ⟨hfirst, hall, hload⟩ := ih ((get_ne hR heq).1.trans h) hmem
      refine ⟨mem_readAll_cons.mpr (Or.inr hfirst), fun u hu => ?_, hload⟩
      rcases mem_readAll_cons.mp hu with ⟨hk, -⟩ | hu
      · exact absurd hk heq
      · exact hall u hu

/-- A steady key has one value in all reads. -/
theorem value_of_steady (h : R.Steady s k) (hk : k ∈ ks) :
    ∃ v, (∀ u, (k, u) ∈ (readAll R.get s ks).1 → u = v) ∧
      R.load (readAll R.get s ks).2 k = some v ∧ ∀ u, R.load s k = some u → u = v := by
  cases hfind : R.find s k with
  | some v =>
    have hstored := (steady_of_find hfind).mp h
    obtain ⟨hall, hload⟩ := readAll_of_find hR ks hfind
    refine ⟨v, hall, hload.trans hstored, fun u hu => ?_⟩
    rw [hstored, Option.some.injEq] at hu
    exact hu.symm
  | none =>
    obtain ⟨hdefault, hstored⟩ := (steady_of_none hfind).mp h
    obtain ⟨-, hall, hload⟩ := readAll_of_none hR hfind hk
    refine ⟨R.saved k, fun u hu => ?_, hload, hstored⟩
    rcases hall u hu with hu | hu
    · exact hu.trans hdefault
    · exact hu

theorem steady_of_stable
    (h : Stable R.load s (readAll R.get s ks).1 (readAll R.get s ks).2) (hk : k ∈ ks) :
    R.Steady s k := by
  cases hfind : R.find s k with
  | some v =>
    apply (steady_of_find hfind).mpr
    obtain ⟨hall, hload⟩ := readAll_of_find hR ks hfind
    obtain ⟨u, hu⟩ : ∃ u, (k, u) ∈ (readAll R.get s ks).1 := mem_readAll_of_mem hk
    rw [← hload, ← hall u hu]
    exact h.after k u hu
  | none =>
    apply (steady_of_none hfind).mpr
    obtain ⟨hfirst, -, hload⟩ := readAll_of_none hR hfind hk
    have hsame : R.returned k = R.saved k := by
      have hafter := h.after k _ hfirst
      rw [hload, Option.some.injEq] at hafter
      exact hafter.symm
    refine ⟨hsame, fun u hu => ?_⟩
    rw [← h.before k _ u hfirst hu, hsame]

/-- The rule for stable reads. -/
theorem stable_readAll_iff :
    Stable R.load s (readAll R.get s ks).1 (readAll R.get s ks).2 ↔ ∀ k ∈ ks, R.Steady s k := by
  constructor
  · intro h k hk
    exact steady_of_stable hR h hk
  · intro h
    have hvalue : ∀ k v, (k, v) ∈ (readAll R.get s ks).1 →
        ∃ w, (∀ u, (k, u) ∈ (readAll R.get s ks).1 → u = w) ∧
          R.load (readAll R.get s ks).2 k = some w ∧ ∀ u, R.load s k = some u → u = w := by
      intro k v hv
      have hk := mem_of_mem_readAll hv
      exact value_of_steady hR (h k hk) hk
    constructor
    · intro k v w hv hw
      obtain ⟨u, hall, -⟩ := hvalue k v hv
      exact (hall v hv).trans (hall w hw).symm
    · intro k v u hv hu
      obtain ⟨w, hall, -, hbefore⟩ := hvalue k v hv
      exact (hall v hv).trans (hbefore u hu).symm
    · intro k v hv
      obtain ⟨w, hall, hafter, -⟩ := hvalue k v hv
      rw [hall v hv]
      exact hafter

end Laws

end ReadThrough
