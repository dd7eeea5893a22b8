import Mathlib.Data.Set.Basic

/-!
# Boards of flags

Users put up a flag at each of the places that they have taken. The board keeps the flags apart from
who has taken a place, and is coherent when no place has the flags of two users and the flag of
whoever has taken it is up.
-/

namespace Boards

set_option autoImplicit false

universe u v
variable {κ : Type u} {δ : Type v}

@[ext] structure Board (κ : Type u) (δ : Type v) where
  flag : κ → δ → Prop
  holder : δ → Option κ

namespace Board

open Classical in
noncomputable def take (b : Board κ δ) (k : κ) (ds : Set δ) : Board κ δ :=
  { b with holder := fun d => if d ∈ ds then some k else b.holder d }

open Classical in
noncomputable def leave (b : Board κ δ) (k : κ) (ds : Set δ) : Board κ δ :=
  { b with holder := fun d => if d ∈ ds ∧ b.holder d = some k then none else b.holder d }

def raise (b : Board κ δ) (k : κ) (d : δ) : Board κ δ :=
  { b with flag := fun k' d' => b.flag k' d' ∨ (k' = k ∧ d' = d) }

def lower (b : Board κ δ) (k : κ) (ds : Set δ) : Board κ δ :=
  { b with flag := fun k' d' => b.flag k' d' ∧ ¬ (k' = k ∧ d' ∈ ds) }

/-- A user leaves places and takes down the flags there. -/
noncomputable def release (b : Board κ δ) (k : κ) (ds : Set δ) : Board κ δ :=
  (b.leave k ds).lower k ds

structure Coherent (b : Board κ δ) : Prop where
  one : ∀ k k' d, b.flag k d → b.flag k' d → k = k'
  shown : ∀ k d, b.holder d = some k → b.flag k d

variable {b : Board κ δ} {k k' : κ} {d d' : δ} {ds : Set δ}

theorem release_flag : (b.release k ds).flag k' d ↔ b.flag k' d ∧ ¬ (k' = k ∧ d ∈ ds) := Iff.rfl

theorem leave_holder_ite (b : Board κ δ) (k : κ) (ds : Set δ) (d : δ)
    [Decidable (d ∈ ds ∧ b.holder d = some k)] : (b.leave k ds).holder d =
      if d ∈ ds ∧ b.holder d = some k then none else b.holder d := by
  simp only [leave]
  congr

theorem take_holder_ite (b : Board κ δ) (k : κ) (ds : Set δ) (d : δ) [Decidable (d ∈ ds)] :
    (b.take k ds).holder d = if d ∈ ds then some k else b.holder d := by
  simp only [take]
  congr

theorem leave_holder : (b.leave k ds).holder d = some k' ↔
    b.holder d = some k' ∧ ¬ (k' = k ∧ d ∈ ds) := by
  simp only [leave]
  split
  case isTrue h =>
    constructor
    · intro hnone
      cases hnone
    · rintro ⟨hk', hnot⟩
      rw [h.2, Option.some.injEq] at hk'
      exact absurd ⟨hk'.symm, h.1⟩ hnot
  case isFalse h =>
    constructor
    · intro hk'
      refine ⟨hk', ?_⟩
      rintro ⟨rfl, hd⟩
      exact h ⟨hd, hk'⟩
    · exact And.left

theorem release_holder : (b.release k ds).holder d = some k' ↔
    b.holder d = some k' ∧ ¬ (k' = k ∧ d ∈ ds) := leave_holder

theorem take_holder : (b.take k ds).holder d = some k' ↔
    (d ∈ ds ∧ k' = k) ∨ (d ∉ ds ∧ b.holder d = some k') := by
  simp only [take]
  split
  case isTrue h => simp [h, eq_comm]
  case isFalse h => simp [h]

/-- Who has taken none of the places and has no flag there changes nothing. -/
theorem release_eq_self (h : ∀ d ∈ ds, ¬ b.flag k d ∧ b.holder d ≠ some k) : b.release k ds = b := by
  ext k' d
  · rw [release_flag]
    refine and_iff_left_of_imp fun hflag => ?_
    rintro ⟨rfl, hd⟩
    exact (h d hd).1 hflag
  · rw [release_holder]
    refine and_iff_left_of_imp fun hold => ?_
    rintro ⟨rfl, hd⟩
    exact (h _ hd).2 hold

theorem Coherent.release (h : b.Coherent) : (b.release k ds).Coherent where
  one k₁ k₂ d h₁ h₂ := h.one k₁ k₂ d h₁.1 h₂.1
  shown k' d hk' := by
    obtain ⟨hold, hnot⟩ := release_holder.mp hk'
    exact ⟨h.shown k' d hold, hnot⟩

/-- Taking places keeps the board coherent exactly when the flags are up there already. -/
theorem Coherent.take_iff (h : b.Coherent) :
    (b.take k ds).Coherent ↔ ∀ d ∈ ds, b.flag k d := by
  constructor
  · intro ht d hd
    exact ht.shown k d (take_holder.mpr (Or.inl ⟨hd, rfl⟩))
  · intro hup
    refine ⟨h.one, fun k' d hk' => ?_⟩
    rcases take_holder.mp hk' with ⟨hd, rfl⟩ | ⟨-, hold⟩
    · exact hup d hd
    · exact h.shown k' d hold

/-- Taking a place and then putting up the flag there keeps the board coherent exactly when no other
flag is up. -/
theorem Coherent.take_raise_iff (h : b.Coherent) (hds : ∀ d' ∈ ds, d' = d) :
    ((b.take k ds).raise k d).Coherent ↔ ∀ k', b.flag k' d → k' = k := by
  constructor
  · intro ht k' hk'
    exact ht.one k' k d (Or.inl hk') (Or.inr ⟨rfl, rfl⟩)
  · intro halone
    refine ⟨?_, fun k' d' hk' => ?_⟩
    · rintro k₁ k₂ d' (h₁ | ⟨rfl, rfl⟩) (h₂ | ⟨rfl, hd⟩)
      · exact h.one k₁ k₂ d' h₁ h₂
      · exact halone k₁ (hd ▸ h₁)
      · exact (halone k₂ h₂).symm
      · rfl
    · rcases take_holder.mp hk' with ⟨hd', rfl⟩ | ⟨-, hold⟩
      · exact Or.inr ⟨rfl, hds d' hd'⟩
      · exact Or.inl (h.shown k' d' hold)

end Board
end Boards
