import Mathlib.Data.Finset.Card
import Mathlib.Data.Finset.Range
import Mathlib.Order.UpperLower.Basic

/-!
# Numbers without a gap

A finite set of numbers that is closed downwards is the initial segment of its size. Where only the
size is known, and that only modulo some number, this is what it takes for the two to agree.
-/

namespace Numbering

set_option autoImplicit false

variable {s : Finset ℕ}

theorem lt_card_of_mem (hs : IsLowerSet (s : Set ℕ)) {i : ℕ} (hi : i ∈ s) : i < s.card := by
  have hsub : Finset.range (i + 1) ⊆ s := by
    intro j hj
    exact hs (Nat.lt_succ_iff.mp (Finset.mem_range.mp hj)) hi
  have hcard := Finset.card_le_card hsub
  rwa [Finset.card_range] at hcard

theorem mem_of_lt_card (hs : IsLowerSet (s : Set ℕ)) {i : ℕ} (hi : i < s.card) : i ∈ s := by
  by_contra hnot
  have hsub : s ⊆ Finset.range i := by
    intro j hj
    rw [Finset.mem_range]
    by_contra hle
    exact hnot (hs (Nat.le_of_not_lt hle) hj)
  have hcard := Finset.card_le_card hsub
  rw [Finset.card_range] at hcard
  omega

theorem mem_iff_lt_card (hs : IsLowerSet (s : Set ℕ)) (i : ℕ) : i ∈ s ↔ i < s.card :=
  ⟨lt_card_of_mem hs, mem_of_lt_card hs⟩

/-- The numbers are those below the size modulo `m` exactly when they have no gap and there are less
than `m` of them. -/
theorem mem_iff_lt_card_mod {m : ℕ} (hm : 0 < m) :
    (∀ i, i ∈ s ↔ i < s.card % m) ↔ IsLowerSet (s : Set ℕ) ∧ s.card < m := by
  constructor
  · intro h
    have heq : s = Finset.range (s.card % m) := by
      ext i
      rw [Finset.mem_range]
      exact h i
    have hcard : s.card = s.card % m := by
      calc s.card = (Finset.range (s.card % m)).card := congrArg Finset.card heq
        _ = s.card % m := Finset.card_range _
    refine ⟨fun i j hle hi => ?_, ?_⟩
    · exact (h j).mpr (Nat.lt_of_le_of_lt hle ((h i).mp hi))
    · rw [hcard]
      exact Nat.mod_lt _ hm
  · rintro ⟨hs, hlt⟩ i
    rw [Nat.mod_eq_of_lt hlt]
    exact mem_iff_lt_card hs i

end Numbering
