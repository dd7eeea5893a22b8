import Mathlib.Data.List.Basic

/-!
# At most one element of a list

`Exclusive P xs` says that `P` holds at no two positions of `xs`. It survives a change of one
element that gains nothing, and a new last element where no other has `P`.
-/

set_option autoImplicit false

universe u
variable {α : Type u} {P Q : α → Prop} {xs : List α} {a b : α} {i j : Nat}

def Exclusive (P : α → Prop) (xs : List α) : Prop :=
  ∀ (i j : Nat) (a b : α), xs[i]? = some a → xs[j]? = some b → P a → P b → i = j

namespace Exclusive

theorem nil : Exclusive P [] := fun i _ a _ ha => by simp at ha

theorem mono (hPQ : ∀ a, P a → Q a) (h : Exclusive Q xs) : Exclusive P xs :=
  fun i j a b ha hb hPa hPb => h i j a b ha hb (hPQ a hPa) (hPQ b hPb)

theorem others (h : Exclusive P xs) (ha : xs[i]? = some a) (hPa : P a) (hb : xs[j]? = some b)
    (hne : j ≠ i) : ¬ P b :=
  fun hPb => hne (h j i b a hb ha hPb hPa)

/-- An element of the list after `set`: the new one, or an old one at another position. -/
theorem getElem?_set_cases (ha : xs[i]? = some a) {c : α} (h : (xs.set i b)[j]? = some c) :
    (j = i ∧ c = b) ∨ (j ≠ i ∧ xs[j]? = some c) := by
  have hi : i < xs.length := (List.getElem?_eq_some_iff.mp ha).1
  by_cases hj : i = j
  · subst hj
    rw [List.getElem?_set_self hi, Option.some.injEq] at h
    exact Or.inl ⟨rfl, h.symm⟩
  · rw [List.getElem?_set_ne hj] at h
    exact Or.inr ⟨fun heq => hj heq.symm, h⟩

theorem mem_set_cases (ha : xs[i]? = some a) {c : α} (h : c ∈ xs.set i b) :
    c = b ∨ ∃ j, j ≠ i ∧ xs[j]? = some c := by
  obtain ⟨j, hj⟩ := List.getElem?_of_mem h
  rcases getElem?_set_cases ha hj with ⟨-, hc⟩ | ⟨hne, hc⟩
  · exact Or.inl hc
  · exact Or.inr ⟨j, hne, hc⟩

theorem set (h : Exclusive P xs) (ha : xs[i]? = some a) (hback : P b → P a) :
    Exclusive P (xs.set i b) := by
  intro k l c d hc hd hPc hPd
  rcases getElem?_set_cases ha hc with ⟨rfl, rfl⟩ | ⟨-, hc'⟩
  · rcases getElem?_set_cases ha hd with ⟨rfl, rfl⟩ | ⟨-, hd'⟩
    · rfl
    · exact h _ _ a d ha hd' (hback hPc) hPd
  · rcases getElem?_set_cases ha hd with ⟨rfl, rfl⟩ | ⟨-, hd'⟩
    · exact h _ _ c a hc' ha hPc (hback hPd)
    · exact h k l c d hc' hd' hPc hPd

theorem concat (h : ∀ a ∈ xs, ¬ P a) (b : α) : Exclusive P (xs ++ [b]) := by
  have hlast : ∀ (k : Nat) (c : α), (xs ++ [b])[k]? = some c → P c → k = xs.length := by
    intro k c hc hPc
    by_cases hk : k < xs.length
    · rw [List.getElem?_append_left hk] at hc
      exact absurd hPc (h c (List.mem_of_getElem? hc))
    · have hlt := (List.getElem?_eq_some_iff.mp hc).1
      rw [List.length_append, List.length_singleton] at hlt
      omega
  intro k l c d hc hd hPc hPd
  exact (hlast k c hc hPc).trans (hlast l d hd hPd).symm

theorem concat_of_not (h : Exclusive P xs) (hb : ¬ P b) : Exclusive P (xs ++ [b]) := by
  have hold : ∀ (k : Nat) (c : α), (xs ++ [b])[k]? = some c → P c → xs[k]? = some c := by
    intro k c hc hPc
    by_cases hk : k < xs.length
    · rwa [List.getElem?_append_left hk] at hc
    · rw [List.getElem?_append_right (Nat.le_of_not_lt hk)] at hc
      have hmem := List.mem_singleton.mp (List.mem_of_getElem? hc)
      exact absurd (hmem ▸ hPc) hb
  intro k l c d hc hd hPc hPd
  exact h k l c d (hold k c hc hPc) (hold l d hd hPd) hPc hPd

end Exclusive
