import Mathlib.Data.Finset.Card
import Mathlib.Data.Finset.Filter

/-!
# Procedures that re-enter themselves

A procedure that writes a table towards a goal, entry by entry, and may start itself anew after
each write. `fuelled` bounds the nesting. The entries that are not at their goal become fewer with
every write, so that as much fuel as there are such entries is enough.
-/

namespace Settling

set_option autoImplicit false

universe u v
variable {σ : Type u} {κ : Type u} {α : Type v}

/-- The procedure `f`, which gets what it calls when it re-enters itself, nested at most
`n` deep. -/
def fuelled (f : (σ → Option σ) → σ → Option σ) : Nat → σ → Option σ
  | 0, _ => none
  | n + 1, s => f (fuelled f n) s

/-- The rule of the nested calls: what `f` makes of a state, given that the calls inside make the
same of states with a smaller measure, the whole makes of every state whose measure the fuel
exceeds. -/
theorem fuelled_eq {f : (σ → Option σ) → σ → Option σ} {I : σ → Prop} {μ : σ → Nat} {result : σ → σ}
    (h : ∀ n call, (∀ t, I t → μ t < n → call t = some (result t)) →
      ∀ s, I s → μ s ≤ n → f call s = some (result s))
    {n : Nat} {s : σ} (hs : I s) (hn : μ s < n) : fuelled f n s = some (result s) := by
  induction n generalizing s with
  | zero => exact absurd hn (Nat.not_lt_zero _)
  | succ n ih => exact h n _ (fun t ht hlt => ih ht hlt) s hs (Nat.le_of_lt_succ hn)

/-- The loop rule: a loop whose every pass succeeds and brings the invariant from the elements
before to those with the next one. -/
theorem foldlM_invariant {β : Type u} {f : σ → β → Option σ} {I : List β → σ → Prop} {xs : List β}
    (h : ∀ done x s, (∃ rest, xs = done ++ x :: rest) → I done s →
      ∃ t, f s x = some t ∧ I (done ++ [x]) t)
    {s : σ} (hs : I [] s) : ∃ t, xs.foldlM f s = some t ∧ I xs t := by
  have hrest : ∀ rest done s, xs = done ++ rest → I done s →
      ∃ t, rest.foldlM f s = some t ∧ I xs t := by
    intro rest
    induction rest with
    | nil =>
      intro done s hxs hI
      rw [List.append_nil] at hxs
      exact ⟨s, rfl, hxs ▸ hI⟩
    | cons x rest ih =>
      intro done s hxs hI
      obtain ⟨t, ht, hI⟩ := h done x s ⟨rest, hxs⟩ hI
      obtain ⟨u, hu, hI⟩ := ih (done ++ [x]) t (by simpa using hxs) hI
      refine ⟨u, ?_, hI⟩
      rw [List.foldlM_cons, ht]
      exact hu
  exact hrest xs [] s rfl hs

/-- The same rule for a loop that is known to have succeeded, with what each pass shows of its
element. -/
theorem foldlM_eq_some {β : Type u} {f : σ → β → Option σ} {I : σ → Prop} {P : β → Prop}
    {xs : List β}
    (h : ∀ s x t, x ∈ xs → I s → f s x = some t → I t ∧ P x) {s t : σ} (hs : I s)
    (ht : xs.foldlM f s = some t) : I t ∧ ∀ x ∈ xs, P x := by
  induction xs generalizing s with
  | nil =>
    cases ht
    exact ⟨hs, by simp⟩
  | cons x xs ih =>
    rw [List.foldlM_cons] at ht
    obtain ⟨u, hu, ht⟩ := Option.bind_eq_some_iff.mp ht
    obtain ⟨hI, hx⟩ := h s x u List.mem_cons_self hs hu
    obtain ⟨hI, hxs⟩ := ih (fun s y t hy => h s y t (List.mem_cons_of_mem x hy)) hI ht
    exact ⟨hI, List.forall_mem_cons.mpr ⟨hx, hxs⟩⟩

/-- Every entry of `g` is as in `f`, or at its goal. -/
def Toward (goal f g : κ → α) : Prop := ∀ k, g k = f k ∨ g k = goal k

variable {goal f g h : κ → α} {k : κ}

theorem Toward.refl : Toward goal f f := fun _ => Or.inl rfl

theorem Toward.trans (hfg : Toward goal f g) (hgh : Toward goal g h) : Toward goal f h := by
  intro k
  rcases hgh k with hk | hk
  · rw [hk]
    exact hfg k
  · exact Or.inr hk

theorem Toward.settled (hfg : Toward goal f g) (hk : f k = goal k) : g k = goal k := by
  rcases hfg k with heq | heq
  · rw [heq, hk]
  · exact heq

theorem toward_goal : Toward goal f goal := fun _ => Or.inr rfl

def unsettled [DecidableEq α] (keys : Finset κ) (goal f : κ → α) : Nat :=
  (keys.filter fun k => f k ≠ goal k).card

variable [DecidableEq α] {keys : Finset κ}

theorem unsettled_le_card : unsettled keys goal f ≤ keys.card := Finset.card_filter_le _ _

theorem Toward.unsettled_le (hfg : Toward goal f g) :
    unsettled keys goal g ≤ unsettled keys goal f := by
  apply Finset.card_le_card
  apply Finset.monotone_filter_right
  intro k _ hk hf
  exact hk (hfg.settled hf)

theorem Toward.unsettled_lt (hfg : Toward goal f g) (hmem : k ∈ keys) (hf : f k ≠ goal k)
    (hg : g k = goal k) : unsettled keys goal g < unsettled keys goal f := by
  apply Finset.card_lt_card
  refine ⟨?_, fun hsub => ?_⟩
  · apply Finset.monotone_filter_right
    intro j _ hj hfj
    exact hj (hfg.settled hfj)
  · have hk := hsub (Finset.mem_filter.mpr ⟨hmem, hf⟩)
    exact (Finset.mem_filter.mp hk).2 hg

end Settling
