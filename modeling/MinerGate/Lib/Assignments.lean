import Mathlib.Data.List.Nodup
import Mathlib.Data.Prod.Basic

/-!
# Assignments in order

A list of assignments, applied from the left to a function. At every key the last one counts, so
that two lists give the same value at a key when they end alike there.
-/

set_option autoImplicit false

universe u v
variable {κ : Type u} {β : Type v} [DecidableEq κ]

namespace Assignments

def assign (ws : List (κ × β)) (f : κ → β) : κ → β :=
  ws.foldl (fun f w => Function.update f w.1 w.2) f

/-- The value of the last assignment to a key. -/
def last : List (κ × β) → κ → Option β
  | [], _ => none
  | w :: ws, k => (last ws k).or (if w.1 = k then some w.2 else none)

/-- The two lists give a key the same value. One that does not assign it leaves what `f` has. -/
def EndAlike (ws vs : List (κ × β)) (f : κ → β) (k : κ) : Prop :=
  (last ws k).getD (f k) = (last vs k).getD (f k)

variable {ws vs : List (κ × β)} {f : κ → β} {k : κ} {v : β}

theorem assign_append : assign (ws ++ vs) f = assign vs (assign ws f) := List.foldl_append

theorem assign_eq : assign ws f k = (last ws k).getD (f k) := by
  induction ws generalizing f with
  | nil => rfl
  | cons w ws ih =>
    rw [assign, List.foldl_cons, ← assign, ih, last]
    cases last ws k with
    | some v => rfl
    | none =>
      by_cases h : w.1 = k
      · subst h
        simp
      · simp [h, Function.update_of_ne (Ne.symm h)]

theorem endAlike_iff : EndAlike ws vs f k ↔ assign ws f k = assign vs f k := by
  rw [assign_eq, assign_eq, EndAlike]

theorem last_append : last (ws ++ vs) k = (last vs k).or (last ws k) := by
  induction ws with
  | nil => simp [last]
  | cons w ws ih => rw [List.cons_append, last, ih, last, Option.or_assoc]

/-- What is assigned afterwards changes nothing where it was there before. -/
theorem endAlike_append :
    EndAlike (ws ++ vs) ws f k ↔ ∀ v, last vs k = some v → (last ws k).getD (f k) = v := by
  rw [EndAlike, last_append]
  cases last vs k with
  | none => simp
  | some v => simp [eq_comm]

theorem last_eq_none : last ws k = none ↔ ∀ w ∈ ws, w.1 ≠ k := by
  induction ws with
  | nil => simp [last]
  | cons w ws ih => simp [last, ih, and_comm]

theorem last_mem (h : last ws k = some v) : (k, v) ∈ ws := by
  induction ws with
  | nil => cases h
  | cons w ws ih =>
    rw [last, Option.or_eq_some_iff] at h
    rcases h with h | ⟨-, h⟩
    · exact List.mem_cons_of_mem w (ih h)
    · rw [Option.ite_none_right_eq_some, Option.some.injEq] at h
      obtain ⟨rfl, rfl⟩ := h
      exact List.mem_cons_self

/-- Where no key is assigned twice, any assignment is the last one to its key. -/
theorem last_eq_some (hkeys : (ws.map (·.1)).Nodup) : last ws k = some v ↔ (k, v) ∈ ws := by
  refine ⟨last_mem, fun h => ?_⟩
  induction ws with
  | nil => cases h
  | cons w ws ih =>
    rw [List.map_cons, List.nodup_cons] at hkeys
    obtain ⟨hfresh, hkeys⟩ := hkeys
    rw [last, Option.or_eq_some_iff]
    rcases List.mem_cons.mp h with rfl | h
    · refine Or.inr ⟨last_eq_none.mpr fun w' hw' heq => hfresh ?_, if_pos rfl⟩
      exact List.mem_map.mpr ⟨w', hw', heq⟩
    · exact Or.inl (ih hkeys h)

end Assignments
