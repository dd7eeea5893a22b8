import Mathlib.Data.List.AList

/-!
# Updates of a map at its keys

A loop over keys of a map puts a new value in the place of the one that stands at each key. Every
entry depends on its own round only, so that the order of the keys does not matter.
-/

namespace KeyedUpdates

set_option autoImplicit false

universe u v
variable {κ : Type u} {β : Type v} [DecidableEq κ]

/-- One round: an entry that is there gets a new value. -/
def updateAt (g : κ → β → β) (m : AList fun _ : κ => β) (k : κ) : AList fun _ : κ => β :=
  match m.lookup k with
  | none => m
  | some v => m.insert k (g k v)

def updateAll (g : κ → β → β) (ks : List κ) (m : AList fun _ : κ => β) : AList fun _ : κ => β :=
  ks.foldl (updateAt g) m

variable {g : κ → β → β} {m : AList fun _ : κ => β} {k k' : κ} {ks : List κ}

theorem lookup_updateAt_self : (updateAt g m k).lookup k = (m.lookup k).map (g k) := by
  rw [updateAt]
  split
  case h_1 h => rw [h, Option.map_none]
  case h_2 v h => rw [h, Option.map_some, AList.lookup_insert]

theorem lookup_updateAt_ne (hne : k' ≠ k) : (updateAt g m k).lookup k' = m.lookup k' := by
  rw [updateAt]
  split
  · rfl
  · exact AList.lookup_insert_ne hne

/-- What stands at a key of the loop after it: the entry, updated once. -/
theorem lookup_updateAll (hks : ks.Nodup) : (updateAll g ks m).lookup k =
    if k ∈ ks then (m.lookup k).map (g k) else m.lookup k := by
  induction ks generalizing m with
  | nil => rw [if_neg List.not_mem_nil, updateAll, List.foldl_nil]
  | cons k' ks ih =>
    obtain ⟨hfresh, hks⟩ := List.nodup_cons.mp hks
    have hrest : updateAll g (k' :: ks) m = updateAll g ks (updateAt g m k') := rfl
    rw [hrest, ih hks]
    by_cases hk : k = k'
    · subst hk
      rw [if_neg hfresh, if_pos List.mem_cons_self, lookup_updateAt_self]
    · rw [lookup_updateAt_ne hk]
      simp only [List.mem_cons, hk, false_or]

/-- The loop over all keys updates every entry once. -/
theorem lookup_updateAll_keys :
    (updateAll g m.keys m).lookup k = (m.lookup k).map (g k) := by
  rw [lookup_updateAll m.keys_nodup]
  split
  · rfl
  case isFalse h => rw [AList.lookup_eq_none.mpr h, Option.map_none]

end KeyedUpdates
