import Mathlib.Data.List.Basic

/-!
# Writes that reach a file in part

Of what is written to the start of a file some first part has reached it. The lemmas say what is
then in the first bytes, when the written text has a head, and when nothing is missing.
-/

namespace PrefixWrites

set_option autoImplicit false

universe u
variable {α : Type u} {old out head rest : List α} {n : Nat}

/-- The first `n` elements of `out` stand over the first ones of `old`. -/
def overwrite (old out : List α) (n : Nat) : List α := out.take n ++ old.drop (out.take n).length

theorem overwrite_of_le (h : out.length ≤ n) :
    overwrite old out n = out ++ old.drop out.length := by
  rw [overwrite, List.take_of_length_le h]

theorem length_overwrite (h : out.length ≤ old.length) :
    (overwrite old out n).length = old.length := by
  simp only [overwrite, List.length_append, List.length_take, List.length_drop]
  omega

/-- What stands behind the written text is not touched. -/
theorem drop_overwrite : (overwrite old out n).drop out.length = old.drop out.length := by
  have hle : (out.take n).length ≤ out.length := by
    rw [List.length_take]
    omega
  rw [overwrite, List.drop_append, List.drop_eq_nil_of_le hle, List.nil_append, List.drop_drop]
  congr 1
  omega

/-- Behind a head that is written whole, the rest is written in part. -/
theorem overwrite_append (h : head.length ≤ n) :
    overwrite old (head ++ rest) n =
      head ++ overwrite (old.drop head.length) rest (n - head.length) := by
  have htake : (head ++ rest).take n = head ++ rest.take (n - head.length) := by
    rw [List.take_append, List.take_of_length_le h]
  rw [overwrite, htake, overwrite, List.length_append, List.append_assoc, List.drop_drop]

theorem take_overwrite (h : head.length ≤ n) :
    (overwrite old (head ++ rest) n).take head.length = head := by
  rw [overwrite_append h, List.take_left]

theorem drop_overwrite_append (h : head.length ≤ n) :
    (overwrite old (head ++ rest) n).drop head.length =
      overwrite (old.drop head.length) rest (n - head.length) := by
  rw [overwrite_append h, List.drop_left]

/-- An element behind the part that was written is the old one. -/
theorem getElem?_overwrite {i : Nat} (h : n ≤ i) : (overwrite old out n)[i]? = old[i]? := by
  have hle : (out.take n).length ≤ i := by
    rw [List.length_take]
    omega
  rw [overwrite, List.getElem?_append_right hle, List.getElem?_drop]
  congr 1
  omega

/-- The text is there if what was not written stood there before. -/
theorem overwrite_eq_iff (h : old.length = out.length) :
    overwrite old out n = out ↔ old.drop n = out.drop n := by
  have hold : old.drop (out.take n).length = old.drop n := by
    rw [List.length_take]
    rcases Nat.le_total n out.length with hle | hle
    · rw [Nat.min_eq_left hle]
    · rw [Nat.min_eq_right hle, List.drop_eq_nil_of_le (Nat.le_of_eq h),
        List.drop_eq_nil_of_le (h ▸ hle)]
  rw [overwrite, hold]
  constructor
  · intro heq
    exact List.append_cancel_left (heq.trans (List.take_append_drop n out).symm)
  · intro heq
    rw [heq, List.take_append_drop]

end PrefixWrites
