import Mathlib.Data.List.Induction
import Mathlib.Data.List.Perm.Basic
import Mathlib.Data.Nat.ModEq

/-!
# Circular buffers that overwrite

A value is put in the slot after the latest one. When the slot after that is the oldest, the oldest
value is given up: its slot keeps it until the next value is put there. So a buffer with `size`
slots keeps the last `size - 1` values in order, and one more that it does not count.
-/

set_option autoImplicit false

universe u

/-- `latest` is the slot for the next value. -/
structure CircularBuffer (α : Type u) where
  slots : List α
  latest : Nat
  oldest : Nat
deriving DecidableEq, Repr

namespace CircularBuffer
variable {α : Type u}

def start (size : Nat) (null : α) : CircularBuffer α := ⟨List.replicate size null, 0, 0⟩

def next (r : CircularBuffer α) (i : Nat) : Nat := if i + 1 = r.slots.length then 0 else i + 1

def prev (r : CircularBuffer α) (i : Nat) : Nat := (if i = 0 then r.slots.length else i) - 1

def push (r : CircularBuffer α) (x : α) : CircularBuffer α :=
  let latest := r.next r.latest
  { slots := r.slots.set r.latest x
    latest := latest
    oldest := if latest = r.oldest then r.next r.oldest else r.oldest }

/-- The values in the slots from `i` on up to the slot for the next value, if a walk comes there
within `fuel` steps. -/
def collect (r : CircularBuffer α) : Nat → Nat → Option (List α)
  | 0, i => if i = r.latest then some [] else none
  | fuel + 1, i =>
    if i = r.latest then some []
    else
      match r.slots[i]? with
      | none => none
      | some x => (collect r fuel (r.next i)).map (x :: ·)

/-- The position of the oldest of the values kept, among `n` values. -/
def first (size n : Nat) : Nat := n - (size - 1)

/-- The buffer after the values `history`, oldest first; value `i` is in slot `i % size`. -/
structure Holds (r : CircularBuffer α) (size : Nat) (null : α) (history : List α) : Prop where
  length : r.slots.length = size
  latest : r.latest = history.length % size
  oldest : r.oldest = first size history.length % size
  written : ∀ i, (hi : i < history.length) → history.length ≤ i + size →
    r.slots[i % size]? = some history[i]
  unwritten : ∀ i, history.length ≤ i → i < size → r.slots[i]? = some null
  perm : r.slots.Perm (history.drop (history.length - size) ++
    List.replicate (size - history.length) null)

variable {r : CircularBuffer α} {size : Nat} {null x : α} {history : List α} {i n : Nat}

theorem holds_start (size : Nat) (null : α) : (start size null).Holds size null [] where
  length := List.length_replicate
  latest := by simp [start]
  oldest := by simp [start, first]
  written i hi := absurd hi (Nat.not_lt_zero i)
  unwritten i _ hi := by simp [start, hi]
  perm := by simp [start]

theorem next_mod (h : r.slots.length = size) (hsize : 0 < size) (i : Nat) :
    r.next (i % size) = (i + 1) % size := by
  have hlt := Nat.mod_lt i hsize
  rw [next, h, ← Nat.mod_add_mod]
  split
  case isTrue heq => rw [heq, Nat.mod_self]
  case isFalse hne => rw [Nat.mod_eq_of_lt (show i % size + 1 < size by omega)]

theorem prev_next (r : CircularBuffer α) (i : Nat) : r.prev (r.next i) = i := by
  unfold prev next
  split <;> split <;> omega

theorem prev_mod (h : r.slots.length = size) (hsize : 0 < size) (i : Nat) :
    r.prev ((i + 1) % size) = i % size := by
  rw [← next_mod h hsize, prev_next]

/-- Values that are less than a round apart are in different slots. -/
theorem mod_ne {i n size : Nat} (hlt : i < n) (h : n < i + size) : i % size ≠ n % size := by
  intro heq
  have hdvd := (Nat.modEq_iff_dvd' hlt.le).mp heq
  have := Nat.le_of_dvd (by omega) hdvd
  omega

theorem first_succ_mod (hsize : 0 < size) (n : Nat) :
    (if (n + 1) % size = first size n % size then (first size n + 1) % size
      else first size n % size) = first size (n + 1) % size := by
  by_cases hfull : size - 1 ≤ n
  · have hround : n + 1 = first size n + size := by
      unfold first
      omega
    have hnext : first size (n + 1) = first size n + 1 := by
      unfold first
      omega
    rw [hround, Nat.add_mod_right, if_pos rfl, ← hround, hnext]
  · have hzero : first size n = 0 := by
      unfold first
      omega
    have hzero' : first size (n + 1) = 0 := by
      unfold first
      omega
    rw [hzero, hzero', Nat.zero_mod, if_neg]
    rw [Nat.mod_eq_of_lt (by omega)]
    omega

namespace Holds

theorem getElem_latest (h : r.Holds size null history) (hsize : 0 < size) :
    r.slots[r.latest]? =
      if hfull : size ≤ history.length then some history[history.length - size] else some null := by
  rw [h.latest]
  split
  case isTrue hfull =>
    have hround : history.length % size = (history.length - size) % size := by
      rw [← Nat.add_mod_right (history.length - size), Nat.sub_add_cancel hfull]
    rw [hround]
    exact h.written _ (by omega) (by omega)
  case isFalse hfree =>
    rw [Nat.mod_eq_of_lt (by omega)]
    exact h.unwritten _ (Nat.le_refl _) (by omega)

/-- The values beside the one that the next push replaces. -/
theorem perm_eraseIdx (h : r.Holds size null history) (hsize : 0 < size) :
    (r.slots.eraseIdx r.latest).Perm (history.drop (history.length + 1 - size) ++
      List.replicate (size - (history.length + 1)) null) := by
  have hlatest : r.latest < r.slots.length := by
    rw [h.latest, h.length]
    exact Nat.mod_lt _ hsize
  have herase := (List.getElem_cons_eraseIdx_perm hlatest).trans h.perm
  have hget := h.getElem_latest hsize
  rw [List.getElem?_eq_getElem hlatest] at hget
  split at hget
  case isTrue hfull =>
    rw [Option.some.inj hget, List.drop_eq_getElem_cons (by omega), List.cons_append] at herase
    rw [show history.length + 1 - size = history.length - size + 1 by omega,
      show size - (history.length + 1) = size - history.length by omega]
    exact herase.cons_inv
  case isFalse hfree =>
    rw [Option.some.inj hget, show size - history.length = size - (history.length + 1) + 1 by omega,
      List.replicate_succ] at herase
    rw [show history.length + 1 - size = history.length - size by omega]
    exact (herase.trans List.perm_middle).cons_inv

theorem push (h : r.Holds size null history) (hsize : 0 < size) (x : α) :
    (r.push x).Holds size null (history ++ [x]) := by
  have hlatest : r.latest < r.slots.length := by
    rw [h.latest, h.length]
    exact Nat.mod_lt _ hsize
  have hnext : r.next r.latest = (history.length + 1) % size := by
    rw [h.latest]
    exact next_mod h.length hsize _
  have hlength : (history ++ [x]).length = history.length + 1 := List.length_append
  constructor
  · exact List.length_set.trans h.length
  · rw [hlength]
    exact hnext
  · rw [hlength, ← first_succ_mod hsize, ← next_mod h.length hsize (first size history.length),
      ← h.oldest, ← hnext]
    rfl
  · intro i hi hround
    rw [hlength] at hi hround
    show (r.slots.set r.latest x)[i % size]? = _
    by_cases hlast : i = history.length
    · subst hlast
      rw [← h.latest, List.getElem?_set_self hlatest]
      simp
    · have hold : i < history.length := by omega
      have hne : history.length % size ≠ i % size := (mod_ne hold (by omega)).symm
      rw [h.latest, List.getElem?_set_ne hne, h.written i hold (by omega),
        List.getElem_append_left hold]
  · intro i hi hlt
    rw [hlength] at hi
    show (r.slots.set r.latest x)[i]? = _
    rw [h.latest, Nat.mod_eq_of_lt (by omega), List.getElem?_set_ne (by omega)]
    exact h.unwritten i (by omega) hlt
  · rw [hlength, List.drop_append_of_le_length (by omega), List.append_assoc]
    apply (List.set_perm_cons_eraseIdx hlatest x).trans
    exact ((h.perm_eraseIdx hsize).cons x).trans List.perm_middle.symm

/-- A walk from a value that is kept visits this one and all later ones in order. -/
theorem collect_drop (h : r.Holds size null history) (hsize : 0 < size) {a fuel : Nat}
    (hfirst : first size history.length ≤ a) (hle : a ≤ history.length)
    (hfuel : history.length ≤ a + fuel) : r.collect fuel (a % size) = some (history.drop a) := by
  have hround : history.length < first size history.length + size := by
    unfold first
    omega
  have hend : ∀ fuel, r.collect fuel (history.length % size) = some [] := by
    intro fuel
    cases fuel with
    | zero => rw [collect, if_pos h.latest.symm]
    | succ fuel => rw [collect, if_pos h.latest.symm]
  induction fuel generalizing a with
  | zero =>
    have heq : a = history.length := by omega
    rw [heq, hend, List.drop_length]
  | succ fuel ih =>
    rcases Nat.eq_or_lt_of_le hle with heq | hlt
    · rw [heq, hend, List.drop_length]
    · have hne : a % size ≠ r.latest := by
        rw [h.latest]
        exact mod_ne hlt (by omega)
      have hslot := h.written a hlt (by omega)
      rw [collect, if_neg hne]
      simp only [hslot]
      rw [next_mod h.length hsize, ih (by omega) hlt (by omega), Option.map_some,
        ← List.drop_eq_getElem_cons]

/-- From the oldest slot on, the last `size - 1` values. -/
theorem collect_oldest (h : r.Holds size null history) (hsize : 0 < size) :
    r.collect size r.oldest = some (history.drop (first size history.length)) := by
  rw [h.oldest]
  apply h.collect_drop hsize (Nat.le_refl _)
  · unfold first
    omega
  · unfold first
    omega

end Holds

theorem holds_foldl (hsize : 0 < size) (null : α) (history : List α) :
    (history.foldl push (start size null)).Holds size null history := by
  induction history using List.reverseRecOn with
  | nil => exact holds_start size null
  | append_singleton history x ih =>
    rw [List.foldl_append]
    exact ih.push hsize x

end CircularBuffer
