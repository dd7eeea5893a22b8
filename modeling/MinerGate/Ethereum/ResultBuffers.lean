import MinerGate.Ethereum.Acceptance
import MinerGate.Ethereum.HitBuffers
import MinerGate.Lib.CommandQueue

/-!
# Who wrote the results

A result buffer together with the launch and the thread that have written each of its words. Both
search kernels may have more hits than the buffer has places.
-/

namespace MinerGate

set_option autoImplicit false

open Tickets

/-- A hash of a job as the search loops take it; an array that is too short stands for zero. -/
def jobHash (ar : QByteArray) : H256 := (arrayToH256 ar).getD (.ofNat 0)

/-- What a kernel searches: `header` and `target` with the nonces from `start` on. -/
structure SearchArgs where
  header : H256
  target : Nat
  start : Nat
deriving DecidableEq

/-- A search kernel: the threads whose hash passes, in the order in which they take their places. Of
those that come to one place the last one stays. -/
abbrev SearchKernel := SearchArgs → { threads : List Nat // threads.Nodup }

structure ResultBuffer (L : Type) where
  words : Nat → Nat
  writer : Nat → Option (L × Nat)

namespace ResultBuffer
variable {L : Type} {k : EthashKernel} {b : ResultBuffer L} {l : L} {thread : Nat}
  {threads : List Nat}

/-- A thread advances the counter and stores its `gid`, which has 32 bits. -/
def store (k : EthashKernel) (l : L) (b : ResultBuffer L) (thread : Nat) : ResultBuffer L :=
  let old := b.words 0
  let place := k.search.slot old
  { words :=
      Memory.write (Memory.write b.words 0 (k.search.inc old)) place (thread % quint32Modulus)
    writer := fun i => if i = place then some (l, thread) else b.writer i }

/-- The threads of a launch. -/
def run (k : EthashKernel) (b : ResultBuffer L) (l : L) (threads : List Nat) : ResultBuffer L :=
  threads.foldl (store k l) b

/-- What the host reads, with the launch and the thread that have written it. -/
def entries (k : EthashKernel) (b : ResultBuffer L) : List (Nat × Option (L × Nat)) :=
  (List.range (k.found b.words)).map fun j => (b.words (j + 1), b.writer (j + 1))

def clear (b : ResultBuffer L) : ResultBuffer L := { b with words := Memory.write b.words 0 0 }

/-- The counter is zero. -/
def Cleared (b : ResultBuffer L) : Prop := b.words 0 = 0

@[simp] theorem cleared_clear : b.clear.Cleared := write_self b.words 0 0

/-- A buffer in which `threads` of `l` have stored after it was cleared: the places of the first
ones are all taken, by different threads. -/
structure Filled (k : EthashKernel) (l : L) (threads : List Nat) (b : ResultBuffer L) : Prop where
  counter : threads.length ≤ k.capacity → b.words 0 = threads.length
  found : k.found b.words ≤ k.capacity
  written : ∀ p, 0 < p → p ≤ min threads.length k.capacity →
    ∃ thread ∈ threads, b.words p = thread % quint32Modulus ∧ b.writer p = some (l, thread)
  distinct : ∀ p q, 0 < p → p ≤ min threads.length k.capacity → 0 < q →
    q ≤ min threads.length k.capacity → b.writer p = b.writer q → p = q

theorem filled_nil (l : L) (h : b.Cleared) : b.Filled k l [] where
  counter _ := h
  found := by
    have hzero : b.words 0 = 0 := h
    cases k <;> simp [EthashKernel.found, hzero]
  written p hpos hle := by simp only [List.length_nil, Nat.zero_min] at hle; omega
  distinct p q hpos hle := by simp only [List.length_nil, Nat.zero_min] at hle; omega

/-- As long as there are places the next one is taken. -/
theorem slot_of_lt {n : Nat} (h : n < k.capacity) : k.search.slot n = n + 1 := by
  have hsmall : k.capacity < quint32Modulus := by cases k <;> decide
  cases k with
  | cuda => exact Nat.mod_eq_of_lt (by omega)
  | openCl =>
    simp only [EthashKernel.search]
    rw [Nat.mod_eq_of_lt (by omega)]
    exact Nat.min_eq_right h

theorem inc_of_lt {n : Nat} (h : n < k.capacity) : k.search.inc n = n + 1 := by
  have hsmall : k.capacity < quint32Modulus := by cases k <;> decide
  cases k with
  | cuda => exact if_neg (Nat.not_le.mpr h)
  | openCl => exact Nat.mod_eq_of_lt (by omega)

theorem words_store_zero (h : k.search.slot (b.words 0) ≠ 0) :
    (b.store k l thread).words 0 = k.search.inc (b.words 0) :=
  (write_of_ne h.symm).trans (write_self _ _ _)

theorem Filled.found_store (h : b.Filled k l threads) :
    k.found (b.store k l thread).words ≤ k.capacity := by
  cases k with
  | openCl => exact min_le_right _ _
  | cuda =>
    have hfound : b.words 0 ≤ SEARCH_RESULT_BUFFER_SIZE - 1 := h.found
    have hslot : (EthashKernel.search .cuda).slot (b.words 0) ≠ 0 := by
      simp only [EthashKernel.search]
      rw [Nat.mod_eq_of_lt (Nat.lt_of_le_of_lt (Nat.succ_le_succ hfound) (by decide))]
      exact Nat.succ_ne_zero _
    rw [EthashKernel.found, words_store_zero hslot]
    simp only [EthashKernel.search, EthashKernel.atomicInc]
    change _ ≤ SEARCH_RESULT_BUFFER_SIZE - 1
    split <;> omega

/-- A place is the new thread's, or it was taken before and stays as it is. -/
theorem Filled.place_store (h : b.Filled k l threads) {p : Nat} (hpos : 0 < p)
    (hp : p ≤ min (threads.length + 1) k.capacity) :
    (p ≤ min threads.length k.capacity ∧ (b.store k l thread).words p = b.words p ∧
        (b.store k l thread).writer p = b.writer p) ∨
      p = k.search.slot (b.words 0) ∧ (b.store k l thread).words p = thread % quint32Modulus ∧
        (b.store k l thread).writer p = some (l, thread) := by
  by_cases hplace : p = k.search.slot (b.words 0)
  · right
    refine ⟨hplace, ?_, if_pos hplace⟩
    rw [hplace]
    exact write_self _ _ _
  · left
    refine ⟨?_, ?_, if_neg hplace⟩
    · by_contra hnot
      have hlt : threads.length < k.capacity := by omega
      rw [h.counter (Nat.le_of_lt hlt), slot_of_lt hlt] at hplace
      omega
    · exact (write_of_ne hplace).trans (write_of_ne (Nat.pos_iff_ne_zero.mp hpos))

theorem Filled.store (h : b.Filled k l threads) (hnew : thread ∉ threads) :
    (b.store k l thread).Filled k l (threads ++ [thread]) := by
  have hlength : (threads ++ [thread]).length = threads.length + 1 := by
    rw [List.length_append, List.length_singleton]
  refine ⟨?_, h.found_store, ?_, ?_⟩
  · intro hle
    rw [hlength] at hle ⊢
    have hcounter := h.counter (Nat.le_of_succ_le hle)
    have hslot : k.search.slot (b.words 0) ≠ 0 := by
      rw [hcounter, slot_of_lt hle]
      exact Nat.succ_ne_zero _
    rw [words_store_zero hslot, hcounter, inc_of_lt hle]
  · intro p hpos hp
    rw [hlength] at hp
    rcases h.place_store hpos hp with ⟨hle, hword, hwriter⟩ | ⟨-, hword, hwriter⟩
    · obtain ⟨thread', hmem, hold⟩ := h.written p hpos hle
      rw [hword, hwriter]
      exact ⟨thread', List.mem_append_left _ hmem, hold⟩
    · exact ⟨thread, List.mem_append_right _ (List.mem_singleton.mpr rfl), hword, hwriter⟩
  · have hother : ∀ p, 0 < p → p ≤ min threads.length k.capacity →
        b.writer p ≠ some (l, thread) := by
      intro p hpos hle heq
      obtain ⟨thread', hmem, -, hwriter⟩ := h.written p hpos hle
      rw [heq, Option.some.injEq, Prod.mk.injEq] at hwriter
      exact hnew (hwriter.2 ▸ hmem)
    intro p q hp hple hq hqle heq
    rw [hlength] at hple hqle
    rcases h.place_store hp hple with ⟨hple, -, hpwriter⟩ | ⟨hpeq, -, hpwriter⟩ <;>
      rcases h.place_store hq hqle with ⟨hqle, -, hqwriter⟩ | ⟨hqeq, -, hqwriter⟩ <;>
      rw [hpwriter, hqwriter] at heq
    · exact h.distinct p q hp hple hq hqle heq
    · exact absurd heq (hother p hp hple)
    · exact absurd heq.symm (hother q hq hqle)
    · rw [hpeq, hqeq]

theorem filled_run (h : b.Cleared) (hnodup : threads.Nodup) :
    (b.run k l threads).Filled k l threads := by
  induction threads using List.reverseRecOn with
  | nil => exact filled_nil l h
  | append_singleton threads thread ih =>
    obtain ⟨hnodup, -, hnew⟩ := List.nodup_append.mp hnodup
    have hrun : b.run k l (threads ++ [thread]) = (b.run k l threads).store k l thread :=
      List.foldl_append
    rw [hrun]
    refine (ih hnodup).store fun hmem => ?_
    exact hnew thread hmem thread (List.mem_singleton.mpr rfl) rfl

theorem Filled.found_le (h : b.Filled k l threads) :
    k.found b.words ≤ min threads.length k.capacity := by
  by_cases hle : threads.length ≤ k.capacity
  · have hcounter := h.counter hle
    refine le_min ?_ h.found
    cases k with
    | cuda => exact Nat.le_of_eq hcounter
    | openCl => exact (min_le_left _ _).trans (Nat.le_of_eq hcounter)
  · rw [min_eq_right (Nat.le_of_not_le hle)]
    exact h.found

/-- What the host reads of a buffer that was cleared before the launch `l` is of its hits. -/
theorem mem_entries (h : b.Cleared) (hnodup : threads.Nodup) {e : Nat × Option (L × Nat)}
    (he : e ∈ (b.run k l threads).entries k) :
    ∃ thread ∈ threads, e = (thread % quint32Modulus, some (l, thread)) := by
  have hfilled := filled_run (k := k) (l := l) h hnodup
  obtain ⟨j, hj, rfl⟩ := List.mem_map.mp he
  have hfound := hfilled.found_le
  have hlt := List.mem_range.mp hj
  obtain ⟨thread, hmem, hword, hwriter⟩ := hfilled.written (j + 1) (Nat.succ_pos j) (by omega)
  exact ⟨thread, hmem, Prod.ext hword hwriter⟩

/-- No hit is read twice. -/
theorem nodup_entries (h : b.Cleared) (hnodup : threads.Nodup) :
    (((b.run k l threads).entries k).map Prod.snd).Nodup := by
  have hfilled := filled_run (k := k) (l := l) h hnodup
  have hfound := hfilled.found_le
  rw [entries, List.map_map]
  refine List.Nodup.map_on ?_ List.nodup_range
  intro i hi j hj heq
  have hi := List.mem_range.mp hi
  have hj := List.mem_range.mp hj
  have hplace := hfilled.distinct (i + 1) (j + 1) (Nat.succ_pos i) (by omega) (Nat.succ_pos j)
    (by omega) heq
  omega

end ResultBuffer
end MinerGate
