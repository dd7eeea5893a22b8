import Mathlib.Data.Finset.Card
import MinerGate.Lib.Tickets
import MinerGate.Miner.NonceRanges

/-!
# The result buffers of the Ethash kernels

A thread whose hash passes advances the counter in the first word of the buffer and stores its
number at the place behind it. Both kernels count, only the OpenCL one stays in the buffer.
-/

namespace MinerGate

set_option autoImplicit false

open Tickets

def SEARCH_RESULT_BUFFER_SIZE : Nat := 64

def MAX_SEARCH_RESULT : Nat := 63

inductive EthashKernel where
  | cuda
  | openCl
deriving DecidableEq, Repr

namespace EthashKernel

/-- `atomicInc` of CUDA, which starts again from zero at `last`. -/
def atomicInc (last old : Nat) : Nat := if last ≤ old then 0 else old + 1

/-- The last lines of both kernels `ethash_search`. -/
def search : EthashKernel → Scheme
  | cuda =>
    { inc := atomicInc (SEARCH_RESULT_BUFFER_SIZE - 1)
      slot := fun old => (old + 1) % quint32Modulus }
  | openCl =>
    { inc := fun old => (old + 1) % quint32Modulus
      slot := fun old => min MAX_SEARCH_RESULT ((old + 1) % quint32Modulus) }

/-- The words of the buffer. -/
def bufferSize : EthashKernel → Nat
  | cuda => SEARCH_RESULT_BUFFER_SIZE
  | openCl => MAX_SEARCH_RESULT + 1

/-- The number of entries. -/
def capacity (k : EthashKernel) : Nat := k.bufferSize - 1

/-- `foundCount` of the CUDA miner, `num_found` of the OpenCL one. -/
def found (words : Nat → Nat) : EthashKernel → Nat
  | cuda => words 0
  | openCl => min (words 0) MAX_SEARCH_RESULT

/-- The thread numbers that the host reads. -/
def results (k : EthashKernel) (words : Nat → Nat) : List Nat :=
  (List.range (k.found words)).map fun j => words (j + 1)

end EthashKernel

/-- The numbers of the threads of one launch whose hash passes: a `gid` has 32 bits. -/
structure Hits where
  gids : List Nat
  nodup : gids.Nodup
  lt : ∀ gid ∈ gids, gid < quint32Modulus

namespace EthashKernel

structure Good (k : EthashKernel) (hits : Hits) (m : Memory) : Prop where
  inside : ∀ p ∈ m.stores, p.1 < k.bufferSize
  length : (k.results m.words).length = min hits.gids.length k.capacity
  distinct : (k.results m.words).Nodup
  hits : ∀ gid ∈ k.results m.words, gid ∈ hits.gids

/-- The most hits of one launch that a kernel can take. -/
def maxHits : EthashKernel → Nat
  | cuda => SEARCH_RESULT_BUFFER_SIZE - 1
  | openCl => quint32Modulus - 1

variable {k : EthashKernel} {hits : Hits} {words : Nat → Nat} {es : List Event} {t : Memory}

theorem iterate_inc_of_lt {n : Nat} (inc : Nat → Nat) (bound : Nat)
    (hinc : ∀ i < bound, inc i = i + 1) (hn : n ≤ bound) : inc^[n] 0 = n := by
  induction n with
  | zero => rfl
  | succ n ih => rw [Function.iterate_succ_apply', ih (by omega), hinc n (by omega)]

theorem iterate_inc (k : EthashKernel) {n : Nat} (hn : n ≤ k.maxHits) :
    k.search.inc^[n] 0 = n := by
  apply iterate_inc_of_lt _ k.maxHits _ hn
  intro i hi
  cases k with
  | cuda =>
    simp only [maxHits] at hi
    exact if_neg (by omega)
  | openCl =>
    simp only [maxHits] at hi
    exact Nat.mod_eq_of_lt (by omega)

theorem place_eq {n : Nat} (hn : n < k.maxHits) :
    k.search.place n = min (n + 1) k.capacity := by
  rw [Scheme.place, iterate_inc k (Nat.le_of_lt hn)]
  cases k with
  | cuda =>
    have hmax : maxHits .cuda = capacity .cuda := by decide
    have hsmall : maxHits .cuda < quint32Modulus := by decide
    simp only [search]
    rw [Nat.mod_eq_of_lt (by omega), Nat.min_eq_left (by omega)]
  | openCl =>
    simp only [maxHits] at hn
    simp only [search]
    rw [Nat.mod_eq_of_lt (by omega), Nat.min_comm]
    rfl

theorem capacity_pos (k : EthashKernel) : 0 < k.capacity := by cases k <;> decide

theorem place_ne {n : Nat} (hn : n < k.maxHits) : k.search.place n ≠ 0 := by
  have := k.capacity_pos
  rw [place_eq hn]
  omega

theorem good_of_le (hwords : words 0 = 0) (hle : hits.gids.length ≤ k.maxHits)
    (hrun : Transition.exec (Tickets.step k.search) (start words hits.gids) es = some t)
    (hdone : t.Done) : k.Good hits t := by
  have hinv := inv_run hwords hrun
  have hlength := hinv.length_tickets hdone
  have hplace : ∀ n < hits.gids.length, k.search.place n ≠ 0 := fun n hn => place_ne (by omega)
  have hplaces := hinv.places fun n hn => hplace n (by omega)
  have hcounter : t.words 0 = hits.gids.length := by
    rw [hinv.counter_eq fun n hn => hplace n (by omega), hlength, iterate_inc k hle]
  have hfound : k.found t.words = min hits.gids.length k.capacity := by
    cases k with
    | cuda =>
      simp only [found, hcounter]
      exact (Nat.min_eq_left hle).symm
    | openCl =>
      simp only [found, hcounter]
      rfl
  have hentry : ∀ j < k.found t.words, (j + 1, t.words (j + 1)) ∈ t.tickets := by
    intro j hj
    rw [hfound] at hj
    have heq : k.search.place j = j + 1 := by
      rw [place_eq (by omega)]
      omega
    have hticket := hinv.mem_tickets hdone (k := j) (fun n hn => hplace n (by omega)) (by omega)
      (hplace j (by omega))
    rwa [heq] at hticket
  constructor
  · intro p hp
    have hmem := List.mem_map_of_mem (f := Prod.fst) ((hinv.mem_stores hdone).mp hp)
    rw [hplaces] at hmem
    obtain ⟨n, hn, heq⟩ := List.mem_map.mp hmem
    have hlt := List.mem_range.mp hn
    have hpos := k.capacity_pos
    have hcap : k.capacity = k.bufferSize - 1 := rfl
    rw [← heq, place_eq (by omega)]
    omega
  · rw [results, List.length_map, List.length_range, hfound]
  · refine List.Nodup.map_on ?_ List.nodup_range
    intro i hi j hj heq
    have h := hinv.words_inj hdone hits.nodup (hentry i (List.mem_range.mp hi))
      (hentry j (List.mem_range.mp hj)) heq
    omega
  · intro gid hgid
    obtain ⟨j, hj, rfl⟩ := List.mem_map.mp hgid
    have hvalue := List.mem_map_of_mem (f := Prod.snd) (hentry j (List.mem_range.mp hj))
    exact (hinv.tickets_values hdone).mem_iff.mp hvalue

/-- The CUDA kernel never stores to the counter. -/
theorem cuda_place_ne (n : Nat) : (search .cuda).place n ≠ 0 := by
  have hle : (search .cuda).inc^[n] 0 ≤ maxHits .cuda := by
    induction n with
    | zero => exact Nat.zero_le _
    | succ n ih =>
      rw [Function.iterate_succ_apply']
      simp only [search, atomicInc, maxHits] at ih ⊢
      split <;> omega
  have hsmall : maxHits .cuda + 1 < quint32Modulus := by decide
  rw [Scheme.place]
  simp only [search] at hle ⊢
  rw [Nat.mod_eq_of_lt (by omega)]
  exact Nat.succ_ne_zero _

/-- The 64th hit of the CUDA kernel is stored behind the buffer. -/
theorem cuda_not_inside (hwords : words 0 = 0) (hlt : maxHits .cuda < hits.gids.length)
    (hrun : Transition.exec (Tickets.step (search .cuda)) (start words hits.gids) es = some t)
    (hdone : t.Done) : ∃ p ∈ t.stores, p.1 = bufferSize .cuda := by
  have hinv := inv_run hwords hrun
  have hlast : (search .cuda).place (maxHits .cuda) = bufferSize .cuda := by
    rw [Scheme.place, iterate_inc .cuda (Nat.le_refl _)]
    decide
  have hticket := hinv.mem_tickets hdone (fun n _ => cuda_place_ne n) hlt (cuda_place_ne _)
  exact ⟨_, (hinv.mem_stores hdone).mpr hticket, hlast⟩

theorem gids_subset (hits : Hits) : hits.gids.toFinset ⊆ Finset.range quint32Modulus := by
  intro gid hgid
  exact Finset.mem_range.mpr (hits.lt gid (List.mem_toFinset.mp hgid))

theorem length_gids_le (hits : Hits) : hits.gids.length ≤ quint32Modulus := by
  have hle := Finset.card_le_card (gids_subset hits)
  rwa [Finset.card_range, List.toFinset_card_of_nodup hits.nodup] at hle

theorem mem_gids_of_full (hfull : quint32Modulus ≤ hits.gids.length) {gid : Nat}
    (hgid : gid < quint32Modulus) : gid ∈ hits.gids := by
  have hcard : (Finset.range quint32Modulus).card ≤ hits.gids.toFinset.card := by
    rwa [Finset.card_range, List.toFinset_card_of_nodup hits.nodup]
  have heq := Finset.eq_of_subset_of_card_le (gids_subset hits) hcard
  exact List.mem_toFinset.mp (heq ▸ Finset.mem_range.mpr hgid)

/-- When every thread has a hit, the last one stores its number over the counter; here it is 0. -/
theorem openCl_not_good (hwords : words 0 = 0) (hlt : maxHits .openCl < hits.gids.length) :
    ∃ es t, Transition.exec (Tickets.step (search .openCl)) (start words hits.gids) es = some t ∧
      t.Done ∧ ¬ Good .openCl hits t := by
  have hzero : 0 ∈ hits.gids := by
    simp only [maxHits] at hlt
    exact mem_gids_of_full (by omega) (by decide)
  have hperm : hits.gids.Perm (hits.gids.erase 0 ++ [0]) :=
    (List.perm_cons_erase hzero).trans (List.perm_append_singleton _ _).symm
  obtain ⟨es, m, hrun, hwaiting, hpending⟩ :=
    exists_run_rest (c := search .openCl) _ _ (start words hits.gids) hperm rfl
  have hinv := inv_run hwords hrun
  have hlength : m.tickets.length = maxHits .openCl := by
    have hle := length_gids_le hits
    have htotal := hinv.values.length_eq
    rw [List.length_append, List.length_map, hwaiting.length_eq, List.length_singleton] at htotal
    simp only [maxHits] at hlt ⊢
    omega
  have hcounter : m.words 0 = maxHits .openCl := by
    rw [hinv.counter_eq fun n hn => place_ne (hlength ▸ hn), hlength, iterate_inc _ (Nat.le_refl _)]
  have hwait : m.waiting = [0] := List.perm_singleton.mp hwaiting
  have htake : Tickets.step (search .openCl) m (.take 0) = some (m.take (search .openCl) 0) := by
    refine if_pos ?_
    rw [hwait]
    exact List.mem_singleton.mpr rfl
  have hslot : (search .openCl).slot (maxHits .openCl) = 0 := by decide
  have hticket : (m.take (search .openCl) 0).pending = [(0, 0)] := by
    simp only [Memory.take, hpending, hcounter, hslot, List.nil_append]
  refine ⟨es ++ [.take 0, .store (0, 0)],
    (m.take (search .openCl) 0).store (0, 0), ?_, ⟨?_, ?_⟩, ?_⟩
  · refine Transition.exec_append.mpr ⟨m, hrun, Transition.exec_cons.mpr ⟨_, htake, ?_⟩⟩
    refine Transition.exec_cons.mpr ⟨_, if_pos ?_, rfl⟩
    rw [hticket]
    exact List.mem_singleton.mpr rfl
  · simp [Memory.take, Memory.store, hwait]
  · simp only [Memory.store, hticket, List.erase_cons_head]
  · intro hgood
    have hlen := hgood.length
    have hcap : 0 < capacity .openCl ∧ capacity .openCl < maxHits .openCl := by decide
    simp only [results, List.length_map, List.length_range, found, Memory.store, write_self,
      Nat.zero_min] at hlen
    omega

/-- A kernel stays in its buffer and the host reads all its hits, up to the capacity, in every order
of the threads exactly when there are at most `maxHits` hits. -/
theorem good_iff (k : EthashKernel) (hits : Hits) (words : Nat → Nat) (hwords : words 0 = 0) :
    (∀ es t, Transition.exec (Tickets.step k.search) (start words hits.gids) es = some t → t.Done →
      k.Good hits t) ↔ hits.gids.length ≤ k.maxHits := by
  constructor
  · intro h
    by_contra hnot
    have hlt := Nat.not_le.mp hnot
    cases k with
    | cuda =>
      obtain ⟨es, t, hrun, hdone⟩ := exists_run (c := search .cuda) words hits.gids
      obtain ⟨p, hp, heq⟩ := cuda_not_inside hwords hlt hrun hdone
      exact absurd ((h es t hrun hdone).inside p hp) (Nat.not_lt.mpr (Nat.le_of_eq heq.symm))
    | openCl =>
      obtain ⟨es, t, hrun, hdone, hbad⟩ := openCl_not_good hwords hlt
      exact hbad (h es t hrun hdone)
  · intro hle es t hrun hdone
    exact good_of_le hwords hle hrun hdone

theorem good_iff_two_hits :
    ∃ hits : Hits, hits.gids = [7, 5] ∧ hits.gids.length ≤ maxHits .cuda ∧
      ((∀ es t, Transition.exec (Tickets.step (search .cuda)) (start (fun _ => 0) hits.gids) es =
          some t → t.Done → Good .cuda hits t) ↔ hits.gids.length ≤ maxHits .cuda) :=
  ⟨⟨[7, 5], by decide, by decide⟩, rfl, by decide, good_iff .cuda _ (fun _ => 0) rfl⟩

/-- 64 hits of one CUDA launch. -/
theorem cuda_stores_behind_buffer :
    ¬ ∀ (k : EthashKernel) (hits : Hits) (words : Nat → Nat), words 0 = 0 → ∀ es t,
      Transition.exec (Tickets.step k.search) (start words hits.gids) es = some t → t.Done →
        k.Good hits t := by
  intro h
  let hits : Hits := ⟨List.range 64, List.nodup_range, by decide⟩
  obtain ⟨es, t, hrun, hdone⟩ := exists_run (c := search .cuda) (fun _ => 0) hits.gids
  have houtside : ∃ p ∈ t.stores, p.1 = bufferSize .cuda :=
    cuda_not_inside rfl (by decide) hrun hdone
  obtain ⟨p, hp, heq⟩ := houtside
  have hinside := (h .cuda hits (fun _ => 0) rfl es t hrun hdone).inside p hp
  exact absurd hinside (Nat.not_lt.mpr (Nat.le_of_eq heq.symm))

end EthashKernel

end MinerGate
