import Mathlib.Data.List.Chain
import MinerGate.Miner.HRCounter

/-!
# The ring of the hash rate

Between `m_oldest` and `m_latest` lie the items that `HRCounter` retains, with one slot as a gap.
`getHashrate` is followed here with the positions that its walk comes to and with what it divides
by; nothing is asked of the clock.
-/

namespace MinerGate

set_option autoImplicit false

/-- A call that changes the counter. -/
inductive HROp where
  | addHRItem (hashes : UInt64) (currentDateTime : Int)
  | reset
deriving DecidableEq, Repr

namespace HRCounter

def perform (c : HRCounter) : HROp → HRCounter
  | .addHRItem hashes currentDateTime => c.addHRItem hashes currentDateTime
  | .reset => c.reset

def run (size : Nat) (ops : List HROp) : HRCounter := ops.foldl perform (new size)

/-- What `getHashrate` does: the positions of `tmp` in the `do` loop, the first one included, what
it divides by, and the result. -/
structure RateRun where
  path : List Nat
  divisor : Option ℚ
  value : ℚ
deriving DecidableEq, Repr

/-- The end of both ways to compute a rate. -/
def RateRun.divide (path : List Nat) (hashes : UInt64) (timeDiff : Int) : RateRun :=
  if timeDiff = 0 then ⟨path, none, 0⟩
  else ⟨path, some (timeDiff / 1000 : ℚ), hashes.toNat / (timeDiff / 1000 : ℚ)⟩

/-- The `do` loop with the positions of `tmp`. -/
def walkPath (c : HRCounter) (last secs : Nat) : Nat → Nat → List Nat → UInt64 →
    Option (List Nat × UInt64)
  | 0, _, _, _ => none
  | fuel + 1, tmp, path, hashes =>
    let hashes := hashes + (c.item tmp).hashes
    let tmp := c.back tmp
    let path := path ++ [tmp]
    if ((c.item tmp).time.msecsTo (c.item last).time / 1000 : ℚ) < secs ∧ tmp ≠ c.m_oldest then
      walkPath c last secs fuel tmp path hashes
    else some (path, hashes)

/-- `none` is a walk that does not end within a round. -/
def rateRun (c : HRCounter) (secs : UInt32) : Option RateRun :=
  if (c.item c.m_oldest).time = none then some ⟨[], none, 0⟩
  else if c.m_latest = c.m_hr_list.length then some ⟨[], none, 0⟩
  else
    let last := c.back c.m_latest
    if secs = 0 ∨ (c.item c.m_oldest).time.secsTo (c.item last).time < secs.toNat then
      some (.divide [] ((List.range c.m_size).map fun i => (c.item i).hashes).sum
        ((c.item c.m_oldest).time.msecsTo (c.item last).time))
    else
      (c.walkPath last secs.toNat c.m_size last [last] 0).map fun (path, hashes) =>
        .divide path hashes ((c.item (path.getLastD last)).time.msecsTo (c.item last).time)

/-- Both iterators are in the vector, and between them lie the last items, oldest first. -/
structure Ring (c : HRCounter) (size : Nat) (items : List HRItem) : Prop where
  latest : c.m_latest < c.m_hr_list.length
  oldest : c.m_oldest < c.m_hr_list.length
  retained : c.toBuffer.collect c.m_hr_list.length c.m_oldest =
    some (items.drop (items.length - min items.length (size - 1)))

/-- The walk starts at the newest item and goes back slot by slot, not over the gap and not beyond
the oldest item; what is divided by is not zero. -/
structure WalkRight (c : HRCounter) (items : List HRItem) (r : RateRun) : Prop where
  newest : ∀ i, r.path.head? = some i → c.m_hr_list[i]? = items.getLast?
  back : r.path.IsChain fun i j => j = c.back i
  latest : c.m_latest ∉ r.path
  oldest : c.m_oldest ∉ r.path.dropLast
  divisor : r.divisor ≠ some 0

section Trace
variable {c : HRCounter} {last secs tmp fuel : Nat} {hashes : UInt64}

theorem value_divide (path : List Nat) (hashes : UInt64) (timeDiff : Int) :
    (RateRun.divide path hashes timeDiff).value = rate hashes timeDiff := by
  rw [RateRun.divide, rate]
  split
  · rfl
  · rfl

theorem path_divide (path : List Nat) (hashes : UInt64) (timeDiff : Int) :
    (RateRun.divide path hashes timeDiff).path = path := by
  rw [RateRun.divide]
  split
  · rfl
  · rfl

theorem divisor_divide (path : List Nat) (hashes : UInt64) (timeDiff : Int) :
    (RateRun.divide path hashes timeDiff).divisor ≠ some 0 := by
  rw [RateRun.divide]
  split
  · exact fun h => by cases h
  case isFalse hne =>
    intro h
    have hzero : (timeDiff / 1000 : ℚ) = 0 := Option.some.inj h
    apply hne
    have hnum : (timeDiff : ℚ) = 0 := by
      rcases div_eq_zero_iff.mp hzero with h | h
      · exact h
      · norm_num at h
    exact_mod_cast hnum

/-- The walk with its positions is the walk. -/
theorem walk_eq_walkPath (path : List Nat) : c.walk last secs fuel tmp hashes =
    (c.walkPath last secs fuel tmp path hashes).map fun p => (p.1.getLastD last, p.2) := by
  induction fuel generalizing tmp path hashes with
  | zero => rfl
  | succ fuel ih =>
    rw [walk, walkPath]
    split
    · exact ih _
    · rw [Option.map_some, List.getLastD_concat]

theorem getHashrate_eq_rateRun (c : HRCounter) (secs : UInt32) :
    c.getHashrate secs = (c.rateRun secs).map (·.value) := by
  rw [getHashrate, rateRun]
  split
  · rfl
  split
  · rfl
  dsimp only
  split
  · rw [Option.map_some, value_divide]
  · rw [walk_eq_walkPath [c.back c.m_latest], Option.map_map, Option.map_map]
    simp only [Function.comp_def, value_divide]

/-- Every position of the walk is the one before its predecessor. -/
theorem walkPath_isChain {path path' : List Nat} {sum : UInt64}
    (hpath : path.IsChain fun i j => j = c.back i) (hlast : path.getLast? = some tmp)
    (h : c.walkPath last secs fuel tmp path hashes = some (path', sum)) :
    path'.IsChain fun i j => j = c.back i := by
  induction fuel generalizing tmp path hashes with
  | zero => cases h
  | succ fuel ih =>
    have hnext : (path ++ [c.back tmp]).IsChain fun i j => j = c.back i := by
      rw [List.isChain_append]
      refine ⟨hpath, List.isChain_singleton _, fun i hi j hj => ?_⟩
      rw [hlast, Option.mem_some_iff] at hi
      rw [List.head?_cons, Option.mem_some_iff] at hj
      rw [← hi, ← hj]
    rw [walkPath] at h
    split at h
    · exact ih hnext List.getLast?_concat h
    · cases h
      exact hnext

end Trace

end HRCounter

def keepSample (samples : List (UInt64 × Int)) : HROp → List (UInt64 × Int)
  | .addHRItem hashes currentDateTime => samples ++ [(hashes, currentDateTime)]
  | .reset => []

/-- The amounts of the calls after the last reset. -/
def samplesSince (ops : List HROp) : List (UInt64 × Int) := ops.foldl keepSample []

def itemsSince (ops : List HROp) : List HRItem :=
  (samplesSince ops).map fun sample => ⟨sample.1, some sample.2⟩

/-- A reset leaves a new counter. -/
theorem run_eq_counter (size : Nat) (ops : List HROp) :
    HRCounter.run size ops = (HRHistory.mk size (samplesSince ops)).counter := by
  induction ops using List.reverseRecOn with
  | nil => rfl
  | append_singleton ops op ih =>
    have hrun : HRCounter.run size (ops ++ [op]) = (HRCounter.run size ops).perform op :=
      List.foldl_append
    have hsamples : samplesSince (ops ++ [op]) = keepSample (samplesSince ops) op :=
      List.foldl_append
    rw [hrun, hsamples, ih]
    cases op with
    | addHRItem hashes currentDateTime =>
      rw [keepSample, HRHistory.counter, HRHistory.counter, List.foldl_append]
      rfl
    | reset =>
      rw [HRCounter.perform, HRCounter.reset, HRHistory.m_size_counter]
      rfl

namespace HRHistory
variable {h : HRHistory} {secs : UInt32}

/-- The positions of the items from `a` down to `base`. -/
def slotsDown (h : HRHistory) (base a : Nat) : List Nat :=
  ((List.range' base (a + 1 - base)).reverse).map (· % h.size)

theorem mem_slotsDown {base a p : Nat} :
    p ∈ h.slotsDown base a ↔ ∃ i, base ≤ i ∧ i ≤ a ∧ i % h.size = p := by
  simp only [slotsDown, List.mem_map, List.mem_reverse, List.mem_range'_1]
  constructor
  · intro ⟨i, hi, hp⟩
    exact ⟨i, hi.1, by omega, hp⟩
  · intro ⟨i, hbase, ha, hp⟩
    exact ⟨i, ⟨hbase, by omega⟩, hp⟩

theorem slotsDown_self (base : Nat) : h.slotsDown base base = [base % h.size] := by
  simp [slotsDown]

theorem slotsDown_succ {base a : Nat} (hle : base ≤ a + 1) :
    h.slotsDown base (a + 1) = (a + 1) % h.size :: h.slotsDown base a := by
  have hlen : a + 1 + 1 - base = (a + 1 - base) + 1 := by omega
  have hlast : base + (a + 1 - base) = a + 1 := by omega
  rw [slotsDown, hlen, List.range'_concat, List.reverse_append, List.map_append, Nat.one_mul, hlast]
  rfl

theorem head?_slotsDown {base a : Nat} (hlt : base < a) :
    (h.slotsDown base a).head? = some (a % h.size) := by
  obtain ⟨n, hn⟩ : ∃ n, a = n + 1 := ⟨a - 1, by omega⟩
  rw [hn, slotsDown_succ (by omega), List.head?_cons]

theorem dropLast_slotsDown {base a : Nat} (hle : base ≤ a) :
    (h.slotsDown base a).dropLast = h.slotsDown (base + 1) a := by
  have hlen : a + 1 - base = (a + 1 - (base + 1)) + 1 := by omega
  rw [slotsDown, hlen, List.range'_succ, List.reverse_cons, List.map_append]
  exact List.dropLast_concat

theorem rateRun_of_empty (hempty : h.samples = []) :
    h.counter.rateRun secs = some ⟨[], none, 0⟩ := by
  rw [HRCounter.rateRun, item_m_oldest_of_empty hempty]
  exact if_pos rfl

/-- A rate without a walk. -/
theorem walkRight_of_path_nil {r : HRCounter.RateRun} (hpath : r.path = [])
    (hdivisor : r.divisor ≠ some 0) : h.counter.WalkRight h.items r := by
  constructor
  · intro i hi
    rw [hpath] at hi
    cases hi
  · rw [hpath]
    exact .nil
  · rw [hpath]
    exact List.not_mem_nil
  · rw [hpath]
    exact List.not_mem_nil
  · exact hdivisor

section Counter
variable (hsize : 2 ≤ h.size)
include hsize

/-- The walk comes down to some item that is retained. -/
theorem walkPath_counter {last s a fuel : Nat} (hold : h.oldest < a) (ha : a ≤ h.last)
    (hfuel : a ≤ h.oldest + fuel) (path : List Nat) (hashes : UInt64) :
    ∃ base sum, h.counter.walkPath last s fuel (a % h.size) path hashes =
      some (path ++ h.slotsDown base (a - 1), sum) ∧ h.oldest ≤ base ∧ base < a := by
  induction fuel generalizing a path hashes with
  | zero => omega
  | succ fuel ih =>
    obtain ⟨i, rfl⟩ : ∃ i, a = i + 1 := ⟨a - 1, by omega⟩
    rw [HRCounter.walkPath, back_counter hsize]
    split
    case isTrue hgo =>
      have hne : i ≠ h.oldest := by
        intro heq
        rw [heq, m_oldest_counter hsize] at hgo
        exact hgo.2 rfl
      obtain ⟨j, rfl⟩ : ∃ j, i = j + 1 := ⟨i - 1, by omega⟩
      obtain ⟨base, sum, hwalk, hle, hlt⟩ := @ih (j + 1) (by omega) (by omega) (by omega)
        (path ++ [(j + 1) % h.size])
        (hashes + (h.counter.item ((j + 1 + 1) % h.size)).hashes)
      refine ⟨base, sum, ?_, hle, by omega⟩
      rw [hwalk, List.append_assoc, Nat.add_sub_cancel, Nat.add_sub_cancel,
        slotsDown_succ (by omega)]
      rfl
    case isFalse =>
      refine ⟨i, hashes + (h.counter.item ((i + 1) % h.size)).hashes, ?_, by omega,
        Nat.lt_succ_self i⟩
      rw [Nat.add_sub_cancel, slotsDown_self]

/-- On the long path the walk goes from the newest item down to some item that is retained. -/
theorem rateRun_of_long (hpos : 0 < h.samples.length) (hlong : ¬ h.Short secs) :
    ∃ base sum r, h.counter.rateRun secs = some r ∧ r.path = h.slotsDown base h.last ∧
      r.divisor ≠ some 0 ∧ h.counter.walkPath (h.last % h.size) secs.toNat h.size (h.last % h.size)
          [h.last % h.size] 0 = some (h.slotsDown base h.last, sum) ∧
        h.oldest ≤ base ∧ base < h.last := by
  obtain ⟨holdest, hlast, hlatest, hback⟩ := ends_counter hsize hpos
  have hold : h.oldest < h.last := by
    have hlt := oldest_lt hsize hpos
    have hsecs := secs_pos hlong
    have hfar := stops_oldest hlong
    by_contra hnot
    have heq : h.oldest = h.last := by
      unfold last at hnot ⊢
      omega
    rw [Stops, heq] at hfar
    omega
  have hround : h.last ≤ h.oldest + h.size := by
    have hlt := le_oldest_add (h := h) (by omega)
    unfold last
    omega
  obtain ⟨base, sum, hwalk, hle, hlt⟩ := @walkPath_counter h hsize (h.last % h.size) secs.toNat
    h.last h.size hold (Nat.le_refl _) hround [h.last % h.size] 0
  have hdown : [h.last % h.size] ++ h.slotsDown base (h.last - 1) = h.slotsDown base h.last := by
    obtain ⟨n, hn⟩ : ∃ n, h.last = n + 1 := ⟨h.last - 1, by omega⟩
    rw [hn, Nat.add_sub_cancel, slotsDown_succ (by omega)]
    rfl
  rw [hdown] at hwalk
  refine ⟨base, sum, .divide (h.slotsDown base h.last) sum
    ((h.counter.item ((h.slotsDown base h.last).getLastD (h.last % h.size))).time.msecsTo
      (some (h.timeAt h.last))), ?_, HRCounter.path_divide _ _ _, HRCounter.divisor_divide _ _ _,
    hwalk, hle, hlt⟩
  rw [HRCounter.rateRun, holdest, if_neg (by simp), if_neg hlatest, hback]
  dsimp only
  rw [hlast, m_size_counter, hwalk, Option.map_some]
  exact if_neg hlong

theorem rateRun_of_short (hpos : 0 < h.samples.length) (hshort : h.Short secs) :
    ∃ r, h.counter.rateRun secs = some r ∧ r.path = [] ∧ r.divisor ≠ some 0 := by
  obtain ⟨holdest, hlast, hlatest, hback⟩ := ends_counter hsize hpos
  refine ⟨.divide [] ((List.range h.counter.m_size).map fun i => (h.counter.item i).hashes).sum
    (h.timeAt h.last - h.timeAt h.oldest), ?_, HRCounter.path_divide _ _ _,
    HRCounter.divisor_divide _ _ _⟩
  rw [HRCounter.rateRun, holdest, if_neg (by simp), if_neg hlatest, hback]
  dsimp only
  rw [hlast]
  exact if_pos hshort

/-- No retained item is in the slot of the next one. -/
theorem m_latest_notMem {base : Nat} (hpos : 0 < h.samples.length) (hold : h.oldest ≤ base) :
    h.counter.m_latest ∉ h.slotsDown base h.last := by
  intro hmem
  obtain ⟨i, hbase, hlast, hslot⟩ := mem_slotsDown.mp hmem
  have hround := le_oldest_add (h := h) (by omega)
  have hlt := last_lt hpos
  rw [m_latest_counter hsize] at hslot
  exact CircularBuffer.mod_ne (by omega) (by omega) hslot

theorem m_oldest_notMem {base : Nat} (hold : h.oldest < base) :
    h.counter.m_oldest ∉ h.slotsDown base h.last := by
  intro hmem
  obtain ⟨i, hbase, hlast, hslot⟩ := mem_slotsDown.mp hmem
  have hround := le_oldest_add (h := h) (by omega)
  rw [m_oldest_counter hsize] at hslot
  have hlt : i < h.oldest + h.size := by
    unfold last at hlast
    omega
  exact CircularBuffer.mod_ne (by omega) hlt hslot.symm

/-- What the counter retains, and where its iterators stand. -/
theorem ring_counter : h.counter.Ring h.size h.items := by
  have hpos : 0 < h.size := by omega
  have hholds := holds_counter hpos
  refine ⟨?_, ?_, ?_⟩
  · rw [m_latest_counter hsize, length_counter hsize]
    exact Nat.mod_lt _ hpos
  · rw [m_oldest_counter hsize, length_counter hsize]
    exact Nat.mod_lt _ hpos
  · have hfirst : h.items.length - min h.items.length (h.size - 1) =
        CircularBuffer.first h.size h.items.length := by
      unfold CircularBuffer.first
      omega
    rw [length_counter hsize, hfirst]
    exact hholds.collect_oldest hpos

/-- The walk starts at the newest item. -/
theorem newest_counter (hpos : 0 < h.samples.length) :
    h.counter.m_hr_list[h.last % h.size]? = h.items.getLast? := by
  have hlength : h.items.length = h.samples.length := List.length_map _
  have hlt : h.last < h.items.length := by
    rw [hlength]
    exact last_lt hpos
  have hround : h.items.length ≤ h.last + h.size := by
    rw [hlength]
    unfold last
    omega
  have hslot := (holds_counter (h := h) (by omega)).written h.last hlt hround
  have hlast : h.items.length - 1 = h.last := by
    rw [hlength]
    rfl
  rw [List.getLast?_eq_getElem?, hlast, List.getElem?_eq_getElem hlt]
  exact hslot

theorem walkRight_counter (secs : UInt32) :
    ∃ r, h.counter.rateRun secs = some r ∧ h.counter.WalkRight h.items r := by
  rcases Nat.eq_zero_or_pos h.samples.length with hzero | hpos
  · refine ⟨_, rateRun_of_empty (List.eq_nil_of_length_eq_zero hzero), ?_⟩
    exact walkRight_of_path_nil rfl fun h => by cases h
  by_cases hshort : h.Short secs
  · obtain ⟨r, hr, hpath, hdivisor⟩ := rateRun_of_short hsize hpos hshort
    exact ⟨r, hr, walkRight_of_path_nil hpath hdivisor⟩
  · obtain ⟨base, sum, r, hr, hpath, hdivisor, hwalk, hold, hlt⟩ :=
      rateRun_of_long hsize hpos hshort
    refine ⟨r, hr, ?_, ?_, ?_, ?_, hdivisor⟩
    · intro i hi
      rw [hpath, head?_slotsDown hlt, Option.some.injEq] at hi
      rw [← hi]
      exact newest_counter hsize hpos
    · rw [hpath]
      exact HRCounter.walkPath_isChain (List.isChain_singleton _) rfl hwalk
    · rw [hpath]
      exact m_latest_notMem hsize hpos hold
    · rw [hpath, dropLast_slotsDown (Nat.le_of_lt hlt)]
      exact m_oldest_notMem hsize (Nat.lt_succ_of_le hold)

end Counter
end HRHistory

/-- After any calls of `addHRItem` and `reset`, the slots from the oldest item up to the gap hold
the last items in order; and whatever the clock does, `getHashrate` goes back from the newest item
no further than to the oldest one and never divides by zero. -/
theorem ring_invariant {size : Nat} (hsize : 2 ≤ size) (ops : List HROp) :
    (HRCounter.run size ops).Ring size (itemsSince ops) ∧
      ∀ secs, ∃ r, (HRCounter.run size ops).rateRun secs = some r ∧
        (HRCounter.run size ops).getHashrate secs = some r.value ∧
          (HRCounter.run size ops).WalkRight (itemsSince ops) r := by
  rw [run_eq_counter]
  refine ⟨HRHistory.ring_counter hsize, fun secs => ?_⟩
  obtain ⟨r, hr, hright⟩ := HRHistory.walkRight_counter (h := ⟨size, samplesSince ops⟩) hsize secs
  refine ⟨r, hr, ?_, hright⟩
  rw [HRCounter.getHashrate_eq_rateRun, hr, Option.map_some]

/-- A reset between the calls, and a clock that has stepped backwards. -/
def resetCalls : List HROp :=
  [.addHRItem 5 1000, .reset, .addHRItem 3 9000, .addHRItem 4 7000, .addHRItem 6 8000]

theorem ring_of_three_slots :
    itemsSince resetCalls = [⟨3, some 9000⟩, ⟨4, some 7000⟩, ⟨6, some 8000⟩] ∧
      (HRCounter.run 3 resetCalls).Ring 3 (itemsSince resetCalls) ∧
      ∀ secs, ∃ r, (HRCounter.run 3 resetCalls).rateRun secs = some r ∧
        (HRCounter.run 3 resetCalls).getHashrate secs = some r.value ∧
          (HRCounter.run 3 resetCalls).WalkRight (itemsSince resetCalls) r :=
  ⟨rfl, ring_invariant (by decide) resetCalls⟩

end MinerGate
