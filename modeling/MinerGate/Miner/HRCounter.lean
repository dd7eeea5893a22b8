import Mathlib.Algebra.Order.Field.Rat
import Mathlib.Data.Rat.Cast.Order
import Mathlib.Data.UInt
import MinerGate.Lib.CircularBuffer

/-!
# The hash rate

`HRCounter` keeps the amounts that were counted with their times. `getHashrate` computes a rate over
the last seconds in one of two ways, of which the one for a short history goes over all slots of the
buffer. A `qreal` is a rational number here, without the rounding of its 64 bits.
-/

namespace MinerGate

set_option autoImplicit false

/-- The milliseconds of a `QDateTime`; none is the null one. -/
abbrev QDateTime := Option Int

namespace QDateTime

def msecsTo : QDateTime → QDateTime → Int
  | some t, some other => other - t
  | _, _ => 0

def secsTo (t other : QDateTime) : Int := (t.msecsTo other).tdiv 1000

end QDateTime

structure HRItem where
  hashes : UInt64
  time : QDateTime
deriving DecidableEq, Repr

def HRItem.null : HRItem := ⟨0, none⟩

/-- The iterators are positions in the vector. -/
structure HRCounter where
  m_hr_list : List HRItem
  m_size : Nat
  m_latest : Nat
  m_oldest : Nat
deriving DecidableEq, Repr

namespace HRCounter

def reset (c : HRCounter) : HRCounter where
  m_hr_list := List.replicate c.m_size .null
  m_size := c.m_size
  m_latest := 0
  m_oldest := 0

def new (size : Nat) : HRCounter := reset ⟨[], size, 0, 0⟩

def addHRItem (c : HRCounter) (hashes : UInt64) (currentDateTime : Int) : HRCounter :=
  let m_hr_list := c.m_hr_list.set c.m_latest ⟨hashes, some currentDateTime⟩
  let m_latest := if c.m_latest + 1 = m_hr_list.length then 0 else c.m_latest + 1
  let m_oldest :=
    if m_latest = c.m_oldest then
      if c.m_oldest + 1 = m_hr_list.length then 0 else c.m_oldest + 1
    else c.m_oldest
  { c with m_hr_list := m_hr_list, m_latest := m_latest, m_oldest := m_oldest }

def item (c : HRCounter) (i : Nat) : HRItem := c.m_hr_list.getD i .null

/-- The position before, from the beginning the last one. -/
def back (c : HRCounter) (i : Nat) : Nat := (if i = 0 then c.m_hr_list.length else i) - 1

def rate (hashes : UInt64) (timeDiff : Int) : ℚ :=
  if timeDiff = 0 then 0 else hashes.toNat / (timeDiff / 1000 : ℚ)

/-- The `do` loop: where it stops, and its sum. -/
def walk (c : HRCounter) (last secs : Nat) : Nat → Nat → UInt64 → Option (Nat × UInt64)
  | 0, _, _ => none
  | fuel + 1, tmp, hashes =>
    let hashes := hashes + (c.item tmp).hashes
    let tmp := c.back tmp
    if ((c.item tmp).time.msecsTo (c.item last).time / 1000 : ℚ) < secs ∧ tmp ≠ c.m_oldest then
      walk c last secs fuel tmp hashes
    else some (tmp, hashes)

/-- `none` is a walk that does not end within a round. -/
def getHashrate (c : HRCounter) (secs : UInt32) : Option ℚ :=
  if (c.item c.m_oldest).time = none then some 0
  else if c.m_latest = c.m_hr_list.length then some 0
  else
    let last := c.back c.m_latest
    if secs = 0 ∨ (c.item c.m_oldest).time.secsTo (c.item last).time < secs.toNat then
      some (rate ((List.range c.m_size).map fun i => (c.item i).hashes).sum
        ((c.item c.m_oldest).time.msecsTo (c.item last).time))
    else
      (c.walk last secs.toNat c.m_size last 0).map fun (tmp, hashes) =>
        rate hashes ((c.item tmp).time.msecsTo (c.item last).time)

def toBuffer (c : HRCounter) : CircularBuffer HRItem := ⟨c.m_hr_list, c.m_latest, c.m_oldest⟩

theorem toBuffer_new (size : Nat) : (new size).toBuffer = .start size .null := rfl

theorem toBuffer_addHRItem (c : HRCounter) (hashes : UInt64) (time : Int) :
    (c.addHRItem hashes time).toBuffer = c.toBuffer.push ⟨hashes, some time⟩ := by
  simp only [addHRItem, toBuffer, CircularBuffer.push, CircularBuffer.next, List.length_set]
  rfl

end HRCounter

/-- The amounts that a counter of some size has been given since its last reset, oldest first. -/
structure HRHistory where
  size : Nat
  samples : List (UInt64 × Int)

namespace HRHistory
variable (h : HRHistory) (secs : UInt32)

def counter : HRCounter :=
  h.samples.foldl (fun c sample => c.addHRItem sample.1 sample.2) (.new h.size)

def items : List HRItem := h.samples.map fun sample => ⟨sample.1, some sample.2⟩

def timeAt (i : Nat) : Int := (h.samples[i]?.map Prod.snd).getD 0

def hashesAt (i : Nat) : Nat := (h.samples[i]?.map fun sample => sample.1.toNat).getD 0

/-- The number of the oldest item that is retained. -/
def oldest : Nat := CircularBuffer.first h.size h.samples.length

def last : Nat := h.samples.length - 1

def hashesAfter (base : Nat) : Nat := ((h.samples.drop (base + 1)).map fun s => s.1.toNat).sum

/-- The hashes of the item that was given up last. -/
def dropped : Nat := if h.oldest = 0 then 0 else h.hashesAt (h.oldest - 1)

/-- Two of the retained items have different times. -/
def Differ : Prop :=
  ∃ i j, h.oldest ≤ i ∧ i < h.samples.length ∧ h.oldest ≤ j ∧ j < h.samples.length ∧
    h.timeAt i ≠ h.timeAt j

/-- The path for a short history is taken. -/
def Short : Prop := secs = 0 ∨ (h.timeAt h.last - h.timeAt h.oldest).tdiv 1000 < secs.toNat

/-- An item that is far enough back for the walk to stop at. -/
def Stops (i : Nat) : Prop := 1000 * (secs.toNat : Int) ≤ h.timeAt h.last - h.timeAt i

/-- The base item: the oldest one, or the one where the backward walk stops. -/
structure IsBase (base : Nat) : Prop where
  retained : h.oldest ≤ base
  lt : base < h.last
  short : h.Short secs → base = h.oldest
  stops : ¬ h.Short secs → h.Stops secs base ∧ ∀ i, base < i → i < h.last → ¬ h.Stops secs i

/-- The law of the hash rate. -/
structure Law (v : ℚ) : Prop where
  zero : ¬ h.Differ → v = 0
  rate : h.Differ → ∃ base, h.IsBase secs base ∧
    v = h.hashesAfter base / ((h.timeAt h.last - h.timeAt base : Int) / 1000 : ℚ)

/-- The sum after the base has 64 bits, and on the path for a short history the base and the item
that was given up last have counted nothing. -/
def Exact : Prop :=
  h.Differ → ∀ base, h.IsBase secs base → h.hashesAfter base < 18446744073709551616 ∧
    (h.Short secs → (h.hashesAt base + h.dropped) % 18446744073709551616 = 0)

/-- The clock has not stepped backwards. -/
def Ordered : Prop := h.samples.Pairwise fun s t => s.2 ≤ t.2

variable {h secs}

theorem IsBase.unique {b b' : Nat} (hb : h.IsBase secs b) (hb' : h.IsBase secs b') : b = b' := by
  by_cases hshort : h.Short secs
  · rw [hb.short hshort, hb'.short hshort]
  · obtain ⟨hstop, hnone⟩ := hb.stops hshort
    obtain ⟨hstop', hnone'⟩ := hb'.stops hshort
    rcases Nat.lt_trichotomy b b' with hlt | heq | hgt
    · exact absurd hstop' (hnone b' hlt hb'.lt)
    · exact heq
    · exact absurd hstop (hnone' b hgt hb.lt)

theorem holds_counter (hsize : 0 < h.size) :
    h.counter.toBuffer.Holds h.size .null h.items := by
  have hfold : ∀ (samples : List (UInt64 × Int)) (c : HRCounter),
      (samples.foldl (fun c sample => c.addHRItem sample.1 sample.2) c).toBuffer =
        (samples.map fun sample => (⟨sample.1, some sample.2⟩ : HRItem)).foldl .push
          c.toBuffer := by
    intro samples
    induction samples with
    | nil => exact fun c => rfl
    | cons sample samples ih =>
      intro c
      rw [List.foldl_cons, List.map_cons, List.foldl_cons, ih, HRCounter.toBuffer_addHRItem]
  rw [counter, hfold, HRCounter.toBuffer_new]
  exact CircularBuffer.holds_foldl hsize .null h.items

theorem m_size_counter (h : HRHistory) : h.counter.m_size = h.size := by
  have hfold : ∀ (samples : List (UInt64 × Int)) (c : HRCounter),
      (samples.foldl (fun c sample => c.addHRItem sample.1 sample.2) c).m_size = c.m_size := by
    intro samples
    induction samples with
    | nil => exact fun c => rfl
    | cons sample samples ih => exact fun c => ih _
  exact hfold h.samples _

/-- The hashes from item `i` on. -/
def hashesFrom (h : HRHistory) (i : Nat) : Nat :=
  ((h.samples.drop i).map fun s => s.1.toNat).sum

theorem hashesFrom_eq {i : Nat} (hi : i < h.samples.length) :
    h.hashesFrom i = h.hashesAt i + h.hashesAfter i := by
  rw [hashesFrom, hashesAt, hashesAfter, List.getElem?_eq_getElem hi, List.drop_eq_getElem_cons hi,
    List.map_cons, List.sum_cons]
  rfl

theorem hashesAfter_last (h : HRHistory) : h.hashesAfter h.last = 0 := by
  rw [hashesAfter, last, List.drop_of_length_le (by omega)]
  rfl

theorem le_oldest_add (hsize : 0 < h.size) : h.samples.length < h.oldest + h.size := by
  unfold oldest CircularBuffer.first
  omega

theorem oldest_lt (hsize : 2 ≤ h.size) (hpos : 0 < h.samples.length) :
    h.oldest < h.samples.length := by
  unfold oldest CircularBuffer.first
  omega

theorem last_lt (hpos : 0 < h.samples.length) : h.last < h.samples.length := by
  unfold last
  omega

theorem secs_pos (hlong : ¬ h.Short secs) : 0 < secs.toNat := by
  apply Nat.pos_of_ne_zero
  intro hzero
  exact hlong (Or.inl (UInt32.toNat_inj.mp hzero))

/-- On the long path the oldest item is far enough back. -/
theorem stops_oldest (hlong : ¬ h.Short secs) : h.Stops secs h.oldest := by
  have hsecs := secs_pos hlong
  have hdiv := Int.not_lt.mp fun hlt => hlong (Or.inr hlt)
  have hnonneg : 0 ≤ h.timeAt h.last - h.timeAt h.oldest := by
    by_contra hneg
    have htdiv : 0 ≤ (-(h.timeAt h.last - h.timeAt h.oldest)).tdiv 1000 :=
      Int.tdiv_nonneg (by omega) (by decide)
    rw [Int.neg_tdiv] at htdiv
    omega
  rw [Int.tdiv_eq_ediv_of_nonneg hnonneg] at hdiv
  unfold Stops
  omega

theorem toNat_sum (l : List UInt64) :
    l.sum.toNat = (l.map UInt64.toNat).sum % 18446744073709551616 := by
  induction l with
  | nil => rfl
  | cons x l ih =>
    rw [List.sum_cons, List.map_cons, List.sum_cons, UInt64.toNat_add, ih]
    exact Nat.add_mod_mod _ _ _

theorem kept_sum (hsize : 2 ≤ h.size) (hpos : 0 < h.samples.length) :
    h.hashesFrom (h.samples.length - h.size) =
      h.hashesAt h.oldest + h.dropped + h.hashesAfter h.oldest := by
  have hlt := oldest_lt hsize hpos
  have hfrom := hashesFrom_eq hlt
  by_cases hzero : h.oldest = 0
  · have hall : h.samples.length - h.size = h.oldest := by
      unfold oldest CircularBuffer.first at hzero ⊢
      omega
    rw [hall, hfrom, dropped, if_pos hzero]
    omega
  · have hprev : h.samples.length - h.size = h.oldest - 1 := by
      unfold oldest CircularBuffer.first at hzero ⊢
      omega
    have hafter : h.hashesAfter (h.oldest - 1) = h.hashesFrom h.oldest := by
      rw [hashesAfter, Nat.sub_add_cancel (Nat.pos_of_ne_zero hzero), hashesFrom]
    rw [hprev, hashesFrom_eq (by omega), hafter, hfrom, dropped, if_neg hzero]
    omega

section Counter
variable (hsize : 2 ≤ h.size)
include hsize

theorem length_counter : h.counter.m_hr_list.length = h.size :=
  (holds_counter (h := h) (by omega)).length

theorem m_oldest_counter : h.counter.m_oldest = h.oldest % h.size := by
  have := (holds_counter (h := h) (by omega)).oldest
  rwa [items, List.length_map] at this

/-- A retained item is in its slot. -/
theorem item_counter {i : Nat} (hi : i < h.samples.length)
    (hround : h.samples.length ≤ i + h.size) :
    h.counter.item (i % h.size) = ⟨h.samples[i].1, some h.samples[i].2⟩ := by
  have hitems : h.items.length = h.samples.length := List.length_map _
  have hslot := (holds_counter (h := h) (by omega)).written i (by omega) (by omega)
  rw [HRCounter.item, List.getD_eq_getElem?_getD]
  change h.counter.m_hr_list[i % h.size]? = _ at hslot
  rw [hslot, Option.getD_some]
  simp [items]

theorem time_item {i : Nat} (hi : i < h.samples.length) (hround : h.samples.length ≤ i + h.size) :
    (h.counter.item (i % h.size)).time = some (h.timeAt i) := by
  rw [item_counter hsize hi hround, timeAt, List.getElem?_eq_getElem hi]
  rfl

theorem hashes_item {i : Nat} (hi : i < h.samples.length)
    (hround : h.samples.length ≤ i + h.size) :
    (h.counter.item (i % h.size)).hashes.toNat = h.hashesAt i := by
  rw [item_counter hsize hi hround, hashesAt, List.getElem?_eq_getElem hi]
  rfl

theorem back_counter (i : Nat) : h.counter.back ((i + 1) % h.size) = i % h.size :=
  CircularBuffer.prev_mod (r := h.counter.toBuffer) (length_counter hsize) (by omega) i

theorem m_latest_counter : h.counter.m_latest = h.samples.length % h.size := by
  have := (holds_counter (h := h) (by omega)).latest
  rwa [items, List.length_map] at this

/-- The sum over all slots has the hashes of the base and of the item that was given up last. -/
theorem total_counter (hpos : 0 < h.samples.length) :
    ((List.range h.counter.m_size).map fun i => (h.counter.item i).hashes).sum.toNat =
      (h.hashesAt h.oldest + h.dropped + h.hashesAfter h.oldest) % 18446744073709551616 := by
  have hslots : (List.range h.counter.m_size).map (fun i => (h.counter.item i).hashes) =
      h.counter.m_hr_list.map HRItem.hashes := by
    rw [m_size_counter, ← length_counter hsize]
    apply List.ext_getElem
    · simp
    · intro i hi hi'
      rw [List.length_map] at hi'
      simp [HRCounter.item, List.getElem?_eq_getElem hi']
  have hperm := ((holds_counter (h := h) (by omega)).perm.map fun x => x.hashes.toNat).sum_nat
  have hnull : ∀ n, ((List.replicate n HRItem.null).map fun x => x.hashes.toNat).sum = 0 := by
    intro n
    simp [HRItem.null]
  have hkept : ((h.items.drop (h.items.length - h.size)).map fun x => x.hashes.toNat).sum =
      h.hashesFrom (h.samples.length - h.size) := by
    rw [items, List.length_map, ← List.map_drop, List.map_map]
    rfl
  rw [List.map_append, List.sum_append_nat, hnull, hkept, Nat.add_zero] at hperm
  rw [hslots, toNat_sum, List.map_map]
  change (h.counter.m_hr_list.map fun x => x.hashes.toNat).sum = _ at hperm
  change (h.counter.m_hr_list.map fun x => x.hashes.toNat).sum % _ = _
  rw [hperm, kept_sum hsize hpos]

/-- Both iterators, and the position before the latest one. -/
theorem ends_counter (hpos : 0 < h.samples.length) :
    (h.counter.item h.counter.m_oldest).time = some (h.timeAt h.oldest) ∧
      (h.counter.item (h.last % h.size)).time = some (h.timeAt h.last) ∧
      h.counter.m_latest ≠ h.counter.m_hr_list.length ∧
      h.counter.back h.counter.m_latest = h.last % h.size := by
  have hround := le_oldest_add (h := h) (by omega)
  have hlt := oldest_lt hsize hpos
  have hlast : h.last + 1 = h.samples.length := Nat.sub_add_cancel hpos
  refine ⟨?_, time_item hsize (by omega) (by omega), ?_, ?_⟩
  · rw [m_oldest_counter hsize]
    exact time_item hsize hlt (by omega)
  · rw [m_latest_counter hsize, length_counter hsize]
    exact (Nat.mod_lt _ (by omega)).ne
  · rw [m_latest_counter hsize, ← hlast]
    exact back_counter hsize h.last

theorem goesOn_iff {i : Nat} (hold : h.oldest ≤ i) (hi : i < h.samples.length) :
    (((h.counter.item (i % h.size)).time.msecsTo (h.counter.item (h.last % h.size)).time /
        1000 : ℚ) < (secs.toNat : ℚ) ∧ i % h.size ≠ h.counter.m_oldest) ↔
      ¬ h.Stops secs i ∧ i ≠ h.oldest := by
  have hround := le_oldest_add (h := h) (by omega)
  have hlast := last_lt (Nat.zero_lt_of_lt hi)
  rw [time_item hsize hi (by omega), time_item hsize hlast (by unfold last at *; omega),
    m_oldest_counter hsize, QDateTime.msecsTo]
  apply and_congr
  · rw [Stops, div_lt_iff₀ (by norm_num), not_le]
    have hcast : (secs.toNat : ℚ) * 1000 = ((1000 * (secs.toNat : Int) : Int) : ℚ) := by
      push_cast
      exact mul_comm _ _
    rw [hcast, Int.cast_lt]
  · constructor
    · rintro hne rfl
      exact hne rfl
    · intro hne
      exact (CircularBuffer.mod_ne (by omega) (by omega)).symm

/-- The walk stops at the newest item before `a` that is far enough back, or at the oldest one, and
sums up what was added after it. -/
theorem walk_counter {a fuel : Nat} (hold : h.oldest < a) (ha : a ≤ h.last)
    (hfuel : a ≤ h.oldest + fuel) (hashes : UInt64) :
    ∃ base sum, h.counter.walk (h.last % h.size) secs.toNat fuel (a % h.size) hashes =
        some (base % h.size, sum) ∧ h.oldest ≤ base ∧ base < a ∧
      (h.Stops secs base ∨ base = h.oldest) ∧ (∀ i, base < i → i < a → ¬ h.Stops secs i) ∧
      (sum.toNat + h.hashesAfter a) % 18446744073709551616 =
        (hashes.toNat + h.hashesAfter base) % 18446744073709551616 := by
  induction fuel generalizing a hashes with
  | zero => omega
  | succ fuel ih =>
    obtain ⟨i, rfl⟩ : ∃ i, a = i + 1 := ⟨a - 1, by omega⟩
    have hlt : i + 1 < h.samples.length := by
      unfold last at ha
      omega
    have hround := le_oldest_add (h := h) (by omega)
    have hafter : h.hashesAfter i = h.hashesAt (i + 1) + h.hashesAfter (i + 1) := hashesFrom_eq hlt
    have hitem := hashes_item hsize hlt (by omega)
    have hsum : (hashes + (h.counter.item ((i + 1) % h.size)).hashes).toNat =
        (hashes.toNat + h.hashesAt (i + 1)) % 18446744073709551616 := by
      rw [UInt64.toNat_add, hitem]
    rw [HRCounter.walk, back_counter hsize]
    by_cases hgo : ¬ h.Stops secs i ∧ i ≠ h.oldest
    · rw [if_pos ((goesOn_iff hsize (by omega) (by omega)).mpr hgo)]
      obtain ⟨base, sum, hwalk, hle, hbase, hstop, hnone, hadd⟩ :=
        ih (a := i) (by omega) (by omega) (by omega)
          (hashes + (h.counter.item ((i + 1) % h.size)).hashes)
      refine ⟨base, sum, hwalk, hle, by omega, hstop, fun j hj hja => ?_, ?_⟩
      · by_cases hji : j = i
        · rw [hji]
          exact hgo.1
        · exact hnone j hj (by omega)
      · omega
    · rw [if_neg fun hnot => hgo ((goesOn_iff hsize (by omega) (by omega)).mp hnot)]
      refine ⟨i, _, rfl, by omega, by omega, ?_, fun j hj hja => by omega, ?_⟩
      · by_cases hstop : h.Stops secs i
        · exact Or.inl hstop
        · exact Or.inr (not_not.mp fun hne => hgo ⟨hstop, hne⟩)
      · rw [hsum, hafter]
        omega

theorem getHashrate_of_short (hpos : 0 < h.samples.length) (hshort : h.Short secs) :
    ∃ sum : UInt64, h.counter.getHashrate secs =
        some (HRCounter.rate sum (h.timeAt h.last - h.timeAt h.oldest)) ∧
      sum.toNat =
        (h.hashesAt h.oldest + h.dropped + h.hashesAfter h.oldest) % 18446744073709551616 := by
  obtain ⟨holdest, hlast, hlatest, hback⟩ := ends_counter hsize hpos
  refine ⟨_, ?_, total_counter hsize hpos⟩
  rw [HRCounter.getHashrate, holdest, if_neg (by simp), if_neg hlatest, hback]
  dsimp only
  rw [hlast]
  exact if_pos hshort

theorem getHashrate_of_long (hpos : 0 < h.samples.length) (hlong : ¬ h.Short secs) :
    ∃ base, ∃ sum : UInt64, h.IsBase secs base ∧ h.counter.getHashrate secs =
        some (HRCounter.rate sum (h.timeAt h.last - h.timeAt base)) ∧
      sum.toNat = h.hashesAfter base % 18446744073709551616 := by
  obtain ⟨holdest, hlast, hlatest, hback⟩ := ends_counter hsize hpos
  have hlt := oldest_lt hsize hpos
  have hround := le_oldest_add (h := h) (by omega)
  have hfar := stops_oldest hlong
  have hsecs : 0 < secs.toNat := secs_pos hlong
  have hle : h.oldest < h.last := by
    by_contra hnot
    have heq : h.oldest = h.last := by
      unfold last at hnot ⊢
      omega
    rw [Stops, heq] at hfar
    omega
  have hround' : h.last ≤ h.oldest + h.size := by
    unfold last
    omega
  obtain ⟨base, sum, hwalk, hold, hbase, hstop, hnone, hadd⟩ :=
    @walk_counter h secs hsize h.last h.size hle (Nat.le_refl _) hround' 0
  rw [hashesAfter_last, Nat.add_zero, UInt64.toNat_zero, Nat.zero_add,
    Nat.mod_eq_of_lt sum.toNat_lt] at hadd
  have hbaseStops : h.Stops secs base := by
    rcases hstop with hstop | heq
    · exact hstop
    · rwa [heq]
  refine ⟨base, sum, ⟨hold, hbase, fun hshort => absurd hshort hlong,
    fun _ => ⟨hbaseStops, hnone⟩⟩, ?_, hadd⟩
  have htime : (h.counter.item (base % h.size)).time = some (h.timeAt base) :=
    time_item hsize (by unfold last at hbase; omega) (by omega)
  rw [HRCounter.getHashrate, holdest, if_neg (by simp), if_neg hlatest, hback]
  dsimp only
  rw [hlast, m_size_counter, hwalk, Option.map_some, htime]
  exact if_neg hlong

end Counter

/-- With an ordered clock all retained times are equal if the first and the last are. -/
theorem differ_iff (hsize : 2 ≤ h.size) (hpos : 0 < h.samples.length) (hordered : h.Ordered) :
    h.Differ ↔ h.timeAt h.oldest ≠ h.timeAt h.last := by
  have hlt := oldest_lt hsize hpos
  have hmono : ∀ {i j}, i ≤ j → j < h.samples.length → h.timeAt i ≤ h.timeAt j := by
    intro i j hij hj
    rcases Nat.eq_or_lt_of_le hij with rfl | hij
    · exact Int.le_refl _
    · rw [timeAt, timeAt, List.getElem?_eq_getElem (by omega), List.getElem?_eq_getElem hj]
      exact List.pairwise_iff_getElem.mp hordered i j (by omega) hj hij
  have hlast := last_lt hpos
  constructor
  · rintro ⟨i, j, hi, hin, hj, hjn, hne⟩ heq
    have := hmono hi hin
    have := hmono (show i ≤ h.last by unfold last; omega) hlast
    have := hmono hj hjn
    have := hmono (show j ≤ h.last by unfold last; omega) hlast
    omega
  · intro hne
    exact ⟨h.oldest, h.last, Nat.le_refl _, hlt, by unfold last at *; omega, hlast, hne⟩

theorem rate_eq_iff {sum : UInt64} {hashes : Nat} {d : Int} (hd : d ≠ 0) :
    HRCounter.rate sum d = hashes / (d / 1000 : ℚ) ↔ sum.toNat = hashes := by
  have hd' : (d / 1000 : ℚ) ≠ 0 := by
    apply div_ne_zero
    · exact_mod_cast hd
    · norm_num
  rw [HRCounter.rate, if_neg hd, div_left_inj' hd', Nat.cast_inj]

theorem law_iff {v : ℚ} {base : Nat} (hdiffer : h.Differ) (hbase : h.IsBase secs base) :
    h.Law secs v ↔
      v = h.hashesAfter base / ((h.timeAt h.last - h.timeAt base : Int) / 1000 : ℚ) := by
  constructor
  · intro hlaw
    obtain ⟨b, hb, hv⟩ := hlaw.rate hdiffer
    rwa [hb.unique hbase] at hv
  · intro hv
    exact ⟨fun hnot => absurd hdiffer hnot, fun _ => ⟨base, hbase, hv⟩⟩

theorem exact_iff {base : Nat} (hdiffer : h.Differ) (hbase : h.IsBase secs base) :
    h.Exact secs ↔ h.hashesAfter base < 18446744073709551616 ∧
      (h.Short secs → (h.hashesAt base + h.dropped) % 18446744073709551616 = 0) := by
  constructor
  · intro hexact
    exact hexact hdiffer base hbase
  · intro hall _ b hb
    rwa [hb.unique hbase]

theorem item_m_oldest_of_empty (hempty : h.samples = []) :
    h.counter.item h.counter.m_oldest = .null := by
  rw [counter, hempty, List.foldl_nil]
  change (List.replicate h.size HRItem.null).getD 0 .null = .null
  cases h.size <;> rfl

theorem getHashrate_of_empty (hempty : h.samples = []) : h.counter.getHashrate secs = some 0 := by
  rw [HRCounter.getHashrate, item_m_oldest_of_empty hempty]
  exact if_pos rfl

theorem isBase_oldest (hshort : h.Short secs) (hlt : h.oldest < h.last) :
    h.IsBase secs h.oldest where
  retained := Nat.le_refl _
  lt := hlt
  short _ := rfl
  stops hlong := absurd hshort hlong

/-- `getHashrate` returns, and what it returns follows the law exactly when the sums do. -/
theorem getHashrate_law_iff (h : HRHistory) (secs : UInt32) (hsize : 2 ≤ h.size)
    (hordered : h.Ordered) :
    ∃ v, h.counter.getHashrate secs = some v ∧ (h.Law secs v ↔ h.Exact secs) := by
  rcases Nat.eq_zero_or_pos h.samples.length with hzero | hpos
  · have hsame : ¬ h.Differ := by
      rintro ⟨i, j, -, hi, -⟩
      omega
    exact ⟨0, getHashrate_of_empty (List.eq_nil_of_length_eq_zero hzero),
      iff_of_true ⟨fun _ => rfl, fun hdiffer => absurd hdiffer hsame⟩
        fun hdiffer => absurd hdiffer hsame⟩
  by_cases hshort : h.Short secs
  · obtain ⟨sum, hrate, hsum⟩ := getHashrate_of_short hsize hpos hshort
    refine ⟨_, hrate, ?_⟩
    by_cases heq : h.timeAt h.oldest = h.timeAt h.last
    · have hsame : ¬ h.Differ := fun hdiffer => (differ_iff hsize hpos hordered).mp hdiffer heq
      refine iff_of_true ⟨fun _ => ?_, fun hdiffer => absurd hdiffer hsame⟩
        fun hdiffer => absurd hdiffer hsame
      rw [HRCounter.rate, if_pos (by omega)]
    · have hdiffer := (differ_iff hsize hpos hordered).mpr heq
      have hlt : h.oldest < h.last := by
        have hold := oldest_lt hsize hpos
        have hne : h.oldest ≠ h.last := fun hsame => heq (by rw [hsame])
        unfold last at hne ⊢
        omega
      have hbase := isBase_oldest hshort hlt
      rw [law_iff hdiffer hbase, exact_iff hdiffer hbase, rate_eq_iff (by omega), hsum]
      constructor
      · intro hmod
        exact ⟨by omega, fun _ => by omega⟩
      · rintro ⟨hbound, hnone⟩
        have := hnone hshort
        omega
  · obtain ⟨base, sum, hbase, hrate, hsum⟩ := getHashrate_of_long hsize hpos hshort
    refine ⟨_, hrate, ?_⟩
    have hsecs := secs_pos hshort
    have hstops : 1000 * (secs.toNat : Int) ≤ h.timeAt h.last - h.timeAt base :=
      (hbase.stops hshort).1
    have hfar : 1000 * (secs.toNat : Int) ≤ h.timeAt h.last - h.timeAt h.oldest :=
      stops_oldest hshort
    have hdiffer := (differ_iff hsize hpos hordered).mpr (by omega)
    rw [law_iff hdiffer hbase, exact_iff hdiffer hbase, rate_eq_iff (by omega), hsum]
    constructor
    · intro hmod
      exact ⟨by omega, fun h => absurd h hshort⟩
    · rintro ⟨hbound, -⟩
      omega

/-- Two amounts, counted a second apart. -/
def twoSamples (hashes : UInt64) : HRHistory := ⟨200, [(hashes, 0), (3, 1000)]⟩

theorem twoSamples_ends (hashes : UInt64) :
    (twoSamples hashes).oldest = 0 ∧ (twoSamples hashes).last = 1 ∧
      (twoSamples hashes).timeAt 0 = 0 ∧ (twoSamples hashes).timeAt 1 = 1000 := by
  simp [twoSamples, oldest, last, timeAt, CircularBuffer.first]

theorem twoSamples_short (hashes : UInt64) : (twoSamples hashes).Short 5 := by
  obtain ⟨hold, hlast, hfirst, hsecond⟩ := twoSamples_ends hashes
  right
  rw [hold, hlast, hfirst, hsecond]
  decide

theorem twoSamples_isBase (hashes : UInt64) : (twoSamples hashes).IsBase 5 0 := by
  obtain ⟨hold, hlast, -⟩ := twoSamples_ends hashes
  have hbase := isBase_oldest (twoSamples_short hashes) (by rw [hold, hlast]; exact Nat.zero_lt_one)
  rwa [hold] at hbase

theorem twoSamples_differ (hashes : UInt64) : (twoSamples hashes).Differ := by
  obtain ⟨hold, -, hfirst, hsecond⟩ := twoSamples_ends hashes
  refine ⟨0, 1, hold.le, Nat.zero_lt_two, hold.le.trans Nat.zero_lt_one.le, Nat.one_lt_two, ?_⟩
  rw [hfirst, hsecond]
  decide

/-- A base that counts nothing does no harm. -/
theorem getHashrate_empty_base :
    ∃ v, (twoSamples 0).counter.getHashrate 5 = some v ∧ (twoSamples 0).Law 5 v := by
  obtain ⟨v, hv, hlaw⟩ := getHashrate_law_iff (twoSamples 0) 5 (by decide) (by
    show List.Pairwise _ _
    decide)
  refine ⟨v, hv, hlaw.mpr fun _ base hbase => ?_⟩
  rw [hbase.unique (twoSamples_isBase 0)]
  exact ⟨by decide, fun _ => by decide⟩

/-- On the path for a short history the base is counted as well. -/
theorem short_history_counts_base :
    ¬ ∀ (h : HRHistory) (secs : UInt32), 2 ≤ h.size → h.Ordered →
      ∀ v, h.counter.getHashrate secs = some v → h.Law secs v := by
  intro h
  obtain ⟨sum, hrate, hsum⟩ := @getHashrate_of_short (twoSamples 5) 5
    (by decide) (by decide) (twoSamples_short 5)
  have hlaw := h (twoSamples 5) 5 (by decide) (by
    show List.Pairwise _ _
    decide) _ hrate
  have heq := (rate_eq_iff (by decide)).mp
    ((law_iff (twoSamples_differ 5) (twoSamples_isBase 5)).mp hlaw)
  rw [hsum] at heq
  exact absurd heq (by decide)

end HRHistory
end MinerGate
