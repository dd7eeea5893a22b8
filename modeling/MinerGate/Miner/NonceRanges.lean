import MinerGate.Lib.Reservation
import MinerGate.Miner.NonceCtl

/-!
# The nonces hashed for a reservation

Every caller gets the end of its range from `nextNonce` and turns it into the nonces
it hashes in its own way. The CPU loop runs up to and including the end, a GPU batch
covers the reserved amount and ends on it, the Ethereum CUDA batches start where the
CPU loop does and stop short of the end.
-/

namespace MinerGate

set_option autoImplicit false

open Reservation

def NONCE_INTERVAL : Nat := 1000000

/-- `NONCE_INTERVAL` of the Ethereum CUDA miner. -/
def ETH_CUDA_NONCE_INTERVAL : Nat := 1000000000

def quint32Modulus : Nat := 4294967296

/-- The callers of `nextNonce`: the CPU loop, the CryptoNight CUDA miner and both OpenCL miners
(one batch of `threads` nonces a call), and the Ethereum CUDA miner with its launch sizes. -/
inductive Caller where
  | cpu
  | gpuBatch (threads : Nat) (pos : 0 < threads) (fits : threads < nonceModulus)
  | ethCuda (gridSize blockSize : Nat)
deriving DecidableEq

/-- The nonces of a coin's job and where the counter restarts: 32 bits from zero for
CryptoNight, 64 bits from a random value for Ethereum. -/
inductive NonceSpace where
  | cryptonote
  | ethereum (seed : Nat)
deriving DecidableEq

namespace NonceSpace

def size : NonceSpace → Nat
  | cryptonote => quint32Modulus
  | ethereum _ => nonceModulus

def start : NonceSpace → Nat
  | cryptonote => 0
  | ethereum seed => seed % nonceModulus

theorem start_lt (space : NonceSpace) : space.start < nonceModulus := by
  cases space with
  | cryptonote => decide
  | ethereum seed => exact Nat.mod_lt _ (by decide)

theorem size_le (space : NonceSpace) : space.size ≤ nonceModulus := by
  cases space with
  | cryptonote => decide
  | ethereum _ => exact Nat.le_refl _

end NonceSpace

def batchSize (gridSize blockSize : Nat) : Nat := gridSize * blockSize % quint32Modulus

/-- The number of different thread numbers `gid`, a `uint32_t`, in one launch. -/
def launchWidth (gridSize blockSize : Nat) : Nat := min (gridSize * blockSize) quint32Modulus

/-- How often the batch loop launches at a new nonce. With a batch size that overflows to
zero it launches at the first nonce for ever. -/
def launches (gridSize blockSize : Nat) : Nat :=
  if batchSize gridSize blockSize = 0 then
    if gridSize * blockSize = 0 then 0 else 1
  else ETH_CUDA_NONCE_INTERVAL / batchSize gridSize blockSize

namespace Caller

def reserve : Caller → Nat
  | cpu => NONCE_INTERVAL
  | gpuBatch threads _ _ => threads
  | ethCuda _ _ => ETH_CUDA_NONCE_INTERVAL

/-- The nonces, of `size` many, hashed for a job with the returned value `last`: those the
guard of the CPU loop lets through, the threads of a GPU batch, the threads of all launches. -/
def hashed (size last : Nat) : Caller → Set Nat
  | cpu => {nonce | (last - NONCE_INTERVAL) % size ≤ nonce ∧ nonce ≤ last % size}
  | gpuBatch threads _ _ => {nonce | ∃ i < threads, nonce = (last - threads + 1 + i) % size}
  | ethCuda gridSize blockSize =>
    {nonce | ∃ i < launches gridSize blockSize, ∃ gid < launchWidth gridSize blockSize,
      nonce = (last - ETH_CUDA_NONCE_INTERVAL + i * batchSize gridSize blockSize + gid)
        % nonceModulus % size}

/-- The first nonce hashed, counted from the start of the reserved range. -/
def skip : Caller → Nat
  | cpu => 0
  | gpuBatch _ _ _ => 1
  | ethCuda _ _ => 0

/-- The end of the nonces hashed, counted from the start of the reserved range. -/
def extent : Caller → Nat
  | cpu => NONCE_INTERVAL + 1
  | gpuBatch threads _ _ => threads + 1
  | ethCuda gridSize blockSize =>
    if launches gridSize blockSize = 0 ∨ launchWidth gridSize blockSize = 0 then 0
    else (launches gridSize blockSize - 1) * batchSize gridSize blockSize +
      launchWidth gridSize blockSize

theorem reserve_lt (c : Caller) : c.reserve < nonceModulus := by
  cases c with
  | cpu => decide
  | gpuBatch threads _ fits => exact fits
  | ethCuda _ _ => exact (by decide : ETH_CUDA_NONCE_INTERVAL < nonceModulus)

theorem skip_le_reserve (c : Caller) : c.skip ≤ c.reserve := by
  cases c with
  | cpu => exact Nat.zero_le _
  | gpuBatch threads pos _ => exact pos
  | ethCuda _ _ => exact Nat.zero_le _

end Caller

/-- The reservations of the callers in turn, each with the value it got. -/
def reservations : Nat → List Caller → List (Caller × Nat)
  | _, [] => []
  | nonce, c :: cs =>
    let last := NonceCtl.newNonce nonce c.reserve
    (c, last) :: reservations last cs

def hashedSets (space : NonceSpace) (cs : List Caller) : List (Set Nat) :=
  (reservations space.start cs).map fun r => r.1.hashed space.size r.2

def slots : Nat → Nat → List Caller → List Slot
  | _, _, [] => []
  | place, nonce, c :: cs =>
    let adv := NonceCtl.advance nonce c.reserve
    ⟨place + (adv - c.reserve), c.reserve, c.skip, c.extent⟩ ::
      slots (place + adv) (NonceCtl.newNonce nonce c.reserve) cs

/-- The total reserved since the restart, and all that is hashed of it, stays below the
nonce range. -/
def InRange (space : NonceSpace) (cs : List Caller) : Prop :=
  ∀ p ∈ slots 0 space.start cs, p.base + p.reserve < space.size ∧ p.base + p.extent ≤ space.size

/-- Every caller stops before the first nonce that a later one hashes. -/
def StopBeforeNext (space : NonceSpace) (cs : List Caller) : Prop :=
  (slots 0 space.start cs).Pairwise Slot.StopsBefore

instance (space : NonceSpace) (cs : List Caller) : Decidable (InRange space cs) :=
  inferInstanceAs (Decidable (∀ p ∈ slots 0 space.start cs,
    p.base + p.reserve < space.size ∧ p.base + p.extent ≤ space.size))

instance (space : NonceSpace) (cs : List Caller) : Decidable (StopBeforeNext space cs) :=
  inferInstanceAs (Decidable ((slots 0 space.start cs).Pairwise Slot.StopsBefore))

def nonceAt (space : NonceSpace) (place : Nat) : Nat :=
  (space.start + place) % nonceModulus % space.size

theorem nonceAt_injOn (space : NonceSpace) :
    Set.InjOn (nonceAt space) (Set.Iio space.size) := by
  intro a ha b hb hab
  cases space with
  | ethereum seed =>
    simp only [nonceAt, NonceSpace.size, Nat.mod_mod] at hab
    exact injOn_add_mod _ nonceModulus ha hb hab
  | cryptonote =>
    have hbig : NonceSpace.cryptonote.size ≤ nonceModulus := by decide
    rw [Set.mem_Iio] at ha hb
    simp only [nonceAt, NonceSpace.start, Nat.zero_add] at hab
    rwa [Nat.mod_eq_of_lt (a := a) (by omega), Nat.mod_eq_of_lt (a := b) (by omega),
      Nat.mod_eq_of_lt ha, Nat.mod_eq_of_lt hb] at hab

theorem batchSize_le_launchWidth (g b : Nat) : batchSize g b ≤ launchWidth g b := by
  unfold batchSize launchWidth
  have := Nat.mod_le (g * b) quint32Modulus
  have := Nat.mod_lt (g * b) (show 0 < quint32Modulus by decide)
  omega

/-- The launches together cover an initial part of the range, without gaps. -/
theorem launch_cover (g b k : Nat) :
    (∃ i < launches g b, ∃ gid < launchWidth g b, k = i * batchSize g b + gid) ↔
      k < (Caller.ethCuda g b).extent := by
  have hle := batchSize_le_launchWidth g b
  simp only [Caller.extent]
  split
  case isTrue h =>
    constructor
    · rintro ⟨i, hi, gid, hgid, _⟩
      omega
    · omega
  case isFalse h =>
    obtain ⟨m, hm⟩ : ∃ m, launches g b = m + 1 :=
      Nat.exists_eq_succ_of_ne_zero fun h0 => h (Or.inl h0)
    rw [hm, Nat.add_sub_cancel]
    constructor
    · rintro ⟨i, hi, gid, hgid, rfl⟩
      have : i * batchSize g b ≤ m * batchSize g b := Nat.mul_le_mul_right _ (by omega)
      omega
    · intro hk
      by_cases hlast : m * batchSize g b ≤ k
      · exact ⟨m, by omega, k - m * batchSize g b, by omega, by omega⟩
      · have hpos : 0 < batchSize g b := by
          rcases Nat.eq_zero_or_pos (batchSize g b) with h0 | hpos
          · rw [h0] at hlast
            omega
          · exact hpos
        have hdiv : k / batchSize g b < m + 1 := by
          have := (Nat.div_lt_iff_lt_mul hpos).mpr (Nat.not_le.mp hlast)
          omega
        refine ⟨k / batchSize g b, hdiv, k % batchSize g b, ?_, ?_⟩
        · have := Nat.mod_lt k hpos
          omega
        · rw [Nat.mul_comm]
          exact (Nat.div_add_mod k _).symm

theorem hashed_eq_image {space : NonceSpace} {c : Caller} {first place : Nat}
    (hfirst : first = (space.start + place) % nonceModulus)
    (hlast : first + c.reserve < space.size) :
    c.hashed space.size (first + c.reserve) =
      nonceAt space '' (Slot.mk place c.reserve c.skip c.extent).used := by
  have hsize := space.size_le
  have hat : ∀ k, nonceAt space (place + k) = (first + k) % nonceModulus % space.size := by
    intro k
    rw [nonceAt, hfirst, Nat.mod_add_mod, Nat.add_assoc]
  have hat' : ∀ k ≤ c.reserve, nonceAt space (place + k) = first + k := by
    intro k hk
    have hlt : first + k < space.size := by omega
    rw [hat k, Nat.mod_eq_of_lt (Nat.lt_of_lt_of_le hlt hsize), Nat.mod_eq_of_lt hlt]
  ext x
  simp only [Slot.used, Set.mem_image, Set.mem_Ico]
  cases c with
  | cpu =>
    simp only [Caller.reserve, Caller.skip, Caller.extent] at hlast hat' ⊢
    simp only [Caller.hashed, Set.mem_ofPred_eq, Nat.add_sub_cancel]
    rw [Nat.mod_eq_of_lt (by omega), Nat.mod_eq_of_lt hlast]
    constructor
    · rintro ⟨h1, h2⟩
      refine ⟨place + (x - first), by omega, ?_⟩
      rw [hat' _ (by omega)]
      omega
    · rintro ⟨t, ht, rfl⟩
      have h := hat' (t - place) (by omega)
      rw [Nat.add_sub_cancel' (by omega)] at h
      omega
  | gpuBatch threads pos fits =>
    simp only [Caller.reserve, Caller.skip, Caller.extent] at hlast hat' ⊢
    simp only [Caller.hashed, Set.mem_ofPred_eq, Nat.add_sub_cancel]
    constructor
    · rintro ⟨i, hi, rfl⟩
      refine ⟨place + (i + 1), by omega, ?_⟩
      rw [hat' _ (by omega), Nat.mod_eq_of_lt (by omega)]
      omega
    · rintro ⟨t, ht, rfl⟩
      refine ⟨t - place - 1, by omega, ?_⟩
      have h := hat' (t - place) (by omega)
      rw [Nat.add_sub_cancel' (by omega)] at h
      rw [h, Nat.mod_eq_of_lt (by omega)]
      omega
  | ethCuda g b =>
    simp only [Caller.hashed, Caller.reserve, Caller.skip, Set.mem_ofPred_eq, Nat.add_sub_cancel]
    constructor
    · rintro ⟨i, hi, gid, hgid, rfl⟩
      have hk := (launch_cover g b _).mp ⟨i, hi, gid, hgid, rfl⟩
      exact ⟨place + (i * batchSize g b + gid), by omega, by rw [hat, Nat.add_assoc]⟩
    · rintro ⟨t, ht, rfl⟩
      obtain ⟨i, hi, gid, hgid, hk⟩ := (launch_cover g b (t - place)).mpr (by omega)
      refine ⟨i, hi, gid, hgid, ?_⟩
      rw [Nat.add_assoc, ← hk, ← hat, Nat.add_sub_cancel' (by omega)]

/-- CPU workers and GPU batches go one nonce past what they reserved, Ethereum CUDA batches
none unless the product of their sizes overflows. -/
theorem overrun_le_one {c : Caller} (hfits : ∀ g b, c = .ethCuda g b → g * b < quint32Modulus) :
    c.extent - c.reserve ≤ 1 := by
  cases c with
  | cpu => decide
  | gpuBatch threads _ _ => simp only [Caller.extent, Caller.reserve]; omega
  | ethCuda g b =>
    have hlt := hfits g b rfl
    have hbatch : batchSize g b = launchWidth g b := by
      rw [batchSize, launchWidth, Nat.mod_eq_of_lt hlt, Nat.min_eq_left (Nat.le_of_lt hlt)]
    simp only [Caller.extent, Caller.reserve]
    split
    case isTrue => omega
    case isFalse h =>
      have hpos : batchSize g b ≠ 0 := fun h0 => h (Or.inr (hbatch ▸ h0))
      have hmul : launches g b * batchSize g b ≤ ETH_CUDA_NONCE_INTERVAL := by
        rw [launches, if_neg hpos]
        exact Nat.div_mul_le_self _ _
      obtain ⟨m, hm⟩ : ∃ m, launches g b = m + 1 :=
        Nat.exists_eq_succ_of_ne_zero fun h0 => h (Or.inl h0)
      rw [hm, Nat.add_mul, Nat.one_mul] at hmul
      rw [hm, Nat.add_sub_cancel, ← hbatch]
      omega

theorem slots_bounds (place nonce : Nat) (cs : List Caller) :
    (∀ p ∈ slots place nonce cs, place ≤ p.base ∧ p.skip ≤ p.reserve) ∧
      (slots place nonce cs).Pairwise Slot.Before := by
  induction cs generalizing place nonce with
  | nil => simp [slots]
  | cons c cs ih =>
    obtain ⟨hmem, hbefore⟩ := ih (place + NonceCtl.advance nonce c.reserve)
      (NonceCtl.newNonce nonce c.reserve)
    have hadv := NonceCtl.le_advance nonce c.reserve
    simp only [slots]
    refine ⟨fun p hp => ?_, List.pairwise_cons.mpr ⟨fun p hp => ?_, hbefore⟩⟩
    · rcases List.mem_cons.mp hp with rfl | hp
      · exact ⟨Nat.le_add_right _ _, c.skip_le_reserve⟩
      · have := hmem p hp
        omega
    · have := (hmem p hp).1
      simp only [Slot.Before]
      omega

theorem exists_caller_of_mem_slots {place nonce : Nat} {cs : List Caller} {p : Slot}
    (hp : p ∈ slots place nonce cs) :
    ∃ c ∈ cs, p.extent = c.extent ∧ p.reserve = c.reserve := by
  induction cs generalizing place nonce with
  | nil => simp [slots] at hp
  | cons c cs ih =>
    rcases List.mem_cons.mp hp with rfl | hp
    · exact ⟨c, List.mem_cons_self, rfl, rfl⟩
    · obtain ⟨d, hd, h⟩ := ih hp
      exact ⟨d, List.mem_cons_of_mem c hd, h⟩

theorem reservations_eq_images {space : NonceSpace} (cs : List Caller) {place nonce : Nat}
    (hnonce : nonce = (space.start + place) % nonceModulus)
    (hrange : ∀ p ∈ slots place nonce cs, p.base + p.reserve < space.size) :
    (reservations nonce cs).map (fun r => r.1.hashed space.size r.2) =
      (slots place nonce cs).map fun p => nonceAt space '' p.used := by
  induction cs generalizing place nonce with
  | nil => rfl
  | cons c cs ih =>
    have hr := c.reserve_lt
    have hn : nonce < nonceModulus := hnonce ▸ Nat.mod_lt _ (by decide)
    have hle := NonceCtl.le_newNonce hn hr
    have hfirst := NonceCtl.newNonce_sub hn hr
    have hnext := NonceCtl.newNonce_eq hn hr
    have hlt := NonceCtl.newNonce_lt hn hr
    have hhead := hrange _ List.mem_cons_self
    simp only at hhead
    rw [hnonce, Nat.mod_add_mod, Nat.add_assoc, ← hnonce] at hfirst hnext
    have hlast : NonceCtl.newNonce nonce c.reserve < space.size := by
      cases space with
      | ethereum seed => exact hlt
      | cryptonote =>
        have hbig : NonceSpace.cryptonote.size ≤ nonceModulus := by decide
        rw [NonceSpace.start, Nat.zero_add, Nat.mod_eq_of_lt (by omega)] at hfirst
        omega
    simp only [reservations, slots, List.map_cons]
    rw [ih hnext fun p hp => hrange p (List.mem_cons_of_mem _ hp)]
    congr 1
    have himage := hashed_eq_image (c := c) hfirst (by omega)
    rwa [Nat.sub_add_cancel hle] at himage

/-- The nonces hashed for the reservations of one job are pairwise disjoint exactly when every
caller stops before the first nonce that a later one hashes. -/
theorem hashedSets_disjoint_iff (space : NonceSpace) (cs : List Caller) (hrange : InRange space cs) :
    (hashedSets space cs).Pairwise Disjoint ↔ StopBeforeNext space cs := by
  have hstart : space.start = (space.start + 0) % nonceModulus :=
    (Nat.mod_eq_of_lt space.start_lt).symm
  obtain ⟨hmem, hbefore⟩ := slots_bounds 0 space.start cs
  rw [hashedSets, reservations_eq_images cs hstart fun p hp => (hrange p hp).1]
  exact images_disjoint_iff (nonceAt_injOn space) hbefore (fun p hp => (hmem p hp).2)
    fun p hp => (hrange p hp).2

/-- When no launch size overflows, only direct neighbours matter: a caller that hashes its own bound
must not be followed by one that starts on it. -/
theorem stopBeforeNext_iff_neighbours (space : NonceSpace) {cs : List Caller}
    (hfits : ∀ g b, .ethCuda g b ∈ cs → g * b < quint32Modulus) :
    StopBeforeNext space cs ↔ (slots 0 space.start cs).Pairwise fun p q =>
      p.Active → q.Active → p.overrun = 1 → q.skip = 0 → p.base + p.reserve ≠ q.base := by
  have hone : ∀ p ∈ slots 0 space.start cs, p.overrun ≤ 1 := by
    intro p hp
    obtain ⟨c, hc, hslot⟩ := exists_caller_of_mem_slots hp
    rw [Slot.overrun, hslot.1, hslot.2]
    exact overrun_le_one fun g b h => hfits g b (h ▸ hc)
  have hbefore := (slots_bounds 0 space.start cs).2
  constructor
  · intro h
    refine (hbefore.and h).imp_of_mem ?_
    intro p q hp _ hpq
    exact (Slot.stopsBefore_iff hpq.1 (hone p hp)).mp hpq.2
  · intro h
    refine (hbefore.and h).imp_of_mem ?_
    intro p q hp _ hpq
    exact (Slot.stopsBefore_iff hpq.1 (hone p hp)).mpr hpq.2

theorem opencl_batches_disjoint :
    (hashedSets .cryptonote [.gpuBatch 4096 (by decide) (by decide),
      .gpuBatch 1024 (by decide) (by decide), .gpuBatch 4096 (by decide) (by decide)]).Pairwise
      Disjoint :=
  (hashedSets_disjoint_iff _ _ (by decide)).mpr (by decide)

/-- Two CPU workers of a CryptoNight coin both hash nonce 1000000. -/
theorem cpu_workers_share_bound :
    ¬ ∀ (space : NonceSpace) (cs : List Caller), InRange space cs →
      (hashedSets space cs).Pairwise Disjoint := by
  intro h
  have hpair := h .cryptonote [.cpu, .cpu] (by decide)
  have hdisj := (List.pairwise_cons.mp hpair).1 _ List.mem_cons_self
  have hfirst : 1000000 ∈ Caller.cpu.hashed quint32Modulus 1000000 := by
    constructor <;> decide
  have hsecond : 1000000 ∈ Caller.cpu.hashed quint32Modulus 2000000 := by
    constructor <;> decide
  exact Set.disjoint_left.mp hdisj hfirst hsecond

end MinerGate
