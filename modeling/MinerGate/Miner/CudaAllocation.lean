import Mathlib.Data.UInt
import MinerGate.Ethereum.CudaParams
import MinerGate.Lib.Loops
import MinerGate.Miner.NonceRanges
import MinerGate.Qt.Bytes

/-!
# The allocation of a CryptoNight CUDA miner

`init` with what its result depends on: the division that gives the number of blocks, and the loop
that asks for a smaller long state until the card has the memory for it.
-/

namespace MinerGate

set_option autoImplicit false

open Loops

/-- `sizeof(struct cryptonight_gpu_ctx)`, 170 words. -/
def sizeofCtx : Nat := 680

def MEMORY : Nat := 2097152

def DEFAULT_GRID_SIZE : UInt32 := 8

/-- The buffers are `none` when their pointers are null; the sizes are in bytes. The input buffer
holds a blob without its nonce, the last word of the target buffer a target; what a failed copy or
an allocation has left there nobody knows. -/
structure CryptonoteCudaDevice where
  m_threads : UInt32
  m_blocks : UInt32
  m_throughput : UInt32
  m_ctx : Option Nat
  m_long_state : Option Nat
  m_cuda_input : Option (Option QByteArray)
  m_cuda_target : Option (Option Nat)
  m_cuda_nonce : Option Unit
deriving DecidableEq, Repr

/-- How the calls of one `init` end. -/
structure InitCalls where
  deviceReady : Bool
  mallocCtx : Bool
  mallocVariables : Bool
  coreInit : Bool
  /-- `cudaMalloc` of the long state for this number of blocks. -/
  mallocLongState : UInt32 → Bool

/-- `MEMORY * m_throughput` has 32 bits. -/
def longStateSize (m_throughput : UInt32) : Nat := MEMORY * m_throughput.toNat % quint32Modulus

inductive GpuMinerError where
  | NoError
  | Unknown
  | NoMemory
  | OclVersionNotSupported
deriving DecidableEq, Repr

/-- What `calcBlockSize` reads of a card. -/
structure CudaDeviceProps where
  multiProcessorCount : Int32
  major : Int
  minor : Int

/-- `CudaMinerPrivate::cudaCoresPerMP` -/
def cudaCoresPerMP (_major _minor : Int) : UInt32 :=
  if _major = 1 then 8
  else if _major = 2 then
    if _minor = 0 then 32 else if _minor = 1 then 48 else 0
  else if _major = 3 then 192
  else 128

/-- The product is cut to an `int`, which the division takes as unsigned. -/
def CudaDeviceProps.cudaCores (devProps : CudaDeviceProps) : UInt32 :=
  devProps.multiProcessorCount.toUInt32 * cudaCoresPerMP devProps.major devProps.minor

/-- A division by 0 is undefined behaviour: `none`. -/
def calcBlockSize (devProps : CudaDeviceProps) (_threads : UInt32) : Option UInt32 :=
  if _threads = 0 then none else some (devProps.cudaCores / _threads)

namespace CudaAllocation

def threadCount (m_deviceParams : DeviceParams) : UInt32 :=
  match m_deviceParams.value .GridSize with
  | some v => v
  | none => DEFAULT_GRID_SIZE

def blockCount (m_deviceParams : DeviceParams) (devProps : CudaDeviceProps) : Option UInt32 :=
  match m_deviceParams.value .BlockSize with
  | some v => some v
  | none => calcBlockSize devProps (threadCount m_deviceParams)

/-- The counters of the loop; `refused` is how often its body was run. -/
structure Allocation where
  m_blocks : UInt32
  m_throughput : UInt32
  refused : Nat

/-- The condition of the loop and its body. -/
def allocRound (c : InitCalls) (m_threads : UInt32) (s : Allocation) :
    Round Allocation (Bool × Allocation) :=
  if c.mallocLongState s.m_blocks then .exit (true, s)
  else
    let m_blocks := s.m_blocks - 1
    let s : Allocation := ⟨m_blocks, m_threads * m_blocks, s.refused + 1⟩
    if s.m_blocks = 0 then .exit (false, s) else .next s

structure Miner where
  device : CryptonoteCudaDevice
  m_lastError : GpuMinerError

/-- How `init` ends; `running` is a loop that `rounds` rounds were too few for. -/
inductive End where
  | dividedByZero
  | running
  | returned (result : Bool) (refused : Nat) (m : Miner)

/-- The context and the variables are freed. -/
def freed (d : CryptonoteCudaDevice) : CryptonoteCudaDevice :=
  { d with m_ctx := none, m_cuda_input := none, m_cuda_target := none, m_cuda_nonce := none }

/-- What is there when the loop has found the memory, and when it has not; the context was allocated
for the first number of threads. -/
def afterLoop (d : CryptonoteCudaDevice) : Bool × Allocation → End
  | (true, s) =>
    .returned true s.refused
      ⟨{ d with
          m_blocks := s.m_blocks
          m_throughput := s.m_throughput
          m_ctx := some (sizeofCtx * d.m_throughput.toNat)
          m_long_state := some (longStateSize s.m_throughput)
          m_cuda_input := some none
          m_cuda_target := some none
          m_cuda_nonce := some () }, .NoError⟩
  | (false, s) =>
    .returned false s.refused
      ⟨{ freed d with
          m_blocks := s.m_blocks, m_throughput := s.m_throughput, m_long_state := none },
        .NoMemory⟩

/-- `CryptonoteCudaMinerPrivate::init`; of the calls only the results are used, and the parameters
and the card say what the sizes are. -/
def init (m_deviceParams : DeviceParams) (devProps : CudaDeviceProps) (c : InitCalls)
    (rounds : Nat) (m : Miner) : End :=
  if ¬ c.deviceReady then .returned false 0 m
  else
    let m_threads := threadCount m_deviceParams
    match blockCount m_deviceParams devProps with
    | none => .dividedByZero
    | some m_blocks =>
      let d : CryptonoteCudaDevice :=
        { m.device with
          m_threads := m_threads, m_blocks := m_blocks, m_throughput := m_threads * m_blocks }
      if ¬ c.mallocCtx then .returned false 0 ⟨{ d with m_ctx := none }, .NoMemory⟩
      else if ¬ c.mallocVariables ∨ ¬ c.coreInit then .returned false 0 ⟨freed d, m.m_lastError⟩
      else
        match run (allocRound c m_threads) rounds ⟨m_blocks, d.m_throughput, 0⟩ with
        | none => .running
        | some r => afterLoop d r

section Loop
variable (c : InitCalls) (m_threads : UInt32)

/-- The number of blocks that the loop finds the memory for, from the first one down. -/
def allocLongState : Nat → Option UInt32
  | 0 => none
  | n + 1 =>
    if c.mallocLongState (UInt32.ofNat (n + 1)) then some (UInt32.ofNat (n + 1))
    else allocLongState n

/-- A number of blocks that is zero goes down to the largest one. -/
def firstBlocks (blocks : UInt32) : Nat := if blocks = 0 then 4294967296 else blocks.toNat

/-- How often the card refuses the long state, from this number of blocks down. -/
def refusals : Nat → Nat
  | 0 => 0
  | n + 1 => if c.mallocLongState (UInt32.ofNat (n + 1)) then 0 else refusals n + 1

/-- What the loop leaves behind: the counters go down to the blocks that were allocated, or to 0. -/
def ended (n refused : Nat) : Bool × Allocation :=
  match allocLongState c n with
  | some blocks => (true, ⟨blocks, m_threads * blocks, refused + refusals c n⟩)
  | none => (false, ⟨0, 0, refused + refusals c n⟩)

theorem refusals_le (n : Nat) : refusals c n ≤ n := by
  induction n with
  | zero => exact Nat.le_refl 0
  | succ n ih =>
    rw [refusals]
    split
    · exact Nat.zero_le _
    · exact Nat.succ_le_succ ih

theorem ofNat_succ_sub_one (n : Nat) : UInt32.ofNat (n + 1) - 1 = UInt32.ofNat n := by
  apply UInt32.toBitVec_inj.mp
  simp [UInt32.ofNat, BitVec.ofNat_add]

theorem ofNat_eq_zero {n : Nat} (hn : n < 4294967296) : UInt32.ofNat n = 0 ↔ n = 0 := by
  rw [← UInt32.toNat_inj, UInt32.toNat_ofNat', UInt32.toNat_zero, Nat.mod_eq_of_lt hn]

theorem ended_granted {n refused : Nat} (h : c.mallocLongState (UInt32.ofNat (n + 1)) = true) :
    ended c m_threads (n + 1) refused =
      (true, ⟨UInt32.ofNat (n + 1), m_threads * UInt32.ofNat (n + 1), refused⟩) := by
  simp only [ended, refusals, allocLongState, if_pos h, Nat.add_zero]

theorem ended_refused {n refused : Nat} (h : ¬ c.mallocLongState (UInt32.ofNat (n + 1)) = true) :
    ended c m_threads (n + 1) refused = ended c m_threads n (refused + 1) := by
  simp only [ended, refusals, allocLongState, if_neg h]
  rw [Nat.add_assoc, Nat.add_comm 1]

theorem allocRound_granted {s : Allocation} (h : c.mallocLongState s.m_blocks = true) :
    allocRound c m_threads s = .exit (true, s) := if_pos h

theorem allocRound_refused {n : Nat} {throughput : UInt32} {refused : Nat}
    (h : ¬ c.mallocLongState (UInt32.ofNat (n + 1)) = true) :
    allocRound c m_threads ⟨UInt32.ofNat (n + 1), throughput, refused⟩ =
      if UInt32.ofNat n = 0 then
        .exit (false, ⟨UInt32.ofNat n, m_threads * UInt32.ofNat n, refused + 1⟩)
      else .next ⟨UInt32.ofNat n, m_threads * UInt32.ofNat n, refused + 1⟩ := by
  rw [← ofNat_succ_sub_one n]
  exact if_neg h

/-- The loop is the search of `allocLongState`, and it is left after as many rounds as there are
blocks. -/
theorem run_allocRound {n : Nat} (hn : n < 4294967296) (refused : Nat) :
    run (allocRound c m_threads) (n + 1)
        ⟨UInt32.ofNat (n + 1), m_threads * UInt32.ofNat (n + 1), refused⟩ =
      some (ended c m_threads (n + 1) refused) := by
  induction n generalizing refused with
  | zero =>
    by_cases hmalloc : c.mallocLongState (UInt32.ofNat (0 + 1)) = true
    · rw [ended_granted c m_threads hmalloc]
      exact run_exit (allocRound_granted c m_threads hmalloc)
    · rw [ended_refused c m_threads hmalloc]
      refine run_exit ((allocRound_refused c m_threads hmalloc).trans ((if_pos rfl).trans ?_))
      simp [ended, refusals, allocLongState]
  | succ n ih =>
    by_cases hmalloc : c.mallocLongState (UInt32.ofNat (n + 1 + 1)) = true
    · rw [ended_granted c m_threads hmalloc]
      exact run_exit (allocRound_granted c m_threads hmalloc)
    · have hne : UInt32.ofNat (n + 1) ≠ 0 := by
        rw [Ne, ofNat_eq_zero (by omega)]
        omega
      rw [run_next ((allocRound_refused c m_threads hmalloc).trans (if_neg hne)), ih (by omega),
        ended_refused c m_threads hmalloc]

theorem firstBlocks_eq (blocks : UInt32) :
    ∃ n < 4294967296, firstBlocks blocks = n + 1 ∧
      UInt32.ofNat (n + 1) = blocks := by
  rw [firstBlocks]
  split
  case isTrue hzero => exact ⟨4294967295, by omega, rfl, hzero.symm⟩
  case isFalse hpos =>
    have hne : blocks.toNat ≠ 0 := fun h => hpos (UInt32.toNat_inj.mp h)
    have hlt := blocks.toNat_lt
    refine ⟨blocks.toNat - 1, by omega, by omega, ?_⟩
    rw [Nat.sub_add_cancel (Nat.pos_of_ne_zero hne), UInt32.ofNat_toNat]

theorem run_firstBlocks (blocks : UInt32) :
    run (allocRound c m_threads) (firstBlocks blocks)
        ⟨blocks, m_threads * blocks, 0⟩ =
      some (ended c m_threads (firstBlocks blocks) 0) := by
  obtain ⟨n, hn, hfirst, rfl⟩ := firstBlocks_eq blocks
  rw [hfirst]
  exact run_allocRound c m_threads hn 0

/-- The card has the memory for this number of blocks, and for none from there to the first. -/
structure Granted (first : Nat) (blocks : UInt32) : Prop where
  pos : 0 < blocks.toNat
  le : blocks.toNat ≤ first
  granted : c.mallocLongState blocks = true
  refused : ∀ more : UInt32, blocks.toNat < more.toNat → more.toNat ≤ first →
    c.mallocLongState more = false

theorem allocLongState_eq_some {n : Nat} (hn : n < 4294967296) {blocks : UInt32} :
    allocLongState c n = some blocks ↔ Granted c n blocks := by
  induction n with
  | zero =>
    refine iff_of_false (fun h => by cases h) fun h => ?_
    have hpos := h.pos
    have hle := h.le
    omega
  | succ n ih =>
    have hnat : (UInt32.ofNat (n + 1)).toNat = n + 1 := by
      rw [UInt32.toNat_ofNat', Nat.mod_eq_of_lt hn]
    by_cases hmalloc : c.mallocLongState (UInt32.ofNat (n + 1)) = true
    · simp only [allocLongState, if_pos hmalloc]
      constructor
      · intro h
        cases h
        exact ⟨by omega, by omega, hmalloc, fun more hless hle => by omega⟩
      · intro h
        by_contra hne
        have hless : blocks.toNat < (UInt32.ofNat (n + 1)).toNat := by
          have hle := h.le
          have hnot : blocks.toNat ≠ (UInt32.ofNat (n + 1)).toNat := fun heq =>
            hne (congrArg some (UInt32.toNat_inj.mp heq.symm))
          omega
        have hrefused := h.refused _ hless (Nat.le_of_eq hnat)
        rw [hmalloc] at hrefused
        cases hrefused
    · simp only [allocLongState, if_neg hmalloc]
      rw [ih (by omega)]
      constructor
      · intro h
        refine ⟨h.pos, Nat.le_succ_of_le h.le, h.granted, fun more hless hle => ?_⟩
        by_cases hmore : more.toNat ≤ n
        · exact h.refused more hless hmore
        · have heq : more = UInt32.ofNat (n + 1) := UInt32.toNat_inj.mp (by omega)
          rw [heq]
          exact Bool.eq_false_iff.mpr hmalloc
      · intro h
        have hnot : blocks.toNat ≠ n + 1 := by
          intro heq
          have hblocks : blocks = UInt32.ofNat (n + 1) := UInt32.toNat_inj.mp (by omega)
          exact hmalloc (hblocks ▸ h.granted)
        have hle := h.le
        exact ⟨h.pos, by omega, h.granted, fun more hless hmore =>
          h.refused more hless (Nat.le_succ_of_le hmore)⟩

variable {c m_threads}

/-- The long state is never allocated for more threads than the contexts. -/
theorem throughput_le {blocks granted : UInt32} (hpos : 0 < blocks.toNat)
    (hlt : m_threads.toNat * blocks.toNat < quint32Modulus)
    (h : allocLongState c (firstBlocks blocks) = some granted) :
    (m_threads * granted).toNat ≤ (m_threads * blocks).toNat := by
  have hfirst : firstBlocks blocks = blocks.toNat := by
    rw [firstBlocks, if_neg]
    intro hzero
    rw [hzero] at hpos
    exact Nat.lt_irrefl 0 hpos
  rw [hfirst] at h
  have hle := ((allocLongState_eq_some c blocks.toNat_lt).mp h).le
  have hmul : m_threads.toNat * granted.toNat ≤ m_threads.toNat * blocks.toNat :=
    Nat.mul_le_mul_left _ hle
  have hlt : m_threads.toNat * blocks.toNat < 4294967296 := hlt
  rw [UInt32.toNat_mul, UInt32.toNat_mul, Nat.mod_eq_of_lt hlt,
    Nat.mod_eq_of_lt (Nat.lt_of_le_of_lt hmul hlt)]
  exact hmul

end Loop

section Device
variable {m_deviceParams : DeviceParams} {devProps : CudaDeviceProps} {c : InitCalls}

/-- A device that had no buffers has the one for the input only when `init` has found memory for all
of them; the contexts are for the first number of blocks, the long state for the one granted. -/
theorem allocated_of_input {rounds refused : Nat} {result : Bool} {m m' : Miner}
    (hnone : m.device.m_cuda_input = none)
    (h : init m_deviceParams devProps c rounds m = .returned result refused m')
    (hinput : m'.device.m_cuda_input.isSome) :
    ∃ blocks ∈ blockCount m_deviceParams devProps,
      ∃ granted ∈ allocLongState c (firstBlocks blocks),
      m'.device.m_throughput = threadCount m_deviceParams * granted ∧
      m'.device.m_ctx = some (sizeofCtx * (threadCount m_deviceParams * blocks).toNat) ∧
      m'.device.m_long_state = some (longStateSize (threadCount m_deviceParams * granted)) ∧
      m'.device.m_cuda_nonce = some () := by
  simp only [init] at h
  split at h
  case isTrue =>
    cases h
    rw [hnone] at hinput
    cases hinput
  case isFalse =>
    cases hblocks : blockCount m_deviceParams devProps with
    | none =>
      rw [hblocks] at h
      cases h
    | some blocks =>
      rw [hblocks] at h
      simp only at h
      split at h
      case isTrue =>
        cases h
        rw [hnone] at hinput
        cases hinput
      case isFalse =>
        split at h
        case isTrue =>
          cases h
          cases hinput
        case isFalse =>
          split at h
          case h_1 => cases h
          case h_2 r hrun =>
            refine ⟨blocks, rfl, ?_⟩
            rw [run_unique hrun (run_firstBlocks c (threadCount m_deviceParams) blocks), ended] at h
            cases hfound : allocLongState c (firstBlocks blocks) with
            | none =>
              rw [hfound] at h
              cases h
              cases hinput
            | some granted =>
              rw [hfound] at h
              cases h
              exact ⟨granted, rfl, rfl, rfl, rfl, rfl⟩

end Device

section Exact
variable (m_deviceParams : DeviceParams) (devProps : CudaDeviceProps) (c : InitCalls) (m : Miner)

/-- The threads are counted without overflow, there are some, and each of them has its 2 MiB. -/
def Enough (d : CryptonoteCudaDevice) : Prop :=
  0 < d.m_throughput.toNat ∧ d.m_throughput.toNat = d.m_threads.toNat * d.m_blocks.toNat ∧
    ∃ bytes ∈ d.m_long_state, d.m_throughput.toNat * 2 ^ 21 ≤ bytes

/-- `init` has returned, after no more rounds than there were blocks, and what it has allocated when
it succeeds is enough. -/
def End.Right (first : Option UInt32) : End → Prop
  | .returned result refused m =>
    (∀ blocks ∈ first, refused ≤ blocks.toNat) ∧ (result = true → Enough m.device)
  | _ => False

def Exact : Prop :=
  ∃ rounds, (init m_deviceParams devProps c rounds m).Right (blockCount m_deviceParams devProps)

/-- No division by 0, no number of blocks that is 0, and less than 2048 threads in the blocks that
the card has the memory for. -/
def Fits : Prop :=
  c.deviceReady = true → ∃ blocks ∈ blockCount m_deviceParams devProps,
    c.mallocCtx = true → c.mallocVariables = true → c.coreInit = true →
      0 < blocks.toNat ∧ ∀ granted, Granted c blocks.toNat granted →
        0 < (threadCount m_deviceParams).toNat ∧
          (threadCount m_deviceParams).toNat * granted.toNat < 2048

theorem enough_iff {d : CryptonoteCudaDevice}
    (hthroughput : d.m_throughput = d.m_threads * d.m_blocks)
    (hstate : d.m_long_state = some (longStateSize d.m_throughput))
    (hblocks : 0 < d.m_blocks.toNat) :
    Enough d ↔ 0 < d.m_threads.toNat ∧ d.m_threads.toNat * d.m_blocks.toNat < 2048 := by
  have hmul : d.m_throughput.toNat = d.m_threads.toNat * d.m_blocks.toNat % 4294967296 := by
    rw [hthroughput, UInt32.toNat_mul]
  rw [Enough, hstate]
  simp only [longStateSize, MEMORY, quint32Modulus, Option.mem_some_iff,
    exists_eq_left']
  constructor
  · rintro ⟨hpos, hexact, hbytes⟩
    rw [hexact] at hpos hbytes
    exact ⟨Nat.pos_of_mul_pos_right hpos, by omega⟩
  · rintro ⟨hthreads, hless⟩
    have hpos : 0 < d.m_threads.toNat * d.m_blocks.toNat := Nat.mul_pos hthreads hblocks
    omega

variable {m_deviceParams devProps c m}

theorem right_afterLoop_zero {d : CryptonoteCudaDevice} :
    ¬ (afterLoop d (ended c d.m_threads (firstBlocks 0) 0)).Right
      (some 0) := by
  rw [show firstBlocks 0 = 4294967295 + 1 from rfl]
  by_cases hmalloc : c.mallocLongState (UInt32.ofNat (4294967295 + 1)) = true
  · rw [ended_granted c d.m_threads hmalloc]
    rintro ⟨-, henough⟩
    have hpos := (henough rfl).1
    simp [UInt32.ofNat] at hpos
  · rw [ended_refused c d.m_threads hmalloc, ended]
    intro h
    cases hloop : allocLongState c 4294967295 with
    | none =>
      rw [hloop] at h
      have hle : 0 + 1 + refusals c 4294967295 ≤ 0 := h.1 0 rfl
      omega
    | some granted =>
      rw [hloop] at h
      have hle : 0 + 1 + refusals c 4294967295 ≤ 0 := h.1 0 rfl
      omega

theorem right_afterLoop {d : CryptonoteCudaDevice} :
    (afterLoop d (ended c d.m_threads d.m_blocks.toNat 0)).Right (some d.m_blocks) ↔
      ∀ granted, Granted c d.m_blocks.toNat granted →
        0 < d.m_threads.toNat ∧ d.m_threads.toNat * granted.toNat < 2048 := by
  have hgranted : ∀ granted, allocLongState c d.m_blocks.toNat =
      some granted ↔ Granted c d.m_blocks.toNat granted :=
    fun _ => allocLongState_eq_some c d.m_blocks.toNat_lt
  have hrefused : 0 + refusals c d.m_blocks.toNat ≤ d.m_blocks.toNat := by
    rw [Nat.zero_add]
    exact refusals_le c d.m_blocks.toNat
  rw [ended]
  cases hloop : allocLongState c d.m_blocks.toNat with
  | none =>
    refine iff_of_true ⟨fun blocks hblocks => ?_, fun h => by cases h⟩ fun granted h => ?_
    · cases hblocks
      exact hrefused
    · rw [← hgranted, hloop] at h
      cases h
  | some blocks =>
    have hblocks := (hgranted blocks).mp hloop
    constructor
    · rintro ⟨-, henough⟩ granted h
      rw [← hgranted, hloop] at h
      cases h
      exact (enough_iff rfl rfl hblocks.pos).mp (henough rfl)
    · intro h
      refine ⟨fun first hfirst => ?_, fun _ => ?_⟩
      · cases hfirst
        exact hrefused
      · exact (enough_iff rfl rfl hblocks.pos).mpr (h blocks hblocks)

theorem init_of_failed {blocks : UInt32} (hready : c.deviceReady = true)
    (hblocks : blockCount m_deviceParams devProps = some blocks)
    (hcalls : ¬ (c.mallocCtx = true ∧ c.mallocVariables = true ∧ c.coreInit = true))
    (rounds : Nat) :
    ∃ m', init m_deviceParams devProps c rounds m = .returned false 0 m' := by
  simp only [init, hready, not_true, if_false, hblocks]
  by_cases hctx : c.mallocCtx = true
  · rw [if_neg (not_not_intro hctx), if_pos (by tauto)]
    exact ⟨_, rfl⟩
  · rw [if_pos hctx]
    exact ⟨_, rfl⟩

/-- When the other calls succeed, the loop decides. -/
theorem init_of_calls {blocks : UInt32} (hready : c.deviceReady = true)
    (hblocks : blockCount m_deviceParams devProps = some blocks)
    (hcalls : c.mallocCtx = true ∧ c.mallocVariables = true ∧ c.coreInit = true) :
    ∃ d : CryptonoteCudaDevice, d.m_threads = threadCount m_deviceParams ∧ d.m_blocks = blocks ∧
      ∀ rounds, init m_deviceParams devProps c rounds m =
        ((run (allocRound c d.m_threads) rounds ⟨d.m_blocks, d.m_threads * d.m_blocks, 0⟩).map
          (afterLoop d)).getD .running := by
  obtain ⟨hctx, hvariables, hcore⟩ := hcalls
  refine ⟨{ m.device with
    m_threads := threadCount m_deviceParams
    m_blocks := blocks
    m_throughput := threadCount m_deviceParams * blocks }, rfl, rfl, fun rounds => ?_⟩
  simp only [init, hready, hblocks, hctx, hvariables, hcore, not_true, if_false, or_self]
  cases run (allocRound c (threadCount m_deviceParams)) rounds
    ⟨blocks, threadCount m_deviceParams * blocks, 0⟩ with
  | none => rfl
  | some r => rfl

/-- A loop that is left is left with the same result however many rounds it may take. -/
theorem exact_of_calls {blocks : UInt32} (hready : c.deviceReady = true)
    (hblocks : blockCount m_deviceParams devProps = some blocks)
    (hcalls : c.mallocCtx = true ∧ c.mallocVariables = true ∧ c.coreInit = true) :
    ∃ d : CryptonoteCudaDevice, d.m_threads = threadCount m_deviceParams ∧ d.m_blocks = blocks ∧
      (Exact m_deviceParams devProps c m ↔
        (afterLoop d (ended c d.m_threads (firstBlocks d.m_blocks) 0)).Right
          (some d.m_blocks)) := by
  obtain ⟨d, hthreads, rfl, hinit⟩ := init_of_calls (m := m) hready hblocks hcalls
  have hrun := run_firstBlocks c d.m_threads d.m_blocks
  refine ⟨d, hthreads, rfl, ?_⟩
  rw [Exact, hblocks]
  constructor
  · rintro ⟨rounds, h⟩
    rw [hinit] at h
    cases hrounds : run (allocRound c d.m_threads) rounds
        ⟨d.m_blocks, d.m_threads * d.m_blocks, 0⟩ with
    | none =>
      rw [hrounds] at h
      exact h.elim
    | some r =>
      rw [hrounds, run_unique hrounds hrun] at h
      exact h
  · intro h
    refine ⟨firstBlocks d.m_blocks, ?_⟩
    rw [hinit, hrun]
    exact h

theorem exact_iff_fits : Exact m_deviceParams devProps c m ↔ Fits m_deviceParams devProps c := by
  by_cases hready : c.deviceReady = true
  case neg =>
    have hinit : init m_deviceParams devProps c 0 m = .returned false 0 m := if_pos hready
    refine iff_of_true ⟨0, ?_⟩ fun h => absurd h hready
    rw [hinit]
    exact ⟨fun _ _ => Nat.zero_le _, fun h => by cases h⟩
  cases hblocks : blockCount m_deviceParams devProps with
  | none =>
    refine iff_of_false ?_ ?_
    · rintro ⟨rounds, h⟩
      simp only [init, hready, not_true, if_false, hblocks] at h
      exact h
    · intro h
      obtain ⟨blocks, hmem, -⟩ := h hready
      rw [hblocks] at hmem
      cases hmem
  | some blocks =>
    rw [Fits]
    simp only [hready, hblocks, Option.mem_some_iff, exists_eq_left', true_imp_iff]
    by_cases hcalls : c.mallocCtx = true ∧ c.mallocVariables = true ∧ c.coreInit = true
    case neg =>
      obtain ⟨m', hinit⟩ := init_of_failed (m := m) hready hblocks hcalls 0
      refine iff_of_true ⟨0, ?_⟩ fun hctx hvariables hcore =>
        absurd ⟨hctx, hvariables, hcore⟩ hcalls
      rw [hinit]
      exact ⟨fun _ _ => Nat.zero_le _, fun h => by cases h⟩
    obtain ⟨d, hthreads, rfl, hexact⟩ := exact_of_calls (m := m) hready hblocks hcalls
    rw [hexact, ← hthreads]
    obtain ⟨hctx, hvariables, hcore⟩ := hcalls
    simp only [hctx, hvariables, hcore, true_imp_iff]
    by_cases hzero : d.m_blocks = 0
    · rw [hzero]
      exact iff_of_false right_afterLoop_zero fun h => Nat.lt_irrefl 0 h.1
    · have hpos : 0 < d.m_blocks.toNat :=
        Nat.pos_of_ne_zero fun h => hzero (UInt32.toNat_inj.mp h)
      rw [firstBlocks, if_neg hzero, right_afterLoop]
      exact ⟨fun h => ⟨hpos, h⟩, fun h => h.2⟩

/-- In every pattern of failures `init` does what it should exactly when the numbers fit that
pattern; it does so in all of them exactly when there are threads and blocks, less than 2048 in
all. -/
theorem allocation_exact_iff (m_deviceParams : DeviceParams) (devProps : CudaDeviceProps)
    (m : Miner) :
    (∀ c, Exact m_deviceParams devProps c m ↔ Fits m_deviceParams devProps c) ∧
    ((∀ c, Exact m_deviceParams devProps c m) ↔
      ∃ blocks ∈ blockCount m_deviceParams devProps, 0 < blocks.toNat ∧
        0 < (threadCount m_deviceParams).toNat ∧
          (threadCount m_deviceParams).toNat * blocks.toNat < 2048) := by
  refine ⟨fun c => exact_iff_fits, ?_⟩
  simp only [exact_iff_fits]
  constructor
  · intro h
    obtain ⟨blocks, hblocks, hall⟩ :=
      h ⟨true, true, true, true, fun _ => true⟩ rfl
    obtain ⟨hpos, hgranted⟩ := hall rfl rfl rfl
    obtain ⟨hthreads, hless⟩ := hgranted blocks
      ⟨hpos, Nat.le_refl _, rfl, fun more hmore hle => absurd hle (Nat.not_le_of_lt hmore)⟩
    exact ⟨blocks, hblocks, hpos, hthreads, hless⟩
  · rintro ⟨blocks, hblocks, hpos, hthreads, hless⟩ c hready
    refine ⟨blocks, hblocks, fun _ _ _ => ⟨hpos, fun granted h => ⟨hthreads, ?_⟩⟩⟩
    exact Nat.lt_of_le_of_lt (Nat.mul_le_mul_left _ h.le) hless

/-- Without parameters, 16 multiprocessors of 128 cores get 256 blocks of 8 threads; 2048 times
2 MiB is 0 in 32 bits. -/
theorem default_sizes_overflow :
    ¬ ∀ (m_deviceParams : DeviceParams) (devProps : CudaDeviceProps) (c : InitCalls) (m : Miner),
      Exact m_deviceParams devProps c m := by
  intro h
  have hfits := exact_iff_fits.mp (h (fun _ => none) ⟨16, 5, 2⟩
    ⟨true, true, true, true, fun _ => true⟩
    ⟨⟨0, 0, 0, none, none, none, none, none⟩, .NoError⟩)
  obtain ⟨blocks, hblocks, hall⟩ := hfits rfl
  cases hblocks
  obtain ⟨hpos, hgranted⟩ := hall rfl rfl rfl
  have hless := (hgranted _ ⟨hpos, Nat.le_refl _, rfl, fun more hmore hle =>
    absurd hle (Nat.not_le_of_lt hmore)⟩).2
  exact absurd hless (by decide)

end Exact

end CudaAllocation
end MinerGate
