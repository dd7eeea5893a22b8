import MinerGate.Ethereum.CudaParams
import MinerGate.Lib.CountedLoop
import MinerGate.Miner.CudaLoops

/-!
# One pass of the Ethereum CUDA batch loop

The batch loop of `EthCUDAMiner::start` between two calls of `nextNonce`, for the sizes that
`setGpuParams` has set. It goes on mining, no call to the device fails and nothing is found.
-/

namespace MinerGate

set_option autoImplicit false

open StridedLoop (value value_succ runs_or_endsAfter)

/-- `miner` is what the miner has had before its parameters are set, `others` are the parameters
beside the two sizes. `lastNonce` is any value of 64 bits: a restart of the counter may come between
the store and the last load of `nextNonce`. -/
structure CudaPass where
  miner : EthCudaSizes
  others : DeviceParams
  gridSize : UInt32
  blockSize : UInt32
  ethCudaGridSize : UInt32
  lastNonce : UInt64
  job : MiningJob
  ethEval : MiningJob → Nat → Option QByteArray
  shared : Nat → Shared
  input : Nat → Input

namespace CudaPass
variable (p : CudaPass)

def params : DeviceParams :=
  (p.others.insert .GridSize p.gridSize).insert .BlockSize p.blockSize

def sizes : EthCudaSizes := (p.miner.setGpuParams p.params).start p.ethCudaGridSize

/-- `lastNonce - NONCE_INTERVAL` in 64 bits -/
def firstNonce : Nat :=
  (p.lastNonce.toNat + nonceModulus - ETH_CUDA_NONCE_INTERVAL) % nonceModulus

def sharedAt (n : Nat) : Shared := { p.shared n with m_state := .Mining }

def inputAt (n : Nat) : Input := { p.input n with outcome := .ok, found := none }

/-- The loop at the test `pc`. -/
def loopAt (pc : EthCudaPc) : EthCuda :=
  ⟨pc, p.job, p.sizes.m_gridSize.toNat, p.sizes.m_blockSize.toNat⟩

def loop : Nat → EthCuda
  | 0 => p.loopAt (.batch p.firstNonce p.lastNonce.toNat false)
  | n + 1 => match (loop n).step p.ethEval (p.sharedAt n) (p.inputAt n) with
    | some r => r.loop
    | none => loop n

def launchAt (n : Nat) : Option Nat :=
  match (p.loop n).pc with
  | .launch nonce _ => some nonce
  | _ => none

/-- The start nonces of the launches in the first `n` steps. -/
def launches (n : Nat) : List Nat := (List.range n).filterMap p.launchAt

def batchSize : Nat := MinerGate.batchSize p.sizes.m_gridSize.toNat p.sizes.m_blockSize.toNat

/-- The number of threads of a launch. -/
def width : Nat := launchWidth p.sizes.m_gridSize.toNat p.sizes.m_blockSize.toNat

/-- The loop leaves the pass at step `n`. -/
def EndsAt (n : Nat) : Prop := (∀ m < n, (p.loop m).pc ≠ .switch) ∧ (p.loop n).pc = .switch

/-- The number of threads that the parameters ask for. -/
def threads : Nat := p.gridSize.toNat * p.blockSize.toNat

/-- The pass has as many launches as whole batches fit into the range, and all of them search inside
of it. -/
structure Covers : Prop where
  exact : p.batchSize = p.threads
  ends : ∃ n, p.EndsAt n ∧ (p.launches n).length * p.threads ≤ ETH_CUDA_NONCE_INTERVAL ∧
    ETH_CUDA_NONCE_INTERVAL < ((p.launches n).length + 1) * p.threads
  inside : ∀ n, p.EndsAt n → ∀ nonce ∈ p.launches n, ∀ gid < p.width,
    p.lastNonce.toNat ≤ (nonce + gid) % nonceModulus + ETH_CUDA_NONCE_INTERVAL ∧
      (nonce + gid) % nonceModulus < p.lastNonce.toNat

/-- The block size has 16 bits and the batch size 32, there is a thread, and the range begins and
ends where 64 bits can count: a batch that is larger than the range is never launched. -/
structure Fits : Prop where
  blockSize : p.blockSize.toNat < 65536
  pos : 0 < p.threads
  threads : p.threads < quint32Modulus
  begins : ETH_CUDA_NONCE_INTERVAL < p.threads ∨ ETH_CUDA_NONCE_INTERVAL ≤ p.lastNonce.toNat
  ends : p.lastNonce.toNat + p.threads < nonceModulus + ETH_CUDA_NONCE_INTERVAL % p.threads

theorem sizes_eq : p.sizes.m_gridSize = p.gridSize ∧
    p.sizes.m_blockSize = p.blockSize.toUInt16 := by
  have hwanted : CudaParams.wanted p.ethCudaGridSize p.params = (p.gridSize, p.blockSize) := by
    simp [CudaParams.wanted, params, DeviceParams.value_insert]
  obtain ⟨hgrid, hblock⟩ := (p.miner.setGpuParams p.params).sizes_resolve
    (fun d => d.m_blockSize.toUInt32) (fun d => d.m_gridSize) p.ethCudaGridSize
  change _ = (CudaParams.wanted p.ethCudaGridSize p.params).1 at hgrid
  change _ = (CudaParams.wanted p.ethCudaGridSize p.params).2.toUInt16 at hblock
  rw [hwanted] at hgrid hblock
  exact ⟨hgrid, hblock⟩

theorem batchSize_eq :
    p.batchSize = p.gridSize.toNat * (p.blockSize.toNat % 65536) % quint32Modulus := by
  rw [batchSize, p.sizes_eq.1, p.sizes_eq.2]
  rfl

theorem width_eq :
    p.width = min (p.gridSize.toNat * (p.blockSize.toNat % 65536)) quint32Modulus := by
  rw [width, p.sizes_eq.1, p.sizes_eq.2]
  rfl

/-- The sizes that the parameters ask for are those of the loop, and its batch has one thread for
each nonce. -/
theorem exact_iff (hpos : 0 < p.batchSize) : p.batchSize = p.threads ↔
    p.blockSize.toNat < 65536 ∧ p.threads < quint32Modulus := by
  rw [batchSize_eq] at hpos ⊢
  have hgrid : 0 < p.gridSize.toNat := by
    apply Nat.pos_of_ne_zero
    intro hzero
    rw [hzero, Nat.zero_mul, Nat.zero_mod] at hpos
    exact absurd hpos (Nat.lt_irrefl 0)
  have hle := Nat.mul_le_mul_left p.gridSize.toNat (Nat.mod_le p.blockSize.toNat 65536)
  have hmod := Nat.mod_le (p.gridSize.toNat * (p.blockSize.toNat % 65536)) quint32Modulus
  have hlt := Nat.mod_lt (p.gridSize.toNat * (p.blockSize.toNat % 65536))
    (show 0 < quint32Modulus by decide)
  constructor
  · intro heq
    unfold threads at heq ⊢
    have hblock : p.blockSize.toNat % 65536 = p.blockSize.toNat :=
      Nat.eq_of_mul_eq_mul_left hgrid (by omega)
    exact ⟨by omega, by omega⟩
  · rintro ⟨hblock, hthreads⟩
    rw [Nat.mod_eq_of_lt hblock]
    exact Nat.mod_eq_of_lt hthreads

theorem width_of_exact (h : p.batchSize = p.threads) : p.width = p.threads := by
  rw [batchSize_eq] at h
  rw [width_eq]
  have hle := Nat.mul_le_mul_left p.gridSize.toNat (Nat.mod_le p.blockSize.toNat 65536)
  have hmod := Nat.mod_le (p.gridSize.toNat * (p.blockSize.toNat % 65536)) quint32Modulus
  have hlt := Nat.mod_lt (p.gridSize.toNat * (p.blockSize.toNat % 65536))
    (show 0 < quint32Modulus by decide)
  unfold threads at h ⊢
  omega

section Loop
variable {p}

theorem loop_succ {n : Nat} {r : Result EthCuda}
    (h : (p.loop n).step p.ethEval (p.sharedAt n) (p.inputAt n) = some r) :
    p.loop (n + 1) = r.loop := by
  rw [loop, h]

/-- One iteration: the test, the launch and the report of nothing. -/
theorem loop_iteration {n nonce : Nat}
    (h : p.loop n = p.loopAt (.batch nonce p.lastNonce.toNat false))
    (htest : (nonce + p.batchSize) % nonceModulus ≤ p.lastNonce.toNat) :
    p.loop (n + 1) = p.loopAt (.launch nonce p.lastNonce.toNat) ∧
      p.loop (n + 2) = p.loopAt (.report nonce p.lastNonce.toNat false) ∧
      p.loop (n + 3) = p.loopAt
        (.batch ((nonce + p.batchSize) % nonceModulus) p.lastNonce.toNat false) := by
  have hlaunch : p.loop (n + 1) = p.loopAt (.launch nonce p.lastNonce.toNat) := by
    apply loop_succ (r := .keep (p.sharedAt n) _)
    rw [h]
    simp only [EthCuda.step, loopAt]
    exact if_pos ⟨Bool.false_ne_true, htest, rfl⟩
  have hreport : p.loop (n + 2) = p.loopAt (.report nonce p.lastNonce.toNat false) := by
    apply loop_succ (r := .keep (p.sharedAt (n + 1)) _)
    rw [hlaunch]
    rfl
  refine ⟨hlaunch, hreport, ?_⟩
  apply loop_succ (r := .keep (p.sharedAt (n + 2)) _)
  rw [hreport]
  rfl

theorem loop_end {n nonce : Nat}
    (h : p.loop n = p.loopAt (.batch nonce p.lastNonce.toNat false))
    (htest : p.lastNonce.toNat < (nonce + p.batchSize) % nonceModulus) :
    p.loop (n + 1) = p.loopAt .switch := by
  apply loop_succ (r := .keep (p.sharedAt n) _)
  rw [h]
  simp only [EthCuda.step, loopAt]
  apply if_neg
  rintro ⟨-, hle, -⟩
  exact absurd hle (Nat.not_le.mpr htest)

/-- The nonce of iteration `i`. -/
def nonce (p : CudaPass) (i : Nat) : Nat := value nonceModulus p.firstNonce p.batchSize i

theorem firstNonce_lt : p.firstNonce < nonceModulus := Nat.mod_lt _ (by decide)

theorem loop_batch {i : Nat} (h : ∀ j < i, p.nonce (j + 1) ≤ p.lastNonce.toNat) :
    p.loop (3 * i) = p.loopAt (.batch (p.nonce i) p.lastNonce.toNat false) := by
  induction i with
  | zero =>
    have hfirst : p.nonce 0 = p.firstNonce := by
      rw [nonce, value, Nat.zero_mul, Nat.add_zero, Nat.mod_eq_of_lt firstNonce_lt]
    rw [hfirst]
    rfl
  | succ i ih =>
    have hbatch := ih fun j hj => h j (Nat.lt_succ_of_lt hj)
    have hnext : (p.nonce i + p.batchSize) % nonceModulus = p.nonce (i + 1) := value_succ _ _ _ i
    have htest := h i (Nat.lt_succ_self i)
    rw [← hnext] at htest
    have hloop := (loop_iteration hbatch htest).2.2
    rwa [hnext] at hloop

theorem launches_batch {i : Nat} (h : ∀ j < i, p.nonce (j + 1) ≤ p.lastNonce.toNat) :
    p.launches (3 * i) = (List.range i).map p.nonce := by
  induction i with
  | zero => rfl
  | succ i ih =>
    have hbatch := loop_batch fun j hj => h j (Nat.lt_succ_of_lt hj)
    have hnext : (p.nonce i + p.batchSize) % nonceModulus = p.nonce (i + 1) := value_succ _ _ _ i
    have htest := h i (Nat.lt_succ_self i)
    rw [← hnext] at htest
    obtain ⟨hlaunch, hreport, -⟩ := loop_iteration hbatch htest
    have h0 : p.launchAt (3 * i) = none := by rw [launchAt, hbatch]; rfl
    have h1 : p.launchAt (3 * i + 1) = some (p.nonce i) := by rw [launchAt, hlaunch]; rfl
    have h2 : p.launchAt (3 * i + 2) = none := by rw [launchAt, hreport]; rfl
    have hrange : List.range (3 * (i + 1)) =
        List.range (3 * i) ++ [3 * i, 3 * i + 1, 3 * i + 2] := by
      rw [show 3 * (i + 1) = 3 * i + 1 + 1 + 1 from rfl, List.range_succ, List.range_succ,
        List.range_succ]
      simp
    rw [launches, hrange, List.filterMap_append, List.range_succ, List.map_append,
      ← ih fun j hj => h j (Nat.lt_succ_of_lt hj)]
    simp [launches, h0, h1, h2]

/-- No step up to the test of iteration `i` is the end of the pass. -/
theorem loop_ne_switch {i n : Nat} (h : ∀ j < i, p.nonce (j + 1) ≤ p.lastNonce.toNat)
    (hn : n ≤ 3 * i) : (p.loop n).pc ≠ .switch := by
  have hquot := Nat.div_add_mod n 3
  have hmod := Nat.mod_lt n (show 0 < 3 by decide)
  have hbatch := loop_batch (p := p) (i := n / 3) fun j hj => h j (by omega)
  by_cases hzero : n % 3 = 0
  · rw [show n = 3 * (n / 3) by omega, hbatch]
    exact fun hpc => by cases hpc
  · have htest : (p.nonce (n / 3) + p.batchSize) % nonceModulus ≤ p.lastNonce.toNat := by
      rw [show (p.nonce (n / 3) + p.batchSize) % nonceModulus = p.nonce (n / 3 + 1) from
        value_succ _ _ _ _]
      exact h (n / 3) (by omega)
    obtain ⟨hlaunch, hreport, -⟩ := loop_iteration hbatch htest
    by_cases hone : n % 3 = 1
    · rw [show n = 3 * (n / 3) + 1 by omega, hlaunch]
      exact fun hpc => by cases hpc
    · rw [show n = 3 * (n / 3) + 2 by omega, hreport]
      exact fun hpc => by cases hpc

/-- The loop ends after `k` iterations in every run of the pass. -/
def EndsAfter (p : CudaPass) (k : Nat) : Prop :=
  StridedLoop.EndsAfter nonceModulus p.firstNonce p.lastNonce.toNat p.batchSize k

theorem EndsAfter.endsAt {k : Nat} (h : p.EndsAfter k) : p.EndsAt (3 * k + 1) := by
  constructor
  · intro m hm
    exact loop_ne_switch h.runs (by omega)
  · have htest : p.lastNonce.toNat < (p.nonce k + p.batchSize) % nonceModulus := by
      rw [show (p.nonce k + p.batchSize) % nonceModulus = p.nonce (k + 1) from value_succ _ _ _ _]
      exact h.ends
    rw [loop_end (loop_batch h.runs) htest]
    rfl

theorem EndsAt.unique {m n : Nat} (hm : p.EndsAt m) (hn : p.EndsAt n) : m = n := by
  rcases Nat.lt_trichotomy m n with hlt | heq | hgt
  · exact absurd hm.2 (hn.1 m hlt)
  · exact heq
  · exact absurd hn.2 (hm.1 n hgt)

theorem endsAt_iff {n : Nat} : p.EndsAt n ↔ ∃ k, p.EndsAfter k ∧ n = 3 * k + 1 := by
  constructor
  · intro h
    rcases runs_or_endsAfter nonceModulus p.firstNonce p.lastNonce.toNat p.batchSize with
      hruns | ⟨k, hk⟩
    · exact absurd h.2 (loop_ne_switch (i := n) (fun j _ => hruns j) (by omega))
    · exact ⟨k, hk, h.unique (EndsAfter.endsAt hk)⟩
  · rintro ⟨k, hk, rfl⟩
    exact hk.endsAt

theorem EndsAfter.launches {k : Nat} (h : p.EndsAfter k) :
    p.launches (3 * k + 1) = (List.range k).map p.nonce := by
  have hlast : p.launchAt (3 * k) = none := by
    rw [launchAt, loop_batch h.runs]
    rfl
  rw [CudaPass.launches, List.range_succ, List.filterMap_append, ← launches_batch h.runs,
    List.filterMap_cons_none hlast, List.filterMap_nil, List.append_nil, CudaPass.launches]

/-- A batch is inside of the range when all its threads are. -/
theorem inside_iff {nonce last size : Nat} (hnonce : nonce < nonceModulus)
    (hlast : last < nonceModulus) (hsize : 0 < size) :
    (∀ gid < size, last ≤ (nonce + gid) % nonceModulus + ETH_CUDA_NONCE_INTERVAL ∧
        (nonce + gid) % nonceModulus < last) ↔
      last ≤ nonce + ETH_CUDA_NONCE_INTERVAL ∧ nonce + size ≤ last := by
  constructor
  · intro h
    have hfirst := h 0 hsize
    rw [Nat.add_zero, Nat.mod_eq_of_lt hnonce] at hfirst
    refine ⟨hfirst.1, ?_⟩
    by_contra hnot
    have hbound := (h (last - nonce) (by omega)).2
    rw [Nat.mod_eq_of_lt (by omega)] at hbound
    omega
  · intro h gid hgid
    rw [Nat.mod_eq_of_lt (by omega)]
    omega

theorem nonce_lt (i : Nat) : p.nonce i < nonceModulus := Nat.mod_lt _ (by decide)

theorem lastNonce_lt : p.lastNonce.toNat < nonceModulus := p.lastNonce.toNat_lt

theorem covers_iff_strided : p.Covers ↔ p.batchSize = p.threads ∧
    StridedLoop.Covers nonceModulus p.firstNonce p.lastNonce.toNat p.batchSize
      ETH_CUDA_NONCE_INTERVAL := by
  constructor
  · rintro ⟨hexact, ⟨n, hn, hle, hlt⟩, hinside⟩
    refine ⟨hexact, ?_⟩
    obtain ⟨k, hk, rfl⟩ := endsAt_iff.mp hn
    have hmem := hinside _ hn
    rw [hk.launches] at hmem hle hlt
    rw [List.length_map, List.length_range, ← hexact] at hle hlt
    have hpos : 0 < p.batchSize := by
      apply Nat.pos_of_ne_zero
      intro hzero
      rw [hzero, Nat.mul_zero] at hlt
      exact Nat.not_lt_zero _ hlt
    refine ⟨k, hle, hlt, hk, fun i hi => ?_⟩
    have hthreads := hmem (p.nonce i) (List.mem_map_of_mem (List.mem_range.mpr hi))
    rw [p.width_of_exact hexact, ← hexact] at hthreads
    exact (inside_iff (nonce_lt i) lastNonce_lt hpos).mp hthreads
  · rintro ⟨hexact, hcovers⟩
    have hpos := hcovers.pos
    obtain ⟨k, hle, hlt, hk, hinside⟩ := hcovers
    have hlaunches := EndsAfter.launches hk
    have hlength : (p.launches (3 * k + 1)).length = k := by
      rw [hlaunches, List.length_map, List.length_range]
    refine ⟨hexact, ⟨3 * k + 1, EndsAfter.endsAt hk, ?_, ?_⟩, fun n hn nonce hnonce => ?_⟩
    · rwa [hlength, ← hexact]
    · rwa [hlength, ← hexact]
    · rw [hn.unique (EndsAfter.endsAt hk), hlaunches] at hnonce
      obtain ⟨i, hi, rfl⟩ := List.mem_map.mp hnonce
      rw [p.width_of_exact hexact, ← hexact]
      exact (inside_iff (nonce_lt i) lastNonce_lt hpos).mpr (hinside i (List.mem_range.mp hi))

end Loop

/-- How the loop comes to a pass: the counter gives a value that is no smaller than the range. -/
theorem begins_pass {p : CudaPass} {sh : Shared} (inp : Input)
    (hctl : (sh.nonceCtl false).m_nonce < nonceModulus)
    (hlast : ((sh.nonceCtl false).nextNonce ETH_CUDA_NONCE_INTERVAL).2 = p.lastNonce.toNat) :
    ETH_CUDA_NONCE_INTERVAL ≤ p.lastNonce.toNat ∧
      (p.loopAt .reserve).step p.ethEval sh inp =
        some (.act sh (.reserve false ETH_CUDA_NONCE_INTERVAL)
          (p.loopAt (.synchronize p.firstNonce p.lastNonce.toNat))) := by
  have hle : ETH_CUDA_NONCE_INTERVAL ≤ p.lastNonce.toNat := by
    rw [← hlast]
    exact NonceCtl.le_newNonce hctl (by decide)
  have hfirst : p.firstNonce = p.lastNonce.toNat - ETH_CUDA_NONCE_INTERVAL :=
    StridedLoop.start_of_le lastNonce_lt hle
  refine ⟨hle, ?_⟩
  rw [hfirst, ← hlast]
  rfl

/-- A pass searches its range as it should exactly when its numbers fit. -/
theorem covers_range_iff (p : CudaPass) : p.Covers ↔ p.Fits := by
  rw [covers_iff_strided]
  constructor
  · rintro ⟨hexact, hcovers⟩
    obtain ⟨hblock, hthreads⟩ := (p.exact_iff hcovers.pos).mp hexact
    rw [hexact] at hcovers
    obtain ⟨hpos, hbegins, hends⟩ :=
      (StridedLoop.covers_iff (by decide) lastNonce_lt (hthreads.trans (by decide))).mp hcovers
    exact ⟨hblock, hpos, hthreads, hbegins, hends⟩
  · rintro ⟨hblock, hpos, hthreads, hbegins, hends⟩
    have hexact : p.batchSize = p.threads := by
      rw [batchSize_eq, Nat.mod_eq_of_lt hblock]
      exact Nat.mod_eq_of_lt hthreads
    refine ⟨hexact, ?_⟩
    rw [hexact]
    exact (StridedLoop.covers_iff (by decide) lastNonce_lt (hthreads.trans (by decide))).mpr
      ⟨hpos, hbegins, hends⟩

/-- The first pass of a coin whose counter has started at zero, with one thread in a block. -/
def oneThread (gridSize : UInt32) : CudaPass where
  miner := .new
  others := fun _ => none
  gridSize := gridSize
  blockSize := 1
  ethCudaGridSize := 32
  lastNonce := 1000000000
  job := .empty
  ethEval := fun _ _ => none
  shared := fun _ => ⟨.new, false, fun _ => .new⟩
  input := fun _ => ⟨false, .ok, 0, none, 0⟩

/-- Without a block the loop launches at its first nonce for ever. -/
theorem empty_grid_never_ends : ¬ ∀ p : CudaPass, p.Covers := by
  intro h
  obtain ⟨n, hn, -⟩ := (h (oneThread 0)).ends
  obtain ⟨k, hk, -⟩ := endsAt_iff.mp hn
  have hends : (oneThread 0).lastNonce.toNat <
      (((oneThread 0).firstNonce + (k + 1) * (oneThread 0).batchSize) % nonceModulus) := hk.ends
  have hsize : (oneThread 0).batchSize = 0 := by decide
  rw [hsize, Nat.mul_zero] at hends
  exact absurd hends (by decide)

end CudaPass
end MinerGate
