import MinerGate.Lib.RacingMinimum
import MinerGate.Miner.DeviceHash

/-!
# One batch of the CryptoNight CUDA miner

Every thread of the last kernel whose hash meets the target writes its nonce to the one cell that
the host reads, when what it finds there is larger. The host adds the hashes up to the nonce that
it has read, or those of the whole batch, and goes on to the next range.
-/

namespace MinerGate

set_option autoImplicit false

open Transition RacingMinimum

/-- A launch for the main job, with the hashes of the nonces. -/
structure CudaBatch where
  job : MiningJob
  hash : Nat → QByteArray
  startNonce : UInt32
  m_throughput : UInt32

/-- The value of an `int` with these 32 bits. -/
def toInt32 (n : Int) : Int := n.bmod 4294967296

theorem toInt32_of_lt {n : Int} (hle : 0 ≤ n) (hlt : n < 2147483648) : toInt32 n = n := by
  rw [toInt32, Int.bmod_eq_of_le (by omega) (by omega)]

theorem toInt32_of_ge {n : Int} (hle : 2147483648 ≤ n) (hlt : n < 4294967296) :
    toInt32 n = n - 4294967296 := by
  rw [toInt32, Int.bmod_eq_emod]
  split <;> omega

namespace CudaBatch
variable (b : CudaBatch)

/-- The number of threads that run: `int threads` of them, in a grid of blocks with 128 threads. A
grid that is not positive is an error of the launch. -/
def hashed : Nat :=
  let threads := toInt32 b.m_throughput.toNat
  let grid := (toInt32 (threads + 127)).tdiv 128
  if 0 < grid then threads.toNat else 0

def nonce (thread : Nat) : Nat := (b.startNonce.toNat + thread) % quint32Modulus

/-- `rc` of a thread, with the array `target` that the host has copied. -/
def rc (thread : Nat) : Bool :=
  cryptonight_extra_gpu_final (hashWord (b.hash (b.nonce thread))) (targetWord b.job.target)

/-- The threads that come to the last statement of the kernel. -/
def Writes (thread : Nat) : Prop := thread < b.hashed ∧ b.rc thread = true

instance (thread : Nat) : Decidable (b.Writes thread) := inferInstanceAs (Decidable (_ ∧ _))

/-- `resNonce[0]` and the threads of the kernel, after `cudaMemset` to `0xFF`. -/
def launched : Race Nat Nat := start 0xffffffff b.Writes

end CudaBatch

/-- What the host adds to `m_hashCount` for a batch, and the shares that it emits. -/
structure BatchReport where
  hashCount : Nat
  shares : List ShareEvent
deriving DecidableEq, Repr

namespace CudaBatch
variable (b : CudaBatch)

/-- The branch of `start` after `cryptonight_extra_cpu_final` has set `foundNonce`. -/
def report (foundNonce : Nat) : BatchReport :=
  if foundNonce < 0xffffffff then
    { hashCount := (foundNonce + quint32Modulus - b.startNonce.toNat + 1) % quint32Modulus
      shares := ((checkCryptonote (fun _ => b.hash foundNonce) b.job foundNonce).map
        fun hash => ⟨b.job.job_id, foundNonce, hash, false⟩).toList }
  else { hashCount := b.m_throughput.toNat, shares := [] }

/-- The hash of the thread's nonce meets the target of the job. -/
def Meets (thread : Nat) : Prop :=
  hashWord7 (b.hash (b.nonce thread)) ≤ arrayToQuint32 b.job.target

instance (thread : Nat) : Decidable (b.Meets thread) := inferInstanceAs (Decidable (_ ≤ _))

def share (thread : Nat) : ShareEvent :=
  ⟨b.job.job_id, b.nonce thread, b.hash (b.nonce thread), false⟩

/-- Every nonce of the batch whose hash meets the target is emitted, and as many hashes are counted
as the kernel has made. -/
def Complete (r : BatchReport) : Prop :=
  (∀ thread < b.hashed, b.Meets thread → b.share thread ∈ r.shares) ∧ r.hashCount = b.hashed

/-- In whatever order the threads come to their loads and stores. -/
def ReportsAll : Prop :=
  ∀ es t, exec (RacingMinimum.step b.nonce) b.launched es = some t → t.Over →
    b.Complete (b.report t.cell)

variable {b : CudaBatch} {thread : Nat} {r : BatchReport}

/-- With more threads the number, or that of the blocks, is negative. -/
theorem hashed_eq : b.hashed =
    if b.m_throughput.toNat ≤ 2147483520 then b.m_throughput.toNat else 0 := by
  obtain ⟨T, hT⟩ : ∃ T, b.m_throughput.toNat = T := ⟨_, rfl⟩
  have hlt : T < 4294967296 := hT ▸ b.m_throughput.toNat_lt
  simp only [hashed, hT]
  rcases Nat.lt_or_ge T 2147483648 with hsmall | hbig
  · rw [toInt32_of_lt (n := ↑T) (by omega) (by omega)]
    rcases Nat.lt_or_ge T 2147483521 with hfits | hover
    · rw [toInt32_of_lt (by omega) (by omega), Int.tdiv_eq_ediv_of_nonneg (by omega)]
      split_ifs <;> omega
    · have hneg := toInt32_of_ge (n := (T : Int) + 127) (by omega) (by omega)
      have hgrid : (toInt32 ((T : Int) + 127)).tdiv 128 ≤ 0 := by
        rw [Int.tdiv_eq_ediv, show Int.sign 128 = 1 from rfl]
        split <;> omega
      rw [if_neg (by omega), if_neg (by omega)]
  · have hneg := toInt32_of_ge (n := (T : Int)) (by omega) (by omega)
    have hnat : (toInt32 ↑T).toNat = 0 := by omega
    rw [hnat, ite_self, if_neg (by omega)]

theorem hashed_le : b.hashed ≤ 2147483520 := by
  rw [hashed_eq]
  split <;> omega

theorem nonce_lt : b.nonce thread < quint32Modulus := Nat.mod_lt _ (by decide)

theorem nonce_inj {other : Nat} (h : thread < b.hashed) (hother : other < b.hashed)
    (heq : b.nonce thread = b.nonce other) : thread = other := by
  have hle := b.hashed_le
  unfold nonce quint32Modulus at heq
  omega

theorem rc_iff : b.rc thread = true ↔ b.Meets thread := by
  have hwords : ∀ i < 7, hashWord (b.hash (b.nonce thread)) i ≤ targetWord b.job.target i := by
    intro i hi
    rw [targetWord, if_neg (by omega)]
    exact Nat.le_of_lt_succ (arrayToQuint32_lt _)
  rw [rc, cryptonight_extra_gpu_final_iff hwords]
  exact Iff.rfl

theorem report_none : b.report 0xffffffff = ⟨b.m_throughput.toNat, []⟩ := if_neg (by decide)

/-- A nonce that the host has read is a share, and the hashes are counted up to it. -/
theorem report_hit (hthread : thread < b.hashed) (hmeets : b.Meets thread)
    (hfound : b.nonce thread < 0xffffffff) :
    b.report (b.nonce thread) = ⟨thread + 1, [b.share thread]⟩ := by
  have hle := b.hashed_le
  have hstart := b.startNonce.toNat_lt
  have hcount : (b.nonce thread + quint32Modulus - b.startNonce.toNat + 1) % quint32Modulus =
      thread + 1 := by
    unfold nonce quint32Modulus
    omega
  have hcheck : checkCryptonote (fun _ => b.hash (b.nonce thread)) b.job (b.nonce thread) =
      some (b.hash (b.nonce thread)) := if_pos hmeets
  rw [report, if_pos hfound, hcount, hcheck]
  rfl

/-- The loop posts the share of the nonce that it has read, as it stands in its job. -/
theorem search_step {l : CryptonoteCuda} {slowHash : QByteArray → QByteArray} {sh : Shared}
    {inp : Input} {foundNonce : Nat} (hpc : l.pc = .search) (hjob : l.job = b.job)
    (hhash : ∀ nonce, b.hash nonce = slowHash (setNonce b.job.blob nonce))
    (hfound : inp.found = some foundNonce) :
    (l.step slowHash sh inp).map (·.action) =
      some (((b.report foundNonce).shares.head?.map Action.postEvent).getD .none) := by
  have hcheck : checkCryptonote slowHash l.job foundNonce =
      checkCryptonote (fun _ => b.hash foundNonce) b.job foundNonce := by
    simp only [checkCryptonote, hjob, hhash]
  simp only [CryptonoteCuda.step, hpc, Input.checked, hfound, Option.bind_some, hcheck, report]
  by_cases hlt : foundNonce < 0xffffffff
  · rw [if_pos hlt, if_pos hlt]
    cases checkCryptonote (fun _ => b.hash foundNonce) b.job foundNonce with
    | none => rfl
    | some hash =>
      simp only [Option.map_some, hjob]
      rfl
  · rw [if_neg hlt, if_neg hlt]
    rfl

/-- What the host has read when the kernel is done: no thread wrote, or the nonce of one that did.
-/
theorem cell_cases {es : List (Event Nat)} {t : Race Nat Nat}
    (hrun : exec (RacingMinimum.step b.nonce) b.launched es = some t) (hover : t.Over) :
    (t.cell = 0xffffffff ∧ ∀ thread < b.hashed, b.Meets thread → b.nonce thread = 0xffffffff) ∨
      ∃ thread < b.hashed, b.Meets thread ∧ b.nonce thread < 0xffffffff ∧
        t.cell = b.nonce thread := by
  rcases cell_of_over hrun hover with ⟨hcell, hnone⟩ | ⟨i, ⟨hi, hrc⟩, hlt, hcell⟩
  · refine Or.inl ⟨hcell, fun i hi hmeets => ?_⟩
    have hnot := hnone i ⟨hi, rc_iff.mpr hmeets⟩
    have hlt : b.nonce i < 4294967296 := nonce_lt
    omega
  · exact Or.inr ⟨i, hi, rc_iff.mp hrc, hlt, hcell⟩

theorem exists_over_launched : ∃ es t,
    exec (RacingMinimum.step b.nonce) b.launched es = some t ∧ t.Over := by
  apply exists_over ((List.range b.hashed).filter fun thread => b.rc thread)
  · exact List.nodup_range.filter _
  · intro i
    simp [Writes]

/-- The kernels run all threads, and no nonce of the batch meets the target, or that of the last
thread alone and it is not the one that stands for none. -/
structure AtMostLast (b : CudaBatch) : Prop where
  fits : b.m_throughput.toNat ≤ 2147483520
  last : (∀ thread < b.m_throughput.toNat, ¬ b.Meets thread) ∨
    0 < b.m_throughput.toNat ∧ b.nonce (b.m_throughput.toNat - 1) ≠ 0xffffffff ∧
      ∀ thread < b.m_throughput.toNat, b.Meets thread ↔ thread + 1 = b.m_throughput.toNat

theorem ReportsAll.atMostLast (h : b.ReportsAll) : b.AtMostLast := by
  obtain ⟨es, t, hrun, hover⟩ := b.exists_over_launched
  obtain ⟨hshares, hcount⟩ := h es t hrun hover
  have hhashed : b.hashed = _ := hashed_eq
  rcases cell_cases hrun hover with ⟨hcell, hnone⟩ | ⟨i, hi, hmeets, hlt, hcell⟩
  · rw [hcell, report_none] at hshares hcount
    simp only at hcount
    have hfits : b.m_throughput.toNat ≤ 2147483520 := by
      have hle := b.hashed_le
      omega
    refine ⟨hfits, Or.inl fun i hi hmeets => ?_⟩
    have hshare := hshares i (hcount ▸ hi) hmeets
    cases hshare
  · rw [hcell, report_hit hi hmeets hlt] at hshares hcount
    simp only at hcount
    have hfits : b.hashed = b.m_throughput.toNat := by
      rw [hhashed] at hi ⊢
      split at hi
      case isTrue hle => rw [if_pos hle]
      case isFalse => omega
    have hle := b.hashed_le
    have hlast : b.m_throughput.toNat - 1 = i := by omega
    refine ⟨by omega, Or.inr ⟨by omega, ?_, fun j hj => ⟨fun hj' => ?_, fun hj' => ?_⟩⟩⟩
    · rw [hlast]
      omega
    · have hshare := List.mem_singleton.mp (hshares j (by omega) hj')
      have hnonce : b.nonce j = b.nonce i := congrArg ShareEvent.nonce hshare
      have hji := nonce_inj (by omega) hi hnonce
      omega
    · have hji : j = i := by omega
      rw [hji]
      exact hmeets

theorem AtMostLast.reportsAll (h : b.AtMostLast) : b.ReportsAll := by
  have hhashed : b.hashed = b.m_throughput.toNat := by rw [hashed_eq, if_pos h.fits]
  intro es t hrun hover
  rcases cell_cases hrun hover with ⟨hcell, hnone⟩ | ⟨i, hi, hmeets, hlt, hcell⟩
  · have hno : ∀ i < b.m_throughput.toNat, ¬ b.Meets i := by
      rcases h.last with hno | ⟨hpos, hne, hlast⟩
      · exact hno
      · have hmeets := (hlast (b.m_throughput.toNat - 1) (by omega)).mpr (by omega)
        exact absurd (hnone _ (by omega) hmeets) hne
    rw [hcell, report_none]
    exact ⟨fun i hi hmeets => absurd hmeets (hno i (hhashed ▸ hi)), hhashed.symm⟩
  · rw [hhashed] at hi
    have hlast : ∀ j < b.m_throughput.toNat, b.Meets j ↔ j + 1 = b.m_throughput.toNat := by
      rcases h.last with hno | ⟨-, -, hlast⟩
      · exact absurd hmeets (hno i hi)
      · exact hlast
    have hi' := (hlast i hi).mp hmeets
    rw [hcell, report_hit (by omega) hmeets hlt]
    refine ⟨fun j hj hj' => ?_, by rw [hhashed, hi']⟩
    have hji : j = i := by
      have := (hlast j (by omega)).mp hj'
      omega
    rw [hji]
    exact List.mem_singleton_self _

/-- All shares of a batch are reported and its hashes counted, in whatever order the threads store,
exactly when at most its last nonce meets the target. -/
theorem reportsAll_iff (b : CudaBatch) : b.ReportsAll ↔ b.AtMostLast :=
  ⟨ReportsAll.atMostLast, AtMostLast.reportsAll⟩

/-- The nonces 0 and 1 both meet the target. -/
def twoShares : CudaBatch :=
  ⟨⟨[1], .replicate 76 0, [0, 0, 0, 128]⟩, fun _ => .replicate 32 0, 0, 2⟩

theorem second_share_is_lost : ¬ ∀ b : CudaBatch, b.ReportsAll := by
  intro h
  have hlast := (h twoShares).atMostLast.last
  revert hlast
  decide +kernel

end CudaBatch
end MinerGate
