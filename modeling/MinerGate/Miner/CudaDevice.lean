import MinerGate.Lib.Transition
import MinerGate.Miner.CudaAllocation
import MinerGate.Miner.DeviceHash

/-!
# The device of a CryptoNight CUDA miner

The buffers are allocated when `start` begins and again after an error in the fee branch, which goes
on in the state `Mining`. Jobs are copied to the device while a new job is taken and after each fee
batch.
-/

namespace MinerGate

set_option autoImplicit false

open Transition

/-- What one `init` reads of the parameters and of the card, and how its calls end. -/
structure InitInput where
  m_deviceParams : DeviceParams
  devProps : CudaDeviceProps
  calls : InitCalls

namespace InitInput

def threads (i : InitInput) : UInt32 := CudaAllocation.threadCount i.m_deviceParams

def blocks (i : InitInput) : Option UInt32 := CudaAllocation.blockCount i.m_deviceParams i.devProps

/-- As many rounds as the loop of `init` can take. -/
def rounds (i : InitInput) : Nat := (i.blocks.map CudaAllocation.firstBlocks).getD 0

/-- They are enough for the loop to end. -/
theorem init_ne_running (i : InitInput) (m : CudaAllocation.Miner) :
    CudaAllocation.init i.m_deviceParams i.devProps i.calls i.rounds m ≠ .running := by
  intro h
  simp only [CudaAllocation.init] at h
  split at h
  · cases h
  · split at h
    case h_1 => cases h
    case h_2 blocks hblocks =>
      have hrounds : i.rounds = CudaAllocation.firstBlocks blocks := by
        rw [rounds, InitInput.blocks, hblocks, Option.map_some, Option.getD_some]
      rw [hrounds, CudaAllocation.run_firstBlocks] at h
      split at h
      · cases h
      · split at h
        · cases h
        · simp only [CudaAllocation.ended] at h
          split at h <;> cases h

end InitInput

namespace CryptonoteCudaDevice

/-- All buffers are freed. -/
def free (d : CryptonoteCudaDevice) : CryptonoteCudaDevice :=
  { d with
    m_ctx := none, m_long_state := none, m_cuda_input := none, m_cuda_target := none
    m_cuda_nonce := none }

/-- The buffers are freed and `init` is called; nobody looks at its result. -/
def reinit (d : CryptonoteCudaDevice) (i : InitInput) : CryptonoteCudaDevice :=
  match CudaAllocation.init i.m_deviceParams i.devProps i.calls i.rounds ⟨d.free, .NoError⟩ with
  | .returned _ _ m => m.device
  | _ => d.free

end CryptonoteCudaDevice

/-- How the two copies of a job to the device end, and whether `cudaGetLastError` has an error
then. -/
structure CopyCalls where
  input : Bool
  target : Bool
  lastError : Bool
deriving DecidableEq, Repr

/-- After an error that `cudaGetLastError` does not have, the loop goes on as if there was none. -/
def CopyCalls.failed (c : CopyCalls) : Outcome := if c.lastError then .fail else .retry

theorem CopyCalls.failed_ne_ok (c : CopyCalls) : c.failed ≠ .ok := by
  unfold failed
  split <;> decide

namespace CryptonoteCudaDevice

/-- The second copy is made when the first one succeeds; one to a null pointer fails. -/
def copyJob (d : CryptonoteCudaDevice) (c : CopyCalls) (job : MiningJob) :
    CryptonoteCudaDevice × Outcome :=
  if d.m_cuda_input.isSome ∧ c.input then
    let d := { d with m_cuda_input := some (some ((setNonce job.blob 0).take inputSize)) }
    if d.m_cuda_target.isSome ∧ c.target then
      ({ d with m_cuda_target := some (some (arrayToQuint32 job.target)) }, .ok)
    else ({ d with m_cuda_target := d.m_cuda_target.map fun _ => none }, c.failed)
  else ({ d with m_cuda_input := d.m_cuda_input.map fun _ => none }, c.failed)

end CryptonoteCudaDevice

/-- What one step of the loop takes from outside. -/
structure CudaInput where
  lucky : Bool
  found : Option Nat
  copy : CopyCalls
  init : InitInput

/-- A call of `start`: the worker, the loop, the device, the throughputs with which the range of the
main job was reserved and its start computed, and whether a copy has failed in the fee branch since
the loop last took a job. -/
structure CudaSession where
  worker : Worker
  loop : CryptonoteCuda
  device : CryptonoteCudaDevice
  reserved : Option UInt32
  range : Option (UInt32 × UInt32)
  failed : Bool

namespace CudaSession

/-- The main thread stores a job and `UpdateJob`, or `Stopping`; the loop takes a step. -/
inductive Event where
  | storeJob (job : MiningJob)
  | storeFeeJob (job : MiningJob)
  | updateJob
  | stop
  | loop (nonceCtl nonceFeeCtl : NonceCtl) (inp : CudaInput)

/-- The device after the step of the loop, and the outcome of its copies. -/
def deviceStep (s : CudaSession) (inp : CudaInput) : CryptonoteCudaDevice × Outcome :=
  let orReinit (p : CryptonoteCudaDevice × Outcome) : CryptonoteCudaDevice × Outcome :=
    if p.2 = .fail then (p.1.reinit inp.init, p.2) else p
  match s.loop.pc with
  | .copyDevice => s.device.copyJob inp.copy s.loop.job
  | .feeDevice feeJob => orReinit (s.device.copyJob inp.copy feeJob)
  | .feeSearch _ => orReinit (s.device.copyJob inp.copy s.loop.job)
  | _ => (s.device, .ok)

def shared (s : CudaSession) (m_fee : Bool) (nonceCtl nonceFeeCtl : NonceCtl) : Shared :=
  { s.worker with
    m_fee := m_fee
    nonceCtl := fun fee => if fee then nonceFeeCtl else nonceCtl }

def setState (s : CudaSession) (m_state : MinerThreadState) : CudaSession :=
  { s with worker := { s.worker with m_state := m_state } }

def reservedStep (s : CudaSession) : Option UInt32 :=
  match s.loop.pc with
  | .firstReserve | .nextReserve => some s.device.m_throughput
  | _ => s.reserved

def rangeStep (s : CudaSession) : Option (UInt32 × UInt32) :=
  match s.loop.pc with
  | .firstDone | .nextDone =>
    if s.worker.m_state.stops then s.range
    else s.reserved.map fun amount => (amount, s.device.m_throughput)
  | _ => s.range

def failedStep (s : CudaSession) (outcome : Outcome) : Bool :=
  match s.loop.pc with
  | .copyDevice => if outcome = .ok then false else s.failed
  | .feeDevice _ | .feeSearch _ => if outcome = .ok then s.failed else true
  | _ => s.failed

variable (slowHash : QByteArray → QByteArray) (m_fee : Bool)

def step (s : CudaSession) : Event → Option CudaSession
  | .storeJob job => some { s with worker := { s.worker with m_job := job } }
  | .storeFeeJob job => some { s with worker := { s.worker with m_feeJob := job } }
  | .updateJob => if s.worker.m_state.stops then none else some (s.setState .UpdateJob)
  | .stop => some (s.setState .Stopping)
  | .loop nonceCtl nonceFeeCtl inp =>
    let p := s.deviceStep inp
    (s.loop.step slowHash (s.shared m_fee nonceCtl nonceFeeCtl)
      { lucky := inp.lucky, outcome := p.2, threads := s.device.m_throughput, found := inp.found
        uninitialized := 0 }).map fun r =>
      { worker := { s.worker with m_state := r.m_state }
        loop := r.loop
        device := p.1
        reserved := s.reservedStep
        range := s.rangeStep
        failed := s.failedStep p.2 }

/-- The buffers have the bytes that the threads of a launch use, the device has the job of the loop
and its target, and the range was reserved and begun with as many nonces as there are threads. -/
structure Consistent (s : CudaSession) : Prop where
  ctx : ∃ bytes ∈ s.device.m_ctx, sizeofCtx * s.device.m_throughput.toNat ≤ bytes
  long_state : ∃ bytes ∈ s.device.m_long_state, MEMORY * s.device.m_throughput.toNat ≤ bytes
  nonce : s.device.m_cuda_nonce = some ()
  input : s.device.m_cuda_input =
    some (some ((setNonce s.loop.job.blob 0).take inputSize))
  target : s.device.m_cuda_target = some (some (arrayToQuint32 s.loop.job.target))
  range : s.range = some (s.device.m_throughput, s.device.m_throughput)

/-- The next step of the loop launches a batch for the main job. -/
def Launches (s : CudaSession) : Event → Prop
  | .loop .. => s.loop.pc = .search
  | _ => False

end CudaSession

/-- The grid and block sizes of an `init` are not zero and make a product that has 32 bits. -/
def InitInput.Bounded (i : InitInput) : Prop :=
  ∃ blocks ∈ i.blocks, 0 < blocks.toNat ∧ i.threads.toNat * blocks.toNat < quint32Modulus

instance InitInput.decidableBounded (i : InitInput) : Decidable i.Bounded :=
  inferInstanceAs (Decidable (∃ blocks ∈ i.blocks,
    0 < blocks.toNat ∧ i.threads.toNat * blocks.toNat < quint32Modulus))

namespace CudaSession

/-- No copy of the fee branch has failed when the loop goes on to mine, a launch has less than 2048
threads, and the sizes for a new `init` are bounded. -/
def Guard (s : CudaSession) : Event → Prop
  | .loop _ _ inp =>
    (s.loop.pc = .switch → s.worker.m_state = .Mining → s.failed = false) ∧
      (s.loop.pc = .search → s.device.m_throughput.toNat < 2048) ∧ inp.init.Bounded
  | _ => True

instance decidableGuard (s : CudaSession) : ∀ e, Decidable (s.Guard e)
  | .loop _ _ inp =>
    inferInstanceAs (Decidable ((s.loop.pc = .switch → s.worker.m_state = .Mining →
      s.failed = false) ∧ (s.loop.pc = .search → s.device.m_throughput.toNat < 2048) ∧
      inp.init.Bounded))
  | .storeJob _ | .storeFeeJob _ | .updateJob | .stop => .isTrue trivial

/-- The call begins in a worker that has just stored `UpdateJob`. -/
structure Initial (s : CudaSession) : Prop where
  loop : s.loop = .new
  state : s.worker.m_state ≠ .Mining
  device : ∃ (d : CryptonoteCudaDevice) (i : InitInput), i.Bounded ∧ s.device = d.reinit i

end CudaSession

namespace CryptonoteCudaDevice

/-- All buffers are there, of the sizes that `init` has asked for. -/
structure Allocated (d : CryptonoteCudaDevice) : Prop where
  ctx : ∃ bytes ∈ d.m_ctx, sizeofCtx * d.m_throughput.toNat ≤ bytes
  long_state : d.m_long_state = some (longStateSize d.m_throughput)
  nonce : d.m_cuda_nonce = some ()

/-- The device has all buffers if it has the one for the input. -/
def Whole (d : CryptonoteCudaDevice) : Prop := d.m_cuda_input.isSome → d.Allocated

variable {d : CryptonoteCudaDevice} {i : InitInput} {job : MiningJob} {calls : CopyCalls}

theorem whole_reinit (hi : i.Bounded) : (d.reinit i).Whole := by
  obtain ⟨blocks, hblocks, hpos, hlt⟩ := hi
  intro hinput
  rw [reinit] at hinput ⊢
  split at hinput
  case h_1 result refused m hinit =>
    obtain ⟨first, hfirst, granted, hgranted, hthroughput, hctx, hlong, hnonce⟩ :=
      CudaAllocation.allocated_of_input rfl hinit hinput
    cases Option.mem_unique hblocks hfirst
    have hle := CudaAllocation.throughput_le hpos hlt hgranted
    rw [← hthroughput] at hlong
    rw [InitInput.threads, ← hthroughput] at hle
    exact ⟨⟨_, hctx, Nat.mul_le_mul_left _ hle⟩, hlong, hnonce⟩
  case h_2 => cases hinput

/-- The device has the job and its target. -/
structure Holds (d : CryptonoteCudaDevice) (job : MiningJob) : Prop where
  input : d.m_cuda_input = some (some ((setNonce job.blob 0).take inputSize))
  target : d.m_cuda_target = some (some (arrayToQuint32 job.target))

theorem Holds.setNonce (h : d.Holds job) (nonce : Nat) : d.Holds (job.setNonce nonce) := by
  constructor
  · rw [MiningJob.setNonce, setNonce_setNonce]
    exact h.input
  · exact h.target

@[simp] theorem copyJob_throughput : (d.copyJob calls job).1.m_throughput = d.m_throughput := by
  simp only [copyJob]
  split_ifs <;> rfl

theorem Whole.copyJob (h : d.Whole) : (d.copyJob calls job).1.Whole := by
  have hsame : ∀ u : CryptonoteCudaDevice, u.m_throughput = d.m_throughput → u.m_ctx = d.m_ctx →
      u.m_long_state = d.m_long_state → u.m_cuda_nonce = d.m_cuda_nonce →
      d.m_cuda_input.isSome → u.Allocated := by
    intro u hthroughput hctx hlong hnonce hinput
    have halloc := h hinput
    refine ⟨?_, ?_, hnonce.trans halloc.nonce⟩
    · rw [hthroughput, hctx]
      exact halloc.ctx
    · rw [hthroughput, hlong]
      exact halloc.long_state
  unfold CryptonoteCudaDevice.copyJob
  simp only
  split_ifs with hinput htarget
  · exact fun _ => hsame _ rfl rfl rfl rfl hinput.1
  · exact fun _ => hsame _ rfl rfl rfl rfl hinput.1
  · intro hsome
    rw [Option.isSome_map] at hsome
    exact hsame _ rfl rfl rfl rfl hsome

theorem copyJob_ok (h : (d.copyJob calls job).2 = .ok) : (d.copyJob calls job).1.Holds job := by
  simp only [CryptonoteCudaDevice.copyJob] at h ⊢
  split_ifs at h ⊢ with hinput htarget
  · exact ⟨rfl, rfl⟩
  · exact absurd h calls.failed_ne_ok
  · exact absurd h calls.failed_ne_ok

end CryptonoteCudaDevice

namespace CudaSession
variable {s t : CudaSession} {e : Event} {es : List Event} {inp : CudaInput}
  {slowHash : QByteArray → QByteArray} {m_fee : Bool}

/-- The range is one for the threads of the device. -/
def RangeOk (range : Option (UInt32 × UInt32)) (d : CryptonoteCudaDevice) : Prop :=
  range = some (d.m_throughput, d.m_throughput)

/-- What holds where the loop stands. While it takes a job the state is not `Mining`, so that it
comes to the launches only by the copies. -/
def AtPc (s : CudaSession) : CryptonoteCudaPc → Prop
  | .switch => s.worker.m_state = .Mining → s.failed = false →
      s.device.Holds s.loop.job ∧ RangeOk s.range s.device
  | .copyJob | .firstWait | .firstStopped | .firstReserve => s.worker.m_state ≠ .Mining
  | .firstDone => s.worker.m_state ≠ .Mining ∧
      (s.worker.m_state.stops = false → s.reserved = some s.device.m_throughput)
  | .copyDevice => s.worker.m_state ≠ .Mining ∧ RangeOk s.range s.device
  | .copied => s.worker.m_state ≠ .Mining ∧ s.device.Holds s.loop.job ∧ RangeOk s.range s.device
  | .setMining | .draw | .copyFeeJob | .feeLoop _ | .feeWait _ | .feeReserve _ | .feeDone _
  | .feeDevice _ | .search => s.device.Holds s.loop.job ∧ RangeOk s.range s.device
  | .feeSearch _ => RangeOk s.range s.device
  | .nextLoop | .nextWait | .nextReserve => s.device.Holds s.loop.job
  | .nextDone => s.device.Holds s.loop.job ∧
      (s.worker.m_state = .Mining → s.reserved = some s.device.m_throughput)
  | .returned => True

structure Inv (s : CudaSession) : Prop where
  whole : s.device.Whole
  atPc : s.AtPc s.loop.pc

theorem Initial.inv (h : s.Initial) : s.Inv := by
  obtain ⟨d, c, hc, hdevice⟩ := h.device
  constructor
  · rw [hdevice]
    exact CryptonoteCudaDevice.whole_reinit hc
  · rw [h.loop]
    exact fun hmining => absurd hmining h.state

/-- What the main thread does leaves the loop and the device alone, and brings no state back to
`Mining`. -/
theorem AtPc.of_state {pc : CryptonoteCudaPc} {w : Worker} (h : s.AtPc pc)
    (hmining : w.m_state = .Mining → s.worker.m_state = .Mining)
    (hstops : w.m_state.stops = false → s.worker.m_state.stops = false) :
    AtPc { s with worker := w } pc := by
  cases pc with
  | switch => exact fun hm => h (hmining hm)
  | copyJob | firstWait | firstStopped | firstReserve => exact fun hm => h (hmining hm)
  | firstDone => exact ⟨fun hm => h.1 (hmining hm), fun hs => h.2 (hstops hs)⟩
  | copyDevice => exact ⟨fun hm => h.1 (hmining hm), h.2⟩
  | copied => exact ⟨fun hm => h.1 (hmining hm), h.2⟩
  | nextDone => exact ⟨h.1, fun hm => h.2 (hmining hm)⟩
  | _ => exact h

theorem whole_deviceStep (hs : s.device.Whole) (hc : inp.init.Bounded) :
    (s.deviceStep inp).1.Whole := by
  unfold deviceStep
  simp only
  split
  · exact hs.copyJob
  · split
    · exact CryptonoteCudaDevice.whole_reinit hc
    · exact hs.copyJob
  · split
    · exact CryptonoteCudaDevice.whole_reinit hc
    · exact hs.copyJob
  · exact hs

/-- The step of the loop and what it makes of the device. -/
theorem step_loop {nonceCtl nonceFeeCtl : NonceCtl}
    (h : s.step slowHash m_fee (.loop nonceCtl nonceFeeCtl inp) = some t) :
    ∃ r, s.loop.step slowHash (s.shared m_fee nonceCtl nonceFeeCtl)
        ⟨inp.lucky, (s.deviceStep inp).2, s.device.m_throughput, inp.found, 0⟩ = some r ∧
      t = ⟨{ s.worker with m_state := r.m_state }, r.loop, (s.deviceStep inp).1, s.reservedStep,
        s.rangeStep, s.failedStep (s.deviceStep inp).2⟩ := by
  obtain ⟨r, hr, rfl⟩ := Option.map_eq_some_iff.mp h
  exact ⟨r, hr, rfl⟩

theorem deviceStep_ok (hok : (s.deviceStep inp).2 = .ok) :
    (s.deviceStep inp).1.m_throughput = s.device.m_throughput := by
  unfold deviceStep at hok ⊢
  simp only at hok ⊢
  split at hok
  case h_1 => exact CryptonoteCudaDevice.copyJob_throughput
  case h_2 | h_3 =>
    split at hok
    case isTrue hfail =>
      rw [hfail] at hok
      cases hok
    case isFalse hnot =>
      rw [if_neg hnot]
      exact CryptonoteCudaDevice.copyJob_throughput
  case h_4 => rfl

/-- After a fee batch the main job is copied to the device again. -/
theorem deviceStep_restores {feeJob : MiningJob} (hpc : s.loop.pc = .feeSearch feeJob)
    (hok : (s.deviceStep inp).2 = .ok) : (s.deviceStep inp).1.Holds s.loop.job := by
  unfold deviceStep at hok ⊢
  simp only [hpc] at hok ⊢
  split at hok
  case isTrue hfail =>
    rw [hfail] at hok
    cases hok
  case isFalse hnot =>
    rw [if_neg hnot]
    exact CryptonoteCudaDevice.copyJob_ok hok

theorem RangeOk.of_throughput {range : Option (UInt32 × UInt32)} {d d' : CryptonoteCudaDevice}
    (h : RangeOk range d) (heq : d'.m_throughput = d.m_throughput) : RangeOk range d' := by
  rw [RangeOk, heq]
  exact h

theorem range_of_reserved {m_state : MinerThreadState} {range : Option (UInt32 × UInt32)}
    {reserved : Option UInt32} {d : CryptonoteCudaDevice} (hnot : m_state.stops = false)
    (h : reserved = some d.m_throughput) :
    RangeOk (if m_state.stops then range else
      reserved.map fun amount => (amount, d.m_throughput)) d := by
  rw [RangeOk, hnot, h]
  rfl

theorem AtPc.after_fee {feeJob : MiningJob} (hpc : s.loop.pc = .feeSearch feeJob)
    (hrange : RangeOk s.range s.device) (w : Worker) :
    AtPc ⟨w, ⟨.switch, s.loop.job⟩, (s.deviceStep inp).1, s.reservedStep, s.range,
      s.failedStep (s.deviceStep inp).2⟩ .switch := by
  intro _ hfailed
  have hok : (s.deviceStep inp).2 = .ok := by
    by_contra hnot
    simp [failedStep, hpc, hnot] at hfailed
  exact ⟨deviceStep_restores hpc hok, hrange.of_throughput (deviceStep_ok hok)⟩

theorem AtPc.loop {nonceCtl nonceFeeCtl : NonceCtl} (hs : s.AtPc s.loop.pc)
    (hguard : s.Guard (.loop nonceCtl nonceFeeCtl inp))
    (h : s.step slowHash m_fee (.loop nonceCtl nonceFeeCtl inp) = some t) : t.AtPc t.loop.pc := by
  obtain ⟨r, hr, rfl⟩ := step_loop h
  obtain ⟨⟨m_state, m_job, m_feeJob⟩, ⟨pc, job⟩, device, reserved, range, failed⟩ := s
  cases pc with
  | returned => cases hr
  | switch =>
    simp only [CryptonoteCuda.step, shared] at hr
    cases m_state with
    | UpdateJob =>
      cases hr
      exact fun hm => by cases hm
    | Mining =>
      cases hr
      exact hs rfl (hguard.1 rfl rfl)
    | Exit | Stopping =>
      cases hr
      trivial
  | copyJob =>
    simp only [CryptonoteCuda.step] at hr
    split at hr
    · cases hr
      exact fun hm => absurd hm hs
    · cases hr
      exact hs
  | firstWait =>
    simp only [CryptonoteCuda.step] at hr
    split at hr <;> cases hr <;> exact hs
  | firstStopped =>
    simp only [CryptonoteCuda.step] at hr
    split at hr
    case isTrue hstops =>
      cases hr
      have hstops : m_state.stops = true := hstops
      exact ⟨hs, fun hnot => Bool.noConfusion (hstops.symm.trans hnot)⟩
    case isFalse =>
      cases hr
      exact hs
  | firstReserve =>
    cases hr
    exact ⟨hs, fun _ => rfl⟩
  | firstDone =>
    simp only [CryptonoteCuda.step] at hr
    split at hr
    case isTrue =>
      cases hr
      exact fun hm => absurd hm hs.1
    case isFalse hstops =>
      cases hr
      have hnot : m_state.stops = false := Bool.eq_false_iff.mpr hstops
      exact ⟨hs.1, range_of_reserved hnot (hs.2 hnot)⟩
  | copyDevice =>
    simp only [CryptonoteCuda.step] at hr
    split at hr
    case h_1 hok =>
      cases hr
      exact ⟨hs.1, CryptonoteCudaDevice.copyJob_ok hok, hs.2.of_throughput (deviceStep_ok hok)⟩
    case h_2 =>
      cases hr
      exact fun hm => absurd hm hs.1
    case h_3 =>
      cases hr
      trivial
  | copied =>
    simp only [CryptonoteCuda.step] at hr
    split at hr
    case isTrue =>
      cases hr
      exact fun hm => absurd hm hs.1
    case isFalse =>
      cases hr
      exact hs.2
  | setMining =>
    cases hr
    exact fun _ _ => hs
  | draw =>
    simp only [CryptonoteCuda.step] at hr
    split at hr <;> cases hr <;> exact hs
  | copyFeeJob =>
    simp only [CryptonoteCuda.step] at hr
    split at hr
    case isTrue =>
      cases hr
      exact fun _ _ => hs
    case isFalse =>
      cases hr
      exact hs
  | feeLoop feeJob | feeWait feeJob =>
    simp only [CryptonoteCuda.step] at hr
    split at hr <;> cases hr <;> exact hs
  | feeReserve feeJob =>
    cases hr
    exact hs
  | feeDone feeJob =>
    simp only [CryptonoteCuda.step] at hr
    split at hr
    case isTrue =>
      cases hr
      exact fun _ _ => hs
    case isFalse =>
      cases hr
      exact hs
  | feeDevice feeJob =>
    simp only [CryptonoteCuda.step] at hr
    split at hr
    case isTrue hok =>
      cases hr
      exact hs.2.of_throughput (deviceStep_ok hok)
    case isFalse hnot =>
      cases hr
      intro _ hfailed
      exact absurd (hfailed.symm.trans (if_neg hnot)) (by decide)
  | feeSearch feeJob =>
    simp only [CryptonoteCuda.step] at hr
    split at hr <;> cases hr <;> exact AtPc.after_fee rfl hs _
  | search =>
    simp only [CryptonoteCuda.step] at hr
    split at hr
    case h_1 nonce hash _ =>
      cases hr
      exact hs.1.setNonce nonce
    case h_2 =>
      cases hr
      exact hs.1
  | nextLoop =>
    simp only [CryptonoteCuda.step] at hr
    split at hr
    case isTrue =>
      cases hr
      exact hs
    case isFalse hnot =>
      cases hr
      exact ⟨hs, fun hm => absurd hm hnot⟩
  | nextWait =>
    simp only [CryptonoteCuda.step] at hr
    split at hr <;> cases hr <;> exact hs
  | nextReserve =>
    cases hr
    exact ⟨hs, fun _ => rfl⟩
  | nextDone =>
    cases hr
    intro hm _
    have hm : m_state = .Mining := hm
    have hnot : m_state.stops = false := by
      rw [hm]
      decide
    exact ⟨hs.1, range_of_reserved hnot (hs.2 hm)⟩

theorem Inv.loop {nonceCtl nonceFeeCtl : NonceCtl} (hs : s.Inv)
    (hguard : s.Guard (.loop nonceCtl nonceFeeCtl inp))
    (h : s.step slowHash m_fee (.loop nonceCtl nonceFeeCtl inp) = some t) : t.Inv := by
  refine ⟨?_, hs.atPc.loop hguard h⟩
  obtain ⟨r, -, rfl⟩ := step_loop h
  exact whole_deviceStep hs.whole hguard.2.2

theorem Inv.step (hs : s.Inv) (hguard : s.Guard e) (h : s.step slowHash m_fee e = some t) :
    t.Inv := by
  cases e with
  | storeJob job | storeFeeJob job =>
    cases h
    exact ⟨hs.whole, hs.atPc.of_state id id⟩
  | updateJob =>
    obtain ⟨hstops, h⟩ := Option.ite_none_left_eq_some.mp h
    cases h
    refine ⟨hs.whole, hs.atPc.of_state (fun hm => ?_) fun _ => by simpa using hstops⟩
    cases hm
  | stop =>
    cases h
    refine ⟨hs.whole, hs.atPc.of_state (fun hm => ?_) fun hm => ?_⟩
    · cases hm
    · cases hm
  | loop nonceCtl nonceFeeCtl inp => exact hs.loop hguard h

theorem Inv.consistent (hs : s.Inv) (hpc : s.loop.pc = .search)
    (hsize : s.device.m_throughput.toNat < 2048) : s.Consistent := by
  have hat := hs.atPc
  rw [hpc] at hat
  obtain ⟨hholds, hrange⟩ := hat
  have halloc := hs.whole (by rw [hholds.input]; rfl)
  refine ⟨halloc.ctx, ⟨_, halloc.long_state, ?_⟩, halloc.nonce, hholds.input, hholds.target, hrange⟩
  unfold longStateSize MEMORY quint32Modulus
  omega

/-- In a run whose steps all meet the guard, every batch for the main job is launched on a device
that has the job, with buffers and a range for its threads. -/
theorem device_consistent (slowHash : QByteArray → QByteArray) (m_fee : Bool) (s : CudaSession)
    (es : List Event) (h0 : s.Initial) (hguard : Along (step slowHash m_fee) Guard s es) :
    Along (step slowHash m_fee) (fun s e => s.Launches e → s.Consistent) s es := by
  refine Along.of_invariant (fun s e t hs hguard h => Inv.step hs hguard h) ?_ h0.inv hguard
  intro s e hs hguard hlaunch
  cases e with
  | loop nonceCtl nonceFeeCtl inp => exact hs.consistent hlaunch (hguard.2.1 hlaunch)
  | _ => cases hlaunch

/-- An `init` for two blocks of eight threads that succeeds. -/
def allReady : InitInput where
  m_deviceParams := DeviceParams.insert (fun _ => none) .BlockSize 2
  devProps := ⟨16, 5, 2⟩
  calls := ⟨true, true, true, true, fun _ => true⟩

def begun : CudaSession where
  worker := ⟨.UpdateJob, ⟨[1], [], [0, 0, 0, 128]⟩, ⟨[2], [], [0, 0, 0, 64]⟩⟩
  loop := .new
  device := (⟨0, 0, 0, none, none, none, none, none⟩ : CryptonoteCudaDevice).reinit allReady
  reserved := none
  range := none
  failed := false

/-- A step of the loop in which every copy succeeds, or none does. -/
def loopStep (lucky copies : Bool) : Event :=
  .loop .new .new ⟨lucky, none, ⟨copies, copies, true⟩, allReady⟩

/-- The steps in which the loop takes a job. -/
def takesJob : List Event := List.replicate 8 (loopStep false true)

/-- The loop goes to the fee branch and fails to copy the fee job. -/
def failsFeeCopy : List Event :=
  [loopStep true true, loopStep true true, loopStep true true, loopStep true true,
    loopStep true true, loopStep true true, loopStep true true, loopStep true false]

def launchesNext : List Event := [loopStep false true, loopStep false true]

theorem allReady_bounded : allReady.Bounded := by decide

theorem begun_initial : begun.Initial := ⟨rfl, by decide, _, allReady, allReady_bounded, rfl⟩

/-- The loop takes the job and launches it. -/
theorem device_consistent_first :
    Along (step id true) (fun s e => s.Launches e → s.Consistent) begun
        (takesJob ++ launchesNext ++ [loopStep false true]) ∧
      ∃ s, exec (step id true) begun (takesJob ++ launchesNext) = some s ∧
        s.Launches (loopStep false true) := by
  constructor
  · exact device_consistent id true begun _ begun_initial (by decide +kernel)
  · have hpc : (exec (step id true) begun (takesJob ++ launchesNext)).map
        (fun s => s.loop.pc) = some .search := by decide +kernel
    obtain ⟨s, hs, hsearch⟩ := Option.map_eq_some_iff.mp hpc
    exact ⟨s, hs, hsearch⟩

/-- After a failed copy of the fee job the main batch is launched on new buffers, in which there is
no job. -/
theorem launched_on_empty_buffers :
    ¬ ∀ (slowHash : QByteArray → QByteArray) (m_fee : Bool) (s : CudaSession) (es : List Event),
      s.Initial → Along (step slowHash m_fee) (fun s e => s.Launches e → s.Consistent) s es := by
  intro h
  have hrun := along_iff_prefix.mp
    (h id true begun (takesJob ++ failsFeeCopy ++ launchesNext ++ [loopStep false true])
      begun_initial) (takesJob ++ failsFeeCopy ++ launchesNext) (loopStep false true)
    (List.prefix_refl _)
  have hstate : (exec (step id true) begun (takesJob ++ failsFeeCopy ++ launchesNext)).map
      (fun s => (s.loop.pc, s.device.m_cuda_input)) = some (.search, some none) := by
    decide +kernel
  obtain ⟨s, hs, heq⟩ := Option.map_eq_some_iff.mp hstate
  obtain ⟨hpc, hempty⟩ := Prod.mk.inj heq
  have hinput := (hrun s hs hpc).input
  rw [hempty] at hinput
  cases hinput

end CudaSession
end MinerGate
