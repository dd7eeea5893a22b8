import MinerGate.Lib.Stutter
import MinerGate.Miner.GpuWorker

/-!
# The batches a loop searches

One call of a miner's `start`, or of a CPU worker's `startMining`, with the nonce variables
of the loop and what it has copied to its device. Each launch is noted with the values it
gets. The main thread stores jobs and states in between; `Mining` is stored by the loop
alone.
-/

namespace MinerGate

set_option autoImplicit false

open Transition

/-- The loops that launch one batch for each range they reserve. -/
inductive BatchLoop where
  | cpu (l : CpuLoop)
  | cryptonoteCuda (l : CryptonoteCuda)
  | cryptonoteOcl (l : CryptonoteOcl)
  | ethOcl (l : EthOcl)
deriving DecidableEq, Repr

/-- A call of `nextNonce`: the value it returned and the amount. -/
structure Reserved where
  last : Nat
  amount : Nat
deriving DecidableEq, Repr

/-- `job` is the job whose blob and target the device has, without the nonce. -/
structure Launch where
  fee : Bool
  job : Option MiningJob
  startNonce : Nat
  threads : Nat
  reserved : Option Reserved
deriving DecidableEq, Repr

/-- The variables of a loop, those of the fee job under `true`, and what is on its device. The last
four fields are history: whether the CUDA loop's last look at the state in a wait let it wait on,
the job last copied since the loop last had to update, the last call of `nextNonce` for a kind of
job since its last launch, and the launches, newest first. -/
structure Batches where
  threads : Nat
  finishNonce : Bool → Nat
  startNonce : Bool → Nat
  device : Option MiningJob
  waited : Bool
  mainJob : Option MiningJob
  reserved : Bool → Option Reserved
  launches : List Launch

/-- `finishNonce - threads + 1` in words of the given size. -/
def firstNonce (size finishNonce threads : Nat) : Nat :=
  (finishNonce + size - threads % size + 1) % size

namespace Batches

def new (threads : Nat) : Batches :=
  ⟨threads, fun _ => 0, fun _ => 0, none, true, none, fun _ => none, []⟩

def reserve (b : Batches) (fee : Bool) (size : Nat) (ctl : NonceCtl) : Batches :=
  let last := (ctl.nextNonce b.threads).2
  { b with
    finishNonce := Function.update b.finishNonce fee (last % size)
    reserved := Function.update b.reserved fee (some ⟨last, b.threads⟩) }

def setStart (b : Batches) (fee : Bool) (size : Nat) : Batches :=
  { b with
    startNonce := Function.update b.startNonce fee
      (firstNonce size (b.finishNonce fee) b.threads) }

/-- The start of a range that was not reserved. -/
def setUnreserved (b : Batches) (fee : Bool) (size uninitialized : Nat) : Batches :=
  { b with
    startNonce := Function.update b.startNonce fee (firstNonce size uninitialized b.threads) }

/-- A job is copied to the device, or the copy fails and nobody knows what the device has. -/
def upload (b : Batches) (outcome : Outcome) (job : MiningJob) : Batches :=
  { b with device := if outcome = .ok then some (job.setNonce 0) else none }

/-- As `upload`; after an error the device is set up anew, perhaps with other threads. -/
def uploadOrReinit (b : Batches) (inp : Input) (job : MiningJob) : Batches :=
  if inp.outcome = .fail then { b with device := none, threads := inp.threads.toNat }
  else b.upload inp.outcome job

def launch (b : Batches) (fee : Bool) : Batches :=
  { b with
    reserved := Function.update b.reserved fee none
    launches := ⟨fee, b.device, b.startNonce fee, b.threads, b.reserved fee⟩ :: b.launches }

def ofMain (b : Batches) : List Launch := b.launches.filter (!·.fee)

end Batches

section Notes
variable (sh : Shared) (inp : Input) (b : Batches)

/-- A step of the CPU loop that reserves a range begins to search it. -/
def CpuLoop.note (search : Search) (l : CpuLoop) : Batches :=
  let begin (fee : Bool) : Batches :=
    let last := ((sh.nonceCtl fee).nextNonce NONCE_INTERVAL).2
    { b with
      launches := ⟨fee, some (l.m_currentJob.setNonce 0),
        (last - NONCE_INTERVAL) % search.modulus, NONCE_INTERVAL,
        some ⟨last, NONCE_INTERVAL⟩⟩ :: b.launches }
  match l.pc with
  | .reserveFee _ => begin true
  | .reserve => begin false
  | _ => b

def CryptonoteCuda.note (l : CryptonoteCuda) : Batches :=
  match l.pc with
  | .copyJob => { b with waited := true }
  | .firstStopped => { b with waited := !sh.m_state.stops }
  | .firstReserve | .nextReserve => b.reserve false quint32Modulus (sh.nonceCtl false)
  | .firstDone | .nextDone => if sh.m_state.stops then b else b.setStart false quint32Modulus
  | .copyDevice => b.upload inp.outcome l.job
  | .feeLoop _ => { b with waited := sh.m_state = .Mining }
  | .feeReserve _ => b.reserve true quint32Modulus (sh.nonceCtl true)
  | .feeDone _ => if sh.m_state.stops then b else b.setStart true quint32Modulus
  | .feeDevice feeJob => b.uploadOrReinit inp feeJob
  | .feeSearch _ => (b.launch true).uploadOrReinit inp l.job
  | .search => b.launch false
  | _ => b

def CryptonoteOcl.note (l : CryptonoteOcl) : Batches :=
  match l.pc with
  | .checkEmpty => if sh.m_job.job_id = [] then b else { b with mainJob := none }
  | .copyJob => { b with mainJob := some sh.m_job }
  | .setKernelArgs => if l.job.blob = [] then b else b.upload inp.outcome l.job
  | .findShares => { b with threads := inp.threads.toNat }
  | .findLoop =>
    if sh.m_state = .Mining then b
    else b.setUnreserved l.isFee nonceModulus inp.uninitialized
  | .findReserve =>
    (b.reserve l.isFee nonceModulus (sh.nonceCtl l.isFee)).setStart l.isFee nonceModulus
  | .kernels => b.launch l.isFee
  | _ => b

def EthOcl.note (l : EthOcl) : Batches :=
  match l.pc with
  | .prepare => b.upload inp.outcome l.job
  | .switch => if sh.m_state = .Mining then { b with threads := inp.threads.toNat } else b
  | .findLoop =>
    if sh.m_state = .Mining then b else b.setUnreserved false nonceModulus inp.uninitialized
  | .findReserve => (b.reserve false nonceModulus (sh.nonceCtl false)).setStart false nonceModulus
  | .kernel => b.launch false
  | _ => b

end Notes

namespace BatchLoop

def step (backend : Backend) (sh : Shared) (inp : Input) : BatchLoop → Option (Result BatchLoop)
  | cpu l => (l.step backend.search sh inp).map (.map .cpu)
  | cryptonoteCuda l => (l.step backend.hashing.slowHash sh inp).map (.map .cryptonoteCuda)
  | cryptonoteOcl l => (l.step backend.hashing.slowHash sh inp).map (.map .cryptonoteOcl)
  | ethOcl l => (l.step backend.hashing.ethEval sh inp).map (.map .ethOcl)

def note (backend : Backend) (sh : Shared) (inp : Input) (b : Batches) : BatchLoop → Batches
  | cpu l => l.note sh b backend.search
  | cryptonoteCuda l => l.note sh inp b
  | cryptonoteOcl l => l.note sh inp b
  | ethOcl l => l.note sh inp b

/-- The loop when it begins. -/
def IsNew : BatchLoop → Prop
  | cpu l => l.pc = .entry
  | cryptonoteCuda l => l = .new
  | cryptonoteOcl l => l = .new
  | ethOcl l => l = .new

def isGpu : BatchLoop → Bool
  | cpu _ => false
  | _ => true

/-- The number of values of the variable for the start nonce. -/
def nonceSize : BatchLoop → Nat
  | cryptonoteCuda _ => quint32Modulus
  | _ => nonceModulus

end BatchLoop

/-- A worker with the loop that runs on its thread. -/
structure Session where
  worker : Worker
  loop : BatchLoop
  batches : Batches

namespace Session

inductive Event where
  | store (m_state : MinerThreadState)
  | storeJob (job : MiningJob)
  | storeFeeJob (job : MiningJob)
  | loop (nonceCtl nonceFeeCtl : NonceCtl) (inp : Input)
deriving DecidableEq, Repr

def setState (s : Session) (m_state : MinerThreadState) : Session :=
  { s with worker := { s.worker with m_state := m_state } }

def shared (backend : Backend) (s : Session) (nonceCtl nonceFeeCtl : NonceCtl) : Shared :=
  { s.worker with
    m_fee := backend.m_fee
    nonceCtl := fun fee => if fee then nonceFeeCtl else nonceCtl }

/-- The step of a loop, given what its step is. -/
def runLoop (backend : Backend)
    (loopStep : Shared → Input → BatchLoop → Option (Result BatchLoop)) (s : Session)
    (sh : Shared) (inp : Input) : Option Session :=
  (loopStep sh inp s.loop).map fun r =>
    { s.setState r.m_state with
      loop := r.loop
      batches := s.loop.note backend sh inp s.batches }

def stepWith (backend : Backend)
    (loopStep : Shared → Input → BatchLoop → Option (Result BatchLoop)) (s : Session) :
    Event → Option Session
  | .store m_state => if m_state = .Mining then none else some (s.setState m_state)
  | .storeJob job => some { s with worker := { s.worker with m_job := job } }
  | .storeFeeJob job => some { s with worker := { s.worker with m_feeJob := job } }
  | .loop nonceCtl nonceFeeCtl inp =>
    s.runLoop backend loopStep (s.shared backend nonceCtl nonceFeeCtl) inp

def step (backend : Backend) : Session → Event → Option Session :=
  stepWith backend (BatchLoop.step backend)

/-- The call begins, with the number of threads the device was set up for. -/
structure Initial (s : Session) : Prop where
  loop : s.loop.IsNew
  state : s.worker.m_state ≠ .Mining
  batches : ∃ threads, s.batches = .new threads

variable {backend : Backend} {loopStep : Shared → Input → BatchLoop → Option (Result BatchLoop)}
  {s t : Session} {nonceCtl nonceFeeCtl : NonceCtl} {inp : Input}

theorem stepWith_loop (h : stepWith backend loopStep s (.loop nonceCtl nonceFeeCtl inp) = some t) :
    ∃ r, loopStep (s.shared backend nonceCtl nonceFeeCtl) inp s.loop = some r ∧
      t = ⟨{ s.worker with m_state := r.m_state }, r.loop,
        s.loop.note backend (s.shared backend nonceCtl nonceFeeCtl) inp s.batches⟩ := by
  obtain ⟨r, hr, rfl⟩ := Option.map_eq_some_iff.mp h
  exact ⟨r, hr, rfl⟩

/-- The main thread changes neither the loop nor its variables, and stores no `Mining`. -/
theorem stepWith_store {e : Event} (he : ∀ c d i, e ≠ .loop c d i)
    (h : stepWith backend loopStep s e = some t) :
    t.loop = s.loop ∧ t.batches = s.batches ∧
      (t.worker.m_state = .Mining → s.worker.m_state = .Mining) := by
  cases e with
  | store m_state =>
    obtain ⟨hm, h⟩ := Option.ite_none_left_eq_some.mp h
    cases h
    exact ⟨rfl, rfl, fun hmining => absurd hmining hm⟩
  | storeJob job | storeFeeJob job =>
    cases h
    exact ⟨rfl, rfl, id⟩
  | loop c d i => exact absurd rfl (he c d i)

end Session
end MinerGate
