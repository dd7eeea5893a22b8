import Mathlib.Logic.Function.Basic
import MinerGate.Lib.Transition
import MinerGate.Miner.GpuWorker

/-!
# The miner of a coin

`AbstractMinerImpl` with its CPU and GPU workers, each on a thread of its own. A call of the
main thread is a list of statements, taken one access to a worker or to the nonce counter
at a time; the worker threads deliver queued start events and run their loops in between.
-/

namespace MinerGate

set_option autoImplicit false

inductive WorkerId where
  | cpu (i : Nat)
  | gpu (i : Nat)
deriving DecidableEq, Repr

/-- A worker with its thread: the start events in the thread's queue, whether the thread was told
to quit, and whether it has left its event loop. -/
structure WorkerThread where
  worker : Worker
  starts : Nat
  quit : Bool
  isFinished : Bool
deriving DecidableEq, Repr

def WorkerThread.new : WorkerThread := ⟨.new, 0, false, false⟩

def WorkerThread.setState (th : WorkerThread) (m_state : MinerThreadState) : WorkerThread :=
  { th with worker := { th.worker with m_state := m_state } }

/-- The statements of the calls. `checkGpuThread` and `checkRunning` return from the call when they
find a worker running; for a GPU worker `checkRunning` goes on with the second load of its test. -/
inductive Task where
  | startCpu (i : Nat)
  | setThread (i : Nat)
  | stopCpu (i : Nat)
  | startGpu (i : Nat)
  | stopGpu (i : Nat)
  | quit (id : WorkerId)
  | wait (i : Nat)
  | checkGpuThread (i : Nat)
  | checkRunning (id : WorkerId)
  | clearJob
  | setJob (job : MiningJob)
  | setFeeJob (job : MiningJob)
  | invalidate
  | updateJob (id : WorkerId)
  | restart (random : Nat)
deriving DecidableEq, Repr

/-- The accesses of a statement or of the worker methods that it calls. A test that loads the state
twice is two accesses. -/
inductive Op where
  | checkMining (id : WorkerId)
  | checkUpdateJob (id : WorkerId)
  | storeJob (id : WorkerId)
  | setUpdateJob (id : WorkerId)
  | checkFeeJob (id : WorkerId)
  | storeFeeJob (id : WorkerId)
  | start (id : WorkerId)
  | setStopping (id : WorkerId)
  | checkStopping (id : WorkerId)
deriving DecidableEq, Repr

/-- `m_startNonceIsRandom` is set for Ethereum. -/
structure MinerConfig where
  cpus : Nat
  gpus : Nat
  backend : Backend
  m_startNonceIsRandom : Bool

/-- `tasks` and `ops` are what is left of the call the main thread is in, `shares` the posted
share events, oldest first. -/
structure AbstractMinerImpl where
  m_currentJob : MiningJob
  m_feeJob : MiningJob
  nonceCtl : NonceCtl
  nonceFeeCtl : NonceCtl
  threads : WorkerId → WorkerThread
  cpuLoops : Nat → CpuLoop
  gpuLoops : Nat → GpuLoop
  tasks : List Task
  ops : List Op
  shares : List ShareEvent

inductive Call where
  | startCpu (threadCount : Nat)
  | stopCpu (sync : Bool)
  | startGpu (devices : List Nat)
  | stopGpu (devices : List Nat) (sync : Bool)
  | setThreadCount (threadCount : Nat)
  | updateJob (job : MiningJob) (random : Nat)
  | updateFeeJob (job : MiningJob)
deriving DecidableEq, Repr

def workerUpdateJob : WorkerId → List Op
  | .cpu i => [.storeJob (.cpu i), .setUpdateJob (.cpu i)]
  | .gpu i =>
    [.checkMining (.gpu i), .checkUpdateJob (.gpu i), .storeJob (.gpu i), .setUpdateJob (.gpu i)]

def workerUpdateFeeJob : WorkerId → List Op
  | .cpu i => [.storeFeeJob (.cpu i)]
  | .gpu i => [.checkFeeJob (.gpu i), .storeFeeJob (.gpu i)]

def launch (id : WorkerId) : List Op :=
  workerUpdateJob id ++ workerUpdateFeeJob id ++ [.start id]

def Call.tasks (cfg : MinerConfig) : Call → List Task
  | startCpu threadCount => (List.range threadCount).map .startCpu
  | stopCpu sync =>
    let cpus := List.range cfg.cpus
    cpus.map .stopCpu ++
      (if sync then (cpus.map fun i => .quit (.cpu i)) ++ cpus.map .wait else []) ++
        (List.range cfg.gpus).map .checkGpuThread ++ [.clearJob]
  | startGpu devices => ((List.range cfg.gpus).filter (· ∈ devices)).map .startGpu
  | stopGpu devices sync =>
    (((List.range cfg.gpus).filter (· ∈ devices)).flatMap fun i =>
        if sync then [.stopGpu i, .quit (.gpu i)] else [.stopGpu i]) ++
      ((List.range cfg.gpus).map fun i => .checkRunning (.gpu i)) ++
        ((List.range cfg.cpus).map fun i => .checkRunning (.cpu i)) ++ [.clearJob]
  | setThreadCount threadCount =>
    (List.range cfg.cpus).map fun i => if i < threadCount then .setThread i else .stopCpu i
  | updateJob job random =>
    .setJob job :: .invalidate ::
      ((List.range cfg.cpus).map fun i => .updateJob (.cpu i)) ++
        ((List.range cfg.gpus).map fun i => .updateJob (.gpu i)) ++ [.restart random]
  | updateFeeJob job => [.setFeeJob job]

/-- `startCpu` asserts that there are as many workers. -/
def Call.Allowed (cfg : MinerConfig) : Call → Prop
  | startCpu threadCount => threadCount ≤ cfg.cpus
  | _ => True

instance (cfg : MinerConfig) (c : Call) : Decidable (c.Allowed cfg) := by
  unfold Call.Allowed
  split <;> infer_instance

namespace Action

def reserved (fee : Bool) (ctl : NonceCtl) : Action → NonceCtl
  | reserve f amount => if f = fee then (ctl.nextNonce amount).1 else ctl
  | _ => ctl

def shares : Action → List ShareEvent
  | postEvent share => [share]
  | _ => []

end Action

namespace AbstractMinerImpl

def new (gpuMiners : Nat → GpuMiner) : AbstractMinerImpl where
  m_currentJob := .empty
  m_feeJob := .empty
  nonceCtl := .new
  nonceFeeCtl := .new
  threads _ := .new
  cpuLoops _ := .new
  gpuLoops i := ⟨.idle, gpuMiners i⟩
  tasks := []
  ops := []
  shares := []

def updateThread (s : AbstractMinerImpl) (id : WorkerId) (f : WorkerThread → WorkerThread) :
    AbstractMinerImpl :=
  { s with threads := Function.update s.threads id (f (s.threads id)) }

def getState (s : AbstractMinerImpl) (id : WorkerId) : MinerThreadState :=
  (s.threads id).worker.m_state

def setState (s : AbstractMinerImpl) (id : WorkerId) (m_state : MinerThreadState) :
    AbstractMinerImpl :=
  s.updateThread id (·.setState m_state)

def loop (s : AbstractMinerImpl) : WorkerId → Loop
  | .cpu i => .cpu (s.cpuLoops i)
  | .gpu i => .gpu (s.gpuLoops i)

/-- The thread's event loop is not inside `startMining`. -/
def isIdle (s : AbstractMinerImpl) : WorkerId → Bool
  | .cpu i => (s.cpuLoops i).pc = .idle
  | .gpu i => (s.gpuLoops i).pc = .idle

def restartThread (s : AbstractMinerImpl) (id : WorkerId) : AbstractMinerImpl :=
  if (s.threads id).isFinished then
    s.updateThread id ({ · with quit := false, isFinished := false })
  else s

def runTask (cfg : MinerConfig) (s : AbstractMinerImpl) : Task → Option AbstractMinerImpl
  | .startCpu i => some { s.restartThread (.cpu i) with ops := launch (.cpu i) }
  | .setThread i =>
    if s.getState (.cpu i) = .Exit then some { s with ops := launch (.cpu i) } else some s
  | .stopCpu i => some (s.setState (.cpu i) .Exit)
  | .startGpu i =>
    if s.getState (.gpu i) = .Mining then some s
    else some { s.restartThread (.gpu i) with ops := launch (.gpu i) }
  | .stopGpu i =>
    if s.getState (.gpu i) = .Exit then some s else some { s with ops := [.setStopping (.gpu i)] }
  | .quit id => some (s.updateThread id ({ · with quit := true }))
  | .wait i => if (s.threads (.cpu i)).isFinished then some s else none
  | .checkGpuThread i =>
    if s.getState (.gpu i) ≠ .Exit ∧ ¬ (s.threads (.gpu i)).isFinished then
      some { s with tasks := [] }
    else some s
  | .checkRunning (.gpu i) =>
    if s.getState (.gpu i) = .Exit then some s else some { s with ops := [.checkStopping (.gpu i)] }
  | .checkRunning (.cpu i) =>
    if s.getState (.cpu i) = .Exit then some s else some { s with tasks := [] }
  | .clearJob => some { s with m_currentJob := .empty }
  | .setJob job => some { s with m_currentJob := job }
  | .setFeeJob job => some { s with m_feeJob := job }
  | .invalidate => some { s with nonceCtl := s.nonceCtl.invalidate }
  | .updateJob id =>
    if s.getState id = .Exit then some s else some { s with ops := workerUpdateJob id }
  | .restart random =>
    let start := if cfg.m_startNonceIsRandom then some random else none
    some { s with nonceCtl := s.nonceCtl.restart start }

/-- A GPU worker that is not mining or updating leaves out the rest of `updateJob`, one that
is not mining that of `updateFeeJob`; one that is mining is not asked whether it is updating. -/
def runOp (s : AbstractMinerImpl) : Op → AbstractMinerImpl
  | .checkMining id =>
    if s.getState id = .Mining then { s with ops := s.ops.drop 1 } else s
  | .checkUpdateJob id =>
    if s.getState id = .UpdateJob then s else { s with ops := s.ops.drop 2 }
  | .storeJob id =>
    s.updateThread id fun th => { th with worker := { th.worker with m_job := s.m_currentJob } }
  | .setUpdateJob id => s.setState id .UpdateJob
  | .checkFeeJob id =>
    if s.getState id = .Mining then s else { s with ops := s.ops.drop 1 }
  | .storeFeeJob id =>
    s.updateThread id fun th => { th with worker := { th.worker with m_feeJob := s.m_feeJob } }
  | .start id => s.updateThread id fun th => { th with starts := th.starts + 1 }
  | .setStopping id => s.setState id .Stopping
  | .checkStopping id => if s.getState id = .Stopping then s else { s with tasks := [] }

def runMain (cfg : MinerConfig) (s : AbstractMinerImpl) : Option AbstractMinerImpl :=
  match s.ops, s.tasks with
  | op :: ops, _ => some ({ s with ops := ops }.runOp op)
  | [], task :: tasks => { s with tasks := tasks }.runTask cfg task
  | [], [] => none

def shared (cfg : MinerConfig) (s : AbstractMinerImpl) (id : WorkerId) : Shared where
  toWorker := (s.threads id).worker
  m_fee := cfg.backend.m_fee
  nonceCtl fee := if fee then s.nonceFeeCtl else s.nonceCtl

def act (s : AbstractMinerImpl) (action : Action) : AbstractMinerImpl :=
  { s with
    nonceCtl := action.reserved false s.nonceCtl
    nonceFeeCtl := action.reserved true s.nonceFeeCtl
    shares := s.shares ++ action.shares }

def runLoop (cfg : MinerConfig) (s : AbstractMinerImpl) (inp : Input) :
    WorkerId → Option AbstractMinerImpl
  | .cpu i =>
    ((s.cpuLoops i).step cfg.backend.search (s.shared cfg (.cpu i)) inp).map fun r =>
      { (s.setState (.cpu i) r.m_state).act r.action with
        cpuLoops := Function.update s.cpuLoops i r.loop }
  | .gpu i =>
    ((s.gpuLoops i).step cfg.backend.hashing (s.shared cfg (.gpu i)) inp).map fun r =>
      { (s.setState (.gpu i) r.m_state).act r.action with
        gpuLoops := Function.update s.gpuLoops i r.loop }

/-- A queued start event reaches its worker; inside `processEvents` its call of `startMining`
returns at once. -/
def deliverStart (s : AbstractMinerImpl) (id : WorkerId) : Option AbstractMinerImpl :=
  let t := s.updateThread id fun th => { th with starts := th.starts - 1 }
  if (s.threads id).starts = 0 ∨ (s.threads id).isFinished then none
  else
    match id with
    | .cpu i =>
      if (s.cpuLoops i).pc = .idle then
        some { t with cpuLoops := Function.update s.cpuLoops i ((s.cpuLoops i).goto .entry) }
      else none
    | .gpu i =>
      match (s.gpuLoops i).pc with
      | .idle =>
        some { t with gpuLoops := Function.update s.gpuLoops i ((s.gpuLoops i).goto .entry) }
      | .drain => some t
      | _ => none

def exitThread (s : AbstractMinerImpl) (id : WorkerId) : Option AbstractMinerImpl :=
  if (s.threads id).quit ∧ s.isIdle id then some (s.updateThread id ({ · with isFinished := true }))
  else none

inductive Event where
  | call (call : Call)
  | main
  | deliverStart (id : WorkerId)
  | exitThread (id : WorkerId)
  | loop (id : WorkerId) (inp : Input)
  | share
deriving DecidableEq, Repr

def mainIdle (s : AbstractMinerImpl) : Prop := s.tasks = [] ∧ s.ops = []

instance (s : AbstractMinerImpl) : Decidable s.mainIdle := inferInstanceAs (Decidable (_ ∧ _))

def step (cfg : MinerConfig) (s : AbstractMinerImpl) : Event → Option AbstractMinerImpl
  | .call c =>
    if s.mainIdle ∧ c.Allowed cfg then some { s with tasks := c.tasks cfg } else none
  | .main => s.runMain cfg
  | .deliverStart id => s.deliverStart id
  | .exitThread id => s.exitThread id
  | .loop id inp => s.runLoop cfg inp id
  | .share =>
    if s.mainIdle ∧ s.shares ≠ [] then some { s with shares := s.shares.tail } else none

section Fields
variable (s : AbstractMinerImpl) (id j : WorkerId) (f : WorkerThread → WorkerThread)
  (m_state : MinerThreadState) (op : Op) (action : Action)

@[simp] theorem updateThread_self : (s.updateThread id f).threads id = f (s.threads id) := by
  simp [updateThread]

theorem updateThread_of_ne {s : AbstractMinerImpl} {id j : WorkerId}
    {f : WorkerThread → WorkerThread} (h : j ≠ id) :
    (s.updateThread id f).threads j = s.threads j := by
  simp [updateThread, h]

@[simp] theorem updateThread_cpuLoops : (s.updateThread id f).cpuLoops = s.cpuLoops := rfl
@[simp] theorem updateThread_gpuLoops : (s.updateThread id f).gpuLoops = s.gpuLoops := rfl
@[simp] theorem updateThread_ops : (s.updateThread id f).ops = s.ops := rfl
@[simp] theorem updateThread_tasks : (s.updateThread id f).tasks = s.tasks := rfl

end Fields

/-- What a loop step of one worker is to the whole. -/
structure LoopStep (s t : AbstractMinerImpl) (id : WorkerId) (r : Result Loop) : Prop where
  loop : t.loop id = r.loop
  others : ∀ j, j ≠ id → t.loop j = s.loop j
  threads : t.threads = (s.setState id r.m_state).threads
  main : t.tasks = s.tasks ∧ t.ops = s.ops
  jobs : t.m_currentJob = s.m_currentJob ∧ t.m_feeJob = s.m_feeJob
  nonceCtl : t.nonceCtl = r.action.reserved false s.nonceCtl
  shares : t.shares = s.shares ++ r.action.shares

theorem runLoop_cases {cfg : MinerConfig} {s t : AbstractMinerImpl} {inp : Input} {id : WorkerId}
    (ht : s.runLoop cfg inp id = some t) :
    ∃ r, (s.loop id).step cfg.backend (s.shared cfg id) inp = some r ∧ LoopStep s t id r := by
  cases id with
  | cpu i =>
    obtain ⟨r, hr, rfl⟩ := Option.map_eq_some_iff.mp ht
    refine ⟨r.map .cpu, by simp [loop, Loop.step, hr], ?_, ?_, rfl, ⟨rfl, rfl⟩, ⟨rfl, rfl⟩, rfl,
      rfl⟩
    · simp [loop, Result.map]
    · intro j hj
      cases j with
      | cpu k =>
        have hk : k ≠ i := fun heq => hj (by rw [heq])
        simp [loop, hk]
      | gpu k => rfl
  | gpu i =>
    obtain ⟨r, hr, rfl⟩ := Option.map_eq_some_iff.mp ht
    refine ⟨r.map .gpu, by simp [loop, Loop.step, hr], ?_, ?_, rfl, ⟨rfl, rfl⟩, ⟨rfl, rfl⟩, rfl,
      rfl⟩
    · simp [loop, Result.map]
    · intro j hj
      cases j with
      | cpu k => rfl
      | gpu k =>
        have hk : k ≠ i := fun heq => hj (by rw [heq])
        simp [loop, hk]

theorem deliverStart_cases {s t : AbstractMinerImpl} {id : WorkerId}
    (ht : s.deliverStart id = some t) :
    (∀ j, t.loop j = s.loop j ∨ (s.loop j).enter = some (t.loop j)) ∧
      (∀ j, (t.threads j).worker = (s.threads j).worker) ∧
      (t.m_currentJob = s.m_currentJob ∧ t.m_feeJob = s.m_feeJob) ∧ t.shares = s.shares := by
  have hworker : ∀ j, ((s.updateThread id fun th => { th with starts := th.starts - 1 }).threads
      j).worker = (s.threads j).worker := by
    intro j
    by_cases hj : j = id
    · subst hj
      rw [updateThread_self]
    · rw [updateThread_of_ne hj]
  obtain ⟨-, ht⟩ := Option.ite_none_left_eq_some.mp ht
  cases id with
  | cpu i =>
    obtain ⟨hpc, ht⟩ := Option.ite_none_right_eq_some.mp ht
    cases ht
    refine ⟨fun j => ?_, hworker, ⟨rfl, rfl⟩, rfl⟩
    cases j with
    | cpu k =>
      by_cases hk : k = i
      · subst hk
        exact Or.inr (by simp [loop, Loop.enter, hpc])
      · exact Or.inl (by simp [loop, hk])
    | gpu k => exact Or.inl rfl
  | gpu i =>
    simp only at ht
    split at ht
    case h_1 hpc =>
      cases ht
      refine ⟨fun j => ?_, hworker, ⟨rfl, rfl⟩, rfl⟩
      cases j with
      | cpu k => exact Or.inl rfl
      | gpu k =>
        by_cases hk : k = i
        · subst hk
          exact Or.inr (by simp [loop, Loop.enter, hpc])
        · exact Or.inl (by simp [loop, hk])
    case h_2 =>
      cases ht
      exact ⟨fun j => Or.inl (by cases j <;> rfl), hworker, ⟨rfl, rfl⟩, rfl⟩
    case h_3 => cases ht

theorem deliverStart_main {s t : AbstractMinerImpl} {id : WorkerId}
    (h : s.deliverStart id = some t) : t.tasks = s.tasks ∧ t.ops = s.ops := by
  obtain ⟨-, h⟩ := Option.ite_none_left_eq_some.mp h
  cases id with
  | cpu i =>
    obtain ⟨-, h⟩ := Option.ite_none_right_eq_some.mp h
    cases h
    exact ⟨rfl, rfl⟩
  | gpu i =>
    simp only at h
    split at h
    case h_3 => cases h
    all_goals
      cases h
      exact ⟨rfl, rfl⟩

def implJob (s : AbstractMinerImpl) (fee : Bool) : MiningJob :=
  if fee then s.m_feeJob else s.m_currentJob

def pendingJob (s : AbstractMinerImpl) : Option (Bool × MiningJob) :=
  match s.ops, s.tasks with
  | [], .setJob job :: _ => some (false, job)
  | [], .setFeeJob job :: _ => some (true, job)
  | _, _ => none

/-- What every other access of the main thread can do: it gives a worker the jobs of the miner, or
drops a job of the miner, and it stores no `Mining`. -/
structure MainStep (s t : AbstractMinerImpl) : Prop where
  loops : t.cpuLoops = s.cpuLoops ∧ t.gpuLoops = s.gpuLoops
  shares : t.shares = s.shares
  state : ∀ id, t.getState id = s.getState id ∨ t.getState id ≠ .Mining
  worker : ∀ id fee, (t.threads id).worker.job fee = (s.threads id).worker.job fee ∨
    (t.threads id).worker.job fee = s.implJob fee
  implJob : ∀ fee, t.implJob fee = s.implJob fee ∨ t.implJob fee = .empty

section MainThread
variable {s t : AbstractMinerImpl}

theorem MainStep.refl (s : AbstractMinerImpl) : MainStep s s :=
  ⟨⟨rfl, rfl⟩, rfl, fun _ => Or.inl rfl, fun _ _ => Or.inl rfl, fun _ => Or.inl rfl⟩

theorem MainStep.updateThread {id : WorkerId} {f : WorkerThread → WorkerThread}
    (ht : t = s.updateThread id f)
    (hstate : ∀ th, (f th).worker.m_state = th.worker.m_state ∨ (f th).worker.m_state ≠ .Mining)
    (hjob : ∀ th fee, (f th).worker.job fee = th.worker.job fee ∨
      (f th).worker.job fee = s.implJob fee) : MainStep s t := by
  subst ht
  refine ⟨⟨rfl, rfl⟩, rfl, fun j => ?_, fun j fee => ?_, fun _ => Or.inl rfl⟩
  · by_cases hj : j = id
    · subst hj
      rw [getState, updateThread_self]
      exact hstate _
    · rw [getState, updateThread_of_ne hj]
      exact Or.inl rfl
  · by_cases hj : j = id
    · subst hj
      rw [updateThread_self]
      exact hjob _ fee
    · rw [updateThread_of_ne hj]
      exact Or.inl rfl

theorem MainStep.restartThread (id : WorkerId) : MainStep s (s.restartThread id) := by
  rw [AbstractMinerImpl.restartThread]
  split
  · exact .updateThread rfl (fun _ => Or.inl rfl) fun _ _ => Or.inl rfl
  · exact .refl s

theorem MainStep.withOps (h : MainStep s t) (ops : List Op) : MainStep s { t with ops := ops } :=
  ⟨h.loops, h.shares, h.state, h.worker, h.implJob⟩

theorem MainStep.withTasks (h : MainStep s t) (tasks : List Task) :
    MainStep s { t with tasks := tasks } :=
  ⟨h.loops, h.shares, h.state, h.worker, h.implJob⟩

theorem MainStep.setState (id : WorkerId) {m_state : MinerThreadState} (h : m_state ≠ .Mining) :
    MainStep s (s.setState id m_state) :=
  .updateThread (f := (·.setState m_state)) rfl (fun _ => Or.inr h) fun _ _ => Or.inl rfl

theorem MainStep.runOp (s : AbstractMinerImpl) (op : Op) : MainStep s (s.runOp op) := by
  cases op with
  | checkMining id =>
    simp only [AbstractMinerImpl.runOp]
    split
    · exact (MainStep.refl s).withOps _
    · exact .refl s
  | checkUpdateJob id | checkFeeJob id =>
    simp only [AbstractMinerImpl.runOp]
    split
    · exact .refl s
    · exact (MainStep.refl s).withOps _
  | checkStopping id =>
    simp only [AbstractMinerImpl.runOp]
    split
    · exact .refl s
    · exact (MainStep.refl s).withTasks _
  | storeJob id =>
    apply MainStep.updateThread
      (f := fun th => { th with worker := { th.worker with m_job := s.m_currentJob } })
      rfl (fun _ => Or.inl rfl) fun th fee => ?_
    cases fee
    · exact Or.inr rfl
    · exact Or.inl rfl
  | storeFeeJob id =>
    apply MainStep.updateThread
      (f := fun th => { th with worker := { th.worker with m_feeJob := s.m_feeJob } })
      rfl (fun _ => Or.inl rfl) fun th fee => ?_
    cases fee
    · exact Or.inl rfl
    · exact Or.inr rfl
  | setUpdateJob id | setStopping id => exact .setState id (by decide)
  | start id =>
    exact .updateThread (f := fun th => { th with starts := th.starts + 1 }) rfl
      (fun _ => Or.inl rfl) fun _ _ => Or.inl rfl

theorem MainStep.runTask {cfg : MinerConfig} {task : Task}
    (hset : ∀ job, task ≠ .setJob job ∧ task ≠ .setFeeJob job)
    (ht : s.runTask cfg task = some t) : MainStep s t := by
  cases task with
  | setJob job => exact absurd rfl (hset job).1
  | setFeeJob job => exact absurd rfl (hset job).2
  | startCpu i =>
    cases ht
    exact (MainStep.restartThread _).withOps _
  | stopCpu i =>
    cases ht
    exact .setState _ (by decide)
  | startGpu i =>
    simp only [AbstractMinerImpl.runTask] at ht
    split at ht <;> cases ht
    · exact .refl s
    · exact (MainStep.restartThread _).withOps _
  | quit id =>
    cases ht
    exact .updateThread (f := ({ · with quit := true })) rfl (fun _ => Or.inl rfl)
      fun _ _ => Or.inl rfl
  | setThread i =>
    simp only [AbstractMinerImpl.runTask] at ht
    split at ht <;> cases ht
    · exact (MainStep.refl s).withOps _
    · exact .refl s
  | stopGpu i | updateJob id =>
    simp only [AbstractMinerImpl.runTask] at ht
    split at ht <;> cases ht
    · exact .refl s
    · exact (MainStep.refl s).withOps _
  | wait i =>
    obtain ⟨-, ht⟩ := Option.ite_none_right_eq_some.mp ht
    cases ht
    exact .refl s
  | checkGpuThread i =>
    simp only [AbstractMinerImpl.runTask] at ht
    split at ht <;> cases ht
    · exact (MainStep.refl s).withTasks _
    · exact .refl s
  | checkRunning id =>
    cases id <;> simp only [AbstractMinerImpl.runTask] at ht <;> split at ht <;> cases ht
    · exact .refl s
    · exact (MainStep.refl s).withTasks _
    · exact .refl s
    · exact (MainStep.refl s).withOps _
  | clearJob =>
    cases ht
    refine ⟨⟨rfl, rfl⟩, rfl, fun _ => Or.inl rfl, fun _ _ => Or.inl rfl, fun fee => ?_⟩
    cases fee
    · exact Or.inr rfl
    · exact Or.inl rfl
  | invalidate | restart random =>
    cases ht
    exact ⟨⟨rfl, rfl⟩, rfl, fun _ => Or.inl rfl, fun _ _ => Or.inl rfl, fun _ => Or.inl rfl⟩

/-- The main thread goes on with an access, or when there is none with the next statement. -/
theorem runMain_eq_some {cfg : MinerConfig} (ht : s.runMain cfg = some t) :
    (∃ op ops, s.ops = op :: ops ∧ t = { s with ops := ops }.runOp op) ∨
    ∃ task tasks, s.ops = [] ∧ s.tasks = task :: tasks ∧
      { s with tasks := tasks }.runTask cfg task = some t := by
  rw [runMain] at ht
  split at ht
  case h_1 op ops hops =>
    cases ht
    exact Or.inl ⟨op, ops, hops, rfl⟩
  case h_2 task tasks hops htasks => exact Or.inr ⟨task, tasks, hops, htasks, ht⟩
  case h_3 => cases ht

theorem runMain_cases {cfg : MinerConfig} (ht : s.runMain cfg = some t) :
    match s.pendingJob with
    | some (false, job) => t = { s with m_currentJob := job, tasks := s.tasks.tail }
    | some (true, job) => t = { s with m_feeJob := job, tasks := s.tasks.tail }
    | none => MainStep s t := by
  rcases runMain_eq_some ht with ⟨op, ops, hops, rfl⟩ | ⟨task, tasks, hops, htasks, ht⟩
  · simp only [pendingJob, hops]
    have h := MainStep.runOp { s with ops := ops } op
    exact ⟨h.loops, h.shares, h.state, h.worker, h.implJob⟩
  · cases task with
    | setJob job | setFeeJob job =>
      cases ht
      simp only [pendingJob, hops, htasks]
      rfl
    | _ =>
      simp only [pendingJob, hops, htasks]
      have h := MainStep.runTask (by simp) ht
      exact ⟨h.loops, h.shares, h.state, h.worker, h.implJob⟩

end MainThread

end AbstractMinerImpl
end MinerGate
