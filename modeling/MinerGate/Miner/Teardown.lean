import MinerGate.Miner.StartStop

/-!
# Teardown

When nothing mines any more the miner stops its hash-rate timer, tells the pool client to stop and
drops its job. `stopCpu` and `stopGpu` each do this unless they find a worker of the other kind
still there. `stopCpu` also waits for a GPU worker that has already been told to stop, and when that
worker has finished nobody looks again.
-/

namespace MinerGate

set_option autoImplicit false

open Transition

/-- The miner with its timer, its pool client (`listening` after `poolStartListen`, until
`poolStopListen`), the settings of its GPUs, the finished signals that are queued for it and the
checks that these have deferred. `cpuStopped` and `gpuStopped` keep whether the last call for the
workers was one that stops them. -/
structure TimedMinerImpl where
  impl : AbstractMinerImpl
  m_hrTimer : Bool
  listening : Bool
  isGpuRunning : Nat → Bool
  finished : List Nat
  deferred : List Nat
  cpuStopped : Bool
  gpuStopped : Nat → Bool

namespace TimedMinerImpl

def new (gpuMiners : Nat → GpuMiner) (isGpuRunning : Nat → Bool) : TimedMinerImpl where
  impl := .new gpuMiners
  m_hrTimer := false
  listening := false
  isGpuRunning := isGpuRunning
  finished := []
  deferred := []
  cpuStopped := true
  gpuStopped _ := true

def noteCall (s : TimedMinerImpl) : Call → TimedMinerImpl
  | .startCpu _ => { s with m_hrTimer := true, listening := true, cpuStopped := false }
  | .setThreadCount _ => { s with cpuStopped := false }
  | .stopCpu _ => { s with cpuStopped := true }
  | .stopGpu devices _ => { s with gpuStopped := fun i => s.gpuStopped i || decide (i ∈ devices) }
  | _ => s

def noteMain (s : TimedMinerImpl) : TimedMinerImpl :=
  match s.impl.ops, s.impl.tasks with
  | [], .startGpu i :: _ =>
    if s.impl.getState (.gpu i) = .Mining then s
    else
      { s with
        m_hrTimer := true
        listening := true
        gpuStopped := Function.update s.gpuStopped i false }
  | [], .stopGpu i :: _ => { s with isGpuRunning := Function.update s.isGpuRunning i false }
  | [], .clearJob :: _ => { s with m_hrTimer := false, listening := false }
  | _, _ => s

def noteLoop (s : TimedMinerImpl) : WorkerId → TimedMinerImpl
  | .gpu i =>
    if (s.impl.gpuLoops i).pc = .setExit then { s with finished := s.finished ++ [i] } else s
  | .cpu _ => s

def note (s : TimedMinerImpl) : AbstractMinerImpl.Event → TimedMinerImpl
  | .call c => s.noteCall c
  | .main => s.noteMain
  | .loop id _ => s.noteLoop id
  | _ => s

inductive Event where
  | impl (e : AbstractMinerImpl.Event)
  | setGpuRunning (i : Nat) (on : Bool)
  | finishedSignal (lowMemory : Bool)
  | singleShot (i : Nat)
deriving DecidableEq, Repr

def stepImpl (cfg : MinerConfig) (s : TimedMinerImpl) (e : AbstractMinerImpl.Event) :
    Option TimedMinerImpl :=
  (s.impl.step cfg e).map fun t => { s.note e with impl := t }

/-- The handlers run in the main thread's event loop: the settings are written, a finished signal
is handled, or a check that was deferred. -/
def step (cfg : MinerConfig) (s : TimedMinerImpl) : Event → Option TimedMinerImpl
  | .impl e => s.stepImpl cfg e
  | .setGpuRunning i on =>
    if s.impl.mainIdle then
      some { s with isGpuRunning := Function.update s.isGpuRunning i on }
    else none
  | .finishedSignal lowMemory =>
    match s.finished with
    | [] => none
    | i :: finished =>
      if s.impl.mainIdle then
        some { s with
          finished := finished
          deferred := if lowMemory then s.deferred else s.deferred ++ [i] }
      else none
  | .singleShot i =>
    if s.impl.mainIdle ∧ i ∈ s.deferred then
      let t := { s with deferred := s.deferred.erase i }
      if t.isGpuRunning i then t.stepImpl cfg (.call (.stopGpu [i] false)) else some t
    else none

def TornDown (s : TimedMinerImpl) : Prop :=
  s.m_hrTimer = false ∧ s.listening = false ∧ s.impl.m_currentJob = .empty

instance (s : TimedMinerImpl) : Decidable s.TornDown := inferInstanceAs (Decidable (_ ∧ _))

/-- All workers have exited, and all handlers have run. -/
structure Quiet (cfg : MinerConfig) (s : TimedMinerImpl) : Prop where
  mainIdle : s.impl.mainIdle
  cpus : ∀ i < cfg.cpus, s.impl.getState (.cpu i) = .Exit
  gpus : ∀ i < cfg.gpus, s.impl.getState (.gpu i) = .Exit
  idle : (∀ i < cfg.cpus, s.impl.isIdle (.cpu i) = true) ∧
    ∀ i < cfg.gpus, s.impl.isIdle (.gpu i) = true
  handlers : s.finished = [] ∧ s.deferred = []

instance (cfg : MinerConfig) (s : TimedMinerImpl) : Decidable (s.Quiet cfg) :=
  decidable_of_iff (s.impl.mainIdle ∧ (∀ i < cfg.cpus, s.impl.getState (.cpu i) = .Exit) ∧
    (∀ i < cfg.gpus, s.impl.getState (.gpu i) = .Exit) ∧
    ((∀ i < cfg.cpus, s.impl.isIdle (.cpu i) = true) ∧
      ∀ i < cfg.gpus, s.impl.isIdle (.gpu i) = true) ∧
    s.finished = [] ∧ s.deferred = [])
    ⟨fun ⟨hm, hc, hg, hi, hh⟩ => ⟨hm, hc, hg, hi, hh⟩,
      fun h => ⟨h.mainIdle, h.cpus, h.gpus, h.idle, h.handlers⟩⟩

def AllStopped (cfg : MinerConfig) (s : TimedMinerImpl) : Prop :=
  s.cpuStopped = true ∧ ∀ i < cfg.gpus, s.gpuStopped i = true

instance (cfg : MinerConfig) (s : TimedMinerImpl) : Decidable (s.AllStopped cfg) :=
  inferInstanceAs (Decidable (_ ∧ _))

/-- A worker is still to be stopped, or goes on although it has been told to stop. -/
def StillRuns (cfg : MinerConfig) (s : TimedMinerImpl) : Prop :=
  s.cpuStopped = false ∨ (∃ i < cfg.gpus, s.gpuStopped i = false) ∨
    (∃ i < cfg.cpus, s.impl.getState (.cpu i) ≠ .Exit) ∨
      ∃ i < cfg.gpus, (s.impl.getState (.gpu i)).stops = false

instance (cfg : MinerConfig) (s : TimedMinerImpl) : Decidable (s.StillRuns cfg) :=
  inferInstanceAs (Decidable (_ ∨ _))

/-- `stopCpu` returns because of a GPU worker whose thread still runs. -/
def ReturnsAt (s : TimedMinerImpl) (i : Nat) : Prop :=
  s.impl.ops = [] ∧ s.impl.tasks.head? = some (.checkGpuThread i) ∧
    s.impl.getState (.gpu i) ≠ .Exit ∧ ¬ (s.impl.threads (.gpu i)).isFinished

/-- `stopGpu` returns because of a GPU worker that was not in `Exit` at the first load of its state
and is in `Exit` at the second. -/
def ExitsBetween (s : TimedMinerImpl) (i : Nat) : Prop :=
  s.impl.ops.head? = some (.checkStopping (.gpu i)) ∧ s.impl.getState (.gpu i) = .Exit

instance (s : TimedMinerImpl) (i : Nat) : Decidable (s.ReturnsAt i) :=
  inferInstanceAs (Decidable (_ ∧ _))

instance (s : TimedMinerImpl) (i : Nat) : Decidable (s.ExitsBetween i) :=
  inferInstanceAs (Decidable (_ ∧ _))

/-- Unless a worker is still to be stopped, `stopCpu` does not find a GPU worker on its way out, no
GPU worker exits between the two loads of `stopGpu`, and one that has missed its stop does not end
by itself; the pool only sends jobs while it listens. -/
def Guard (cfg : MinerConfig) (s : TimedMinerImpl) : Event → Prop
  | .impl (.call (.updateJob job _)) => s.listening = true ∨ job = .empty
  | .impl .main => (∃ i < cfg.gpus, s.ReturnsAt i ∨ s.ExitsBetween i) → s.StillRuns cfg
  | .impl (.loop (.gpu i) inp) =>
    ∀ t ∈ s.impl.step cfg (.loop (.gpu i) inp), (s.impl.getState (.gpu i)).stops = false →
      (t.getState (.gpu i)).stops = true → StillRuns cfg { s with impl := t }
  | _ => True

instance (cfg : MinerConfig) (s : TimedMinerImpl) (e : Event) : Decidable (s.Guard cfg e) := by
  unfold Guard
  split <;> infer_instance

end TimedMinerImpl

namespace Task

def Within (cfg : MinerConfig) : Task → Prop
  | .startGpu i | .checkGpuThread i | .checkRunning (.gpu i) => i < cfg.gpus
  | .checkRunning (.cpu i) => i < cfg.cpus
  | _ => True

/-- The call comes to the teardown in the end, unless it returns before. -/
def Ends (tasks : List Task) : Prop := ∃ front, tasks = front ++ [.clearJob]

variable {cfg : MinerConfig} {task : Task} {tasks : List Task} {c : Call}

theorem Ends.tail (h : Ends (task :: tasks)) : tasks = [] ∧ task = .clearJob ∨ Ends tasks := by
  obtain ⟨front, hfront⟩ := h
  cases front with
  | nil =>
    cases hfront
    exact Or.inl ⟨rfl, rfl⟩
  | cons x front =>
    cases hfront
    exact Or.inr ⟨front, rfl⟩

theorem within_tasks : ∀ task ∈ c.tasks cfg, task.Within cfg := by
  cases c with
  | stopCpu sync => cases sync <;> simp [Call.tasks, Within, or_imp, forall_and]
  | stopGpu devices sync =>
    have hchecks : ∀ task ∈ ((List.range cfg.gpus).map fun i => Task.checkRunning (.gpu i)) ++
        ((List.range cfg.cpus).map fun i => Task.checkRunning (.cpu i)) ++ [.clearJob],
          task.Within cfg := by
      simp [Within, or_imp, forall_and]
    intro task htask
    rw [Call.tasks, List.append_assoc, List.append_assoc, List.mem_append,
      ← List.append_assoc] at htask
    rcases htask with htask | htask
    · obtain ⟨i, -, htask⟩ := List.mem_flatMap.mp htask
      cases sync <;> simp at htask <;> rcases htask with rfl | rfl <;> trivial
    · exact hchecks task htask
  | startGpu devices =>
    intro task htask
    obtain ⟨i, hi, rfl⟩ := List.mem_map.mp htask
    exact List.mem_range.mp (List.mem_of_mem_filter hi)
  | setThreadCount threadCount =>
    intro task htask
    obtain ⟨i, -, rfl⟩ := List.mem_map.mp htask
    split <;> trivial
  | _ => simp [Call.tasks, Within, or_imp, forall_and]

theorem ends_stopCpu {sync : Bool} : Ends (Call.tasks cfg (.stopCpu sync)) := ⟨_, rfl⟩

theorem ends_stopGpu {devices : List Nat} {sync : Bool} :
    Ends (Call.tasks cfg (.stopGpu devices sync)) := ⟨_, rfl⟩

theorem stopGpu_tasks {i : Nat} (h : .stopGpu i ∈ c.tasks cfg) : Ends (c.tasks cfg) := by
  cases c with
  | stopCpu sync => exact ends_stopCpu
  | stopGpu devices sync => exact ends_stopGpu
  | setThreadCount threadCount =>
    obtain ⟨j, -, hj⟩ := List.mem_map.mp h
    split at hj <;> cases hj
  | _ => simp [Call.tasks] at h

theorem stopCpu_tasks {i : Nat} (h : .stopCpu i ∈ c.tasks cfg) :
    Ends (c.tasks cfg) ∨ ∃ threadCount, c = .setThreadCount threadCount := by
  cases c with
  | stopCpu sync => exact Or.inl ends_stopCpu
  | stopGpu devices sync => exact Or.inl ends_stopGpu
  | setThreadCount threadCount => exact Or.inr ⟨threadCount, rfl⟩
  | _ => simp [Call.tasks] at h

/-- A job is only taken over by `updateJob`, first of all. -/
theorem setJob_tasks {job : MiningJob} (h : .setJob job ∈ c.tasks cfg) :
    ∃ random, c = .updateJob job random ∧ .setJob job ∉ (c.tasks cfg).tail := by
  cases c with
  | stopCpu sync | stopGpu devices sync => cases sync <;> simp [Call.tasks] at h
  | setThreadCount threadCount =>
    obtain ⟨j, -, hj⟩ := List.mem_map.mp h
    split at hj <;> cases hj
  | updateJob job' random =>
    have hjob : job' = job := by simpa [Call.tasks, eq_comm] using h
    subst hjob
    exact ⟨random, rfl, by simp [Call.tasks]⟩
  | _ => simp [Call.tasks] at h

end Task

namespace AbstractMinerImpl

variable {s t : AbstractMinerImpl} {op : Op} {ops : List Op} {id : WorkerId}

/-- What an access of a worker's method changes: a state is `UpdateJob` then, or `Stopping` if the
access stops the worker. -/
structure OpSpec (s t : AbstractMinerImpl) (op : Op) : Prop where
  tasks : (∀ id, op ≠ .checkStopping id) → t.tasks = s.tasks
  job : t.m_currentJob = s.m_currentJob
  ops : ∀ o ∈ t.ops, o ∈ s.ops
  state : ∀ id, t.getState id = s.getState id ∨ t.getState id = .UpdateJob ∨
    op = .setStopping id ∧ t.getState id = .Stopping

theorem getState_setState (id : WorkerId) (m_state : MinerThreadState) (j : WorkerId) :
    (s.setState id m_state).getState j = s.getState j ∨
      j = id ∧ (s.setState id m_state).getState j = m_state := by
  by_cases hj : j = id
  · subst hj
    exact Or.inr ⟨rfl, by simp [getState, setState, WorkerThread.setState]⟩
  · exact Or.inl (by rw [getState, setState, updateThread_of_ne hj, getState])

theorem getState_setState_self (id : WorkerId) (m_state : MinerThreadState) :
    (s.setState id m_state).getState id = m_state := by
  simp [getState, setState, WorkerThread.setState]

theorem getState_updateThread (f : WorkerThread → WorkerThread)
    (hf : ∀ th, (f th).worker.m_state = th.worker.m_state) (j : WorkerId) :
    (s.updateThread id f).getState j = s.getState j := by
  by_cases hj : j = id
  · subst hj
    rw [getState, updateThread_self, hf, getState]
  · rw [getState, updateThread_of_ne hj, getState]

theorem getState_restartThread (j : WorkerId) : (s.restartThread id).getState j = s.getState j := by
  rw [restartThread]
  split
  · exact getState_updateThread ({ · with quit := false, isFinished := false }) (fun _ => rfl) j
  · rfl

theorem runOp_spec (s : AbstractMinerImpl) (op : Op) : OpSpec s (s.runOp op) op := by
  cases op with
  | checkMining id =>
    simp only [runOp]
    split
    · exact ⟨fun _ => rfl, rfl, fun _ h => List.mem_of_mem_drop h, fun _ => Or.inl rfl⟩
    · exact ⟨fun _ => rfl, rfl, fun _ h => h, fun _ => Or.inl rfl⟩
  | checkUpdateJob id | checkFeeJob id =>
    simp only [runOp]
    split
    · exact ⟨fun _ => rfl, rfl, fun _ h => h, fun _ => Or.inl rfl⟩
    · exact ⟨fun _ => rfl, rfl, fun _ h => List.mem_of_mem_drop h, fun _ => Or.inl rfl⟩
  | checkStopping id =>
    simp only [runOp]
    split
    · exact ⟨fun _ => rfl, rfl, fun _ h => h, fun _ => Or.inl rfl⟩
    · exact ⟨fun h => absurd rfl (h id), rfl, fun _ h => h, fun _ => Or.inl rfl⟩
  | storeJob id =>
    refine ⟨fun _ => rfl, rfl, fun _ h => h, fun j => Or.inl ?_⟩
    exact getState_updateThread
      (fun th => { th with worker := { th.worker with m_job := s.m_currentJob } }) (fun _ => rfl) j
  | storeFeeJob id =>
    refine ⟨fun _ => rfl, rfl, fun _ h => h, fun j => Or.inl ?_⟩
    exact getState_updateThread
      (fun th => { th with worker := { th.worker with m_feeJob := s.m_feeJob } }) (fun _ => rfl) j
  | start id =>
    refine ⟨fun _ => rfl, rfl, fun _ h => h, fun j => Or.inl ?_⟩
    exact getState_updateThread (fun th => { th with starts := th.starts + 1 }) (fun _ => rfl) j
  | setUpdateJob id =>
    refine ⟨fun _ => rfl, rfl, fun _ h => h, fun j => ?_⟩
    rcases getState_setState (s := s) id .UpdateJob j with h | ⟨-, h⟩
    · exact Or.inl h
    · exact Or.inr (Or.inl h)
  | setStopping id =>
    refine ⟨fun _ => rfl, rfl, fun _ h => h, fun j => ?_⟩
    rcases getState_setState (s := s) id .Stopping j with h | ⟨rfl, h⟩
    · exact Or.inl h
    · exact Or.inr (Or.inr ⟨rfl, h⟩)

end AbstractMinerImpl

namespace TimedMinerImpl

variable {cfg : MinerConfig} {s t : TimedMinerImpl} {u : AbstractMinerImpl} {e : Event}
  {es : List Event}

/-- While the miner is not torn down, the main thread is on its way to do it, or a worker is still
to be stopped. -/
structure Inv (cfg : MinerConfig) (s : TimedMinerImpl) : Prop where
  within : ∀ task ∈ s.impl.tasks, task.Within cfg
  setStopping : ∀ id, .setStopping id ∈ s.impl.ops → Task.Ends s.impl.tasks
  checkStopping : ∀ id, .checkStopping id ∈ s.impl.ops →
    s.impl.ops = [.checkStopping id] ∧ ∃ i < cfg.gpus, id = .gpu i
  stopGpu : ∀ i, .stopGpu i ∈ s.impl.tasks → Task.Ends s.impl.tasks
  stopCpu : ∀ i, .stopCpu i ∈ s.impl.tasks → Task.Ends s.impl.tasks ∨ s.cpuStopped = false
  setJob : ∀ job, s.impl.tasks.head? = some (.setJob job) → s.listening = true ∨ job = .empty
  later : ∀ job, .setJob job ∉ s.impl.tasks.tail
  down : s.TornDown ∨ Task.Ends s.impl.tasks ∨ s.StillRuns cfg

theorem StillRuns.mono (h : s.StillRuns cfg) (hcpu : t.cpuStopped = s.cpuStopped)
    (hgpu : t.gpuStopped = s.gpuStopped)
    (hcpus : ∀ i, s.impl.getState (.cpu i) ≠ .Exit → t.impl.getState (.cpu i) ≠ .Exit)
    (hgpus : ∀ i, (s.impl.getState (.gpu i)).stops = false →
      (t.impl.getState (.gpu i)).stops = false) : t.StillRuns cfg := by
  rw [StillRuns, hcpu, hgpu]
  refine h.imp_right (Or.imp_right (Or.imp ?_ ?_))
  · rintro ⟨i, hi, hstate⟩
    exact ⟨i, hi, hcpus i hstate⟩
  · rintro ⟨i, hi, hstate⟩
    exact ⟨i, hi, hgpus i hstate⟩

theorem StillRuns.congr (h : s.StillRuns cfg) (hcpu : t.cpuStopped = s.cpuStopped)
    (hgpu : t.gpuStopped = s.gpuStopped)
    (hstate : ∀ id, t.impl.getState id = s.impl.getState id) : t.StillRuns cfg :=
  h.mono hcpu hgpu (fun i hi => by rwa [hstate]) fun i hi => by rwa [hstate]

theorem Inv.keep (h : s.Inv cfg) (htasks : t.impl.tasks = s.impl.tasks)
    (hops : ∀ op ∈ t.impl.ops, op ∈ s.impl.ops)
    (hcheck : t.impl.ops = s.impl.ops ∨ ∀ id, .checkStopping id ∉ t.impl.ops)
    (hcpu : t.cpuStopped = s.cpuStopped)
    (hlistening : t.listening = s.listening)
    (hdown : s.TornDown ∨ s.StillRuns cfg → t.TornDown ∨ Task.Ends t.impl.tasks ∨ t.StillRuns cfg) :
    t.Inv cfg := by
  refine ⟨?_, ?_, ?_, ?_, ?_, ?_, ?_, ?_⟩
  · rw [htasks]
    exact h.within
  · intro id hid
    rw [htasks]
    exact h.setStopping id (hops _ hid)
  · intro id hid
    rcases hcheck with heq | hno
    · rw [heq] at hid ⊢
      exact h.checkStopping id hid
    · exact absurd hid (hno id)
  · rw [htasks]
    exact h.stopGpu
  · rw [htasks, hcpu]
    exact h.stopCpu
  · rw [htasks, hlistening]
    exact h.setJob
  · rw [htasks]
    exact h.later
  · rcases h.down with hd | hends | hruns
    · exact hdown (Or.inl hd)
    · rw [htasks]
      exact Or.inr (Or.inl hends)
    · exact hdown (Or.inr hruns)

/-- A statement other than the teardown is done; what it leaves of the call goes on. -/
theorem Inv.next {task : Task} {tasks : List Task} (h : s.Inv cfg)
    (hs : s.impl.tasks = task :: tasks)
    (ht : t.impl.tasks = tasks)
    (hops : ∀ id, .setStopping id ∈ t.impl.ops → Task.Ends (task :: tasks) ∧ task ≠ .clearJob)
    (hcheck : ∀ id, .checkStopping id ∈ t.impl.ops →
      t.impl.ops = [.checkStopping id] ∧ ∃ i < cfg.gpus, id = .gpu i)
    (hcpu : t.cpuStopped = s.cpuStopped)
    (hdown : t.TornDown ∨ t.StillRuns cfg ∨ Task.Ends (task :: tasks) ∧ task ≠ .clearJob) :
    t.Inv cfg := by
  have htail : Task.Ends (task :: tasks) → task ≠ .clearJob → Task.Ends tasks := by
    intro hends hne
    rcases hends.tail with ⟨-, heq⟩ | hends
    · exact absurd heq hne
    · exact hends
  have hmem : ∀ task' ∈ tasks, Task.Ends (task :: tasks) → Task.Ends tasks := by
    intro task' hmem hends
    rcases hends.tail with ⟨heq, -⟩ | hends
    · rw [heq] at hmem
      cases hmem
    · exact hends
  refine ⟨?_, ?_, hcheck, ?_, ?_, ?_, ?_, ?_⟩
  · rw [ht]
    exact fun task' hmem => h.within task' (by rw [hs]; exact List.mem_cons_of_mem _ hmem)
  · intro id hid
    rw [ht]
    exact htail (hops id hid).1 (hops id hid).2
  · intro i hi
    rw [ht] at hi ⊢
    exact hmem _ hi (hs ▸ h.stopGpu i (by rw [hs]; exact List.mem_cons_of_mem _ hi))
  · intro i hi
    rw [ht] at hi ⊢
    rw [hcpu]
    exact (h.stopCpu i (by rw [hs]; exact List.mem_cons_of_mem _ hi)).imp_left fun hends =>
      hmem _ hi (hs ▸ hends)
  · intro job hjob
    rw [ht] at hjob
    refine absurd ?_ (h.later job)
    rw [hs]
    exact List.mem_of_head? hjob
  · intro job hjob
    rw [ht] at hjob
    refine h.later job ?_
    rw [hs]
    exact List.mem_of_mem_tail hjob
  · rw [ht]
    rcases hdown with hd | hruns | ⟨hends, hne⟩
    · exact Or.inl hd
    · exact Or.inr (Or.inr hruns)
    · exact Or.inr (Or.inl (htail hends hne))

theorem launch_stopping {id j : WorkerId} :
    .setStopping id ∉ launch j ∧ .checkStopping id ∉ launch j := by
  cases j <;> simp [launch, workerUpdateJob, workerUpdateFeeJob]

theorem Inv.returned (htasks : t.impl.tasks = []) (hops : t.impl.ops = [])
    (hruns : t.StillRuns cfg) : t.Inv cfg := by
  refine ⟨?_, ?_, ?_, ?_, ?_, ?_, ?_, Or.inr (Or.inr hruns)⟩ <;> simp [htasks, hops]

/-- The second load of `stopGpu` finds the worker in `Stopping`, or `stopGpu` returns. -/
theorem Inv.checkStopping_step {id : WorkerId} {ops : List Op} (h : s.Inv cfg)
    (hops : s.impl.ops = .checkStopping id :: ops)
    (hguard : (∃ i < cfg.gpus, s.ReturnsAt i ∨ s.ExitsBetween i) → s.StillRuns cfg) :
    Inv cfg { s with impl := { s.impl with ops := ops }.runOp (.checkStopping id) } := by
  obtain ⟨honly, i, hi, rfl⟩ := h.checkStopping id (by rw [hops]; exact List.mem_cons_self)
  rw [hops] at honly
  obtain rfl := (List.cons.inj honly).2
  simp only [AbstractMinerImpl.runOp]
  split
  case isTrue =>
    refine h.keep rfl (fun o ho => absurd ho List.not_mem_nil)
      (Or.inr fun _ => List.not_mem_nil) rfl rfl ?_
    rintro (hd | hruns)
    · exact Or.inl hd
    · exact Or.inr (Or.inr (hruns.congr rfl rfl fun _ => rfl))
  case isFalse hstate =>
    have hstate : s.impl.getState (.gpu i) ≠ .Stopping := hstate
    refine .returned rfl rfl ?_
    by_cases hexit : s.impl.getState (.gpu i) = .Exit
    · have hruns := hguard ⟨i, hi, Or.inr ⟨by rw [hops]; rfl, hexit⟩⟩
      exact hruns.congr rfl rfl fun _ => rfl
    · refine Or.inr (Or.inr (Or.inr ⟨i, hi, ?_⟩))
      exact decide_eq_false fun hstops => hstops.elim hexit hstate

theorem Inv.runOp {op : Op} {ops : List Op} (h : s.Inv cfg) (hops : s.impl.ops = op :: ops)
    (hguard : (∃ i < cfg.gpus, s.ReturnsAt i ∨ s.ExitsBetween i) → s.StillRuns cfg)
    (ht : t = { s with impl := { s.impl with ops := ops }.runOp op }) : t.Inv cfg := by
  by_cases hcheck : ∃ id, op = .checkStopping id
  · obtain ⟨id, rfl⟩ := hcheck
    exact ht ▸ h.checkStopping_step hops hguard
  have hspec := AbstractMinerImpl.runOp_spec { s.impl with ops := ops } op
  have htasks := hspec.tasks fun id heq => hcheck ⟨id, heq⟩
  subst ht
  refine h.keep htasks (fun o ho => ?_) (Or.inr fun id hid => ?_) rfl rfl ?_
  · rw [hops]
    exact List.mem_cons_of_mem _ (hspec.ops o ho)
  · have hrest : .checkStopping id ∈ ops := hspec.ops _ hid
    have honly := (h.checkStopping id (by rw [hops]; exact List.mem_cons_of_mem _ hrest)).1
    rw [hops] at honly
    rw [(List.cons.inj honly).2] at hrest
    cases hrest
  rintro (⟨htimer, hlistening, hjob⟩ | hruns)
  · exact Or.inl ⟨htimer, hlistening, hspec.job.trans hjob⟩
  · by_cases hstop : ∃ id, op = .setStopping id
    · obtain ⟨id, rfl⟩ := hstop
      refine Or.inr (Or.inl ?_)
      have hends := h.setStopping id (by rw [hops]; exact List.mem_cons_self)
      rw [← htasks] at hends
      exact hends
    · have hstate : ∀ id, ({ s.impl with ops := ops }.runOp op).getState id = s.impl.getState id ∨
          ({ s.impl with ops := ops }.runOp op).getState id = .UpdateJob := by
        intro id
        rcases hspec.state id with heq | heq | ⟨heq, -⟩
        · exact Or.inl heq
        · exact Or.inr heq
        · exact absurd ⟨id, heq⟩ hstop
      refine Or.inr (Or.inr (hruns.mono rfl rfl (fun i hi => ?_) fun i hi => ?_))
      · rcases hstate (.cpu i) with heq | heq <;> rw [heq]
        · exact hi
        · decide
      · rcases hstate (.gpu i) with heq | heq <;> rw [heq]
        · exact hi
        · decide

/-- A statement that changes no state and no job leaves the teardown where it is. -/
theorem Inv.down_next {task : Task} {tasks : List Task} (h : s.Inv cfg)
    (hs : s.impl.tasks = task :: tasks) (hne : task ≠ .clearJob)
    (hstate : ∀ id, u.getState id = s.impl.getState id)
    (hjob : u.m_currentJob = s.impl.m_currentJob) :
    TornDown { s with impl := u } ∨ StillRuns cfg { s with impl := u } ∨
      Task.Ends (task :: tasks) ∧ task ≠ .clearJob := by
  rcases h.down with ⟨htimer, hlistening, hempty⟩ | hends | hruns
  · exact Or.inl ⟨htimer, hlistening, hjob.trans hempty⟩
  · exact Or.inr (Or.inr ⟨hs ▸ hends, hne⟩)
  · exact Or.inr (Or.inl (hruns.congr rfl rfl hstate))

theorem Inv.plain {task : Task} {tasks : List Task} (h : s.Inv cfg)
    (hs : s.impl.tasks = task :: tasks) (hne : task ≠ .clearJob) (hu : u.tasks = tasks)
    (hops : ∀ id, .setStopping id ∉ u.ops ∧ .checkStopping id ∉ u.ops)
    (hstate : ∀ id, u.getState id = s.impl.getState id)
    (hjob : u.m_currentJob = s.impl.m_currentJob) : Inv cfg { s with impl := u } :=
  h.next hs hu (fun id hid => absurd hid (hops id).1) (fun id hid => absurd hid (hops id).2)
    rfl (h.down_next hs hne hstate hjob)

theorem restartThread_tasks {id : WorkerId} : (u.restartThread id).tasks = u.tasks := by
  rw [AbstractMinerImpl.restartThread]
  split <;> rfl

theorem restartThread_job {id : WorkerId} :
    (u.restartThread id).m_currentJob = u.m_currentJob := by
  rw [AbstractMinerImpl.restartThread]
  split <;> rfl

/-- A worker that is started has not been stopped since. -/
theorem Inv.startGpu_step {i : Nat} {tasks : List Task} (h : s.Inv cfg) (hops : s.impl.ops = [])
    (htasks : s.impl.tasks = .startGpu i :: tasks) (hi : i < cfg.gpus)
    (hu : { s.impl with tasks := tasks }.runTask cfg (.startGpu i) = some u) :
    Inv cfg { s.noteMain with impl := u } := by
  simp only [AbstractMinerImpl.runTask] at hu
  split at hu
  case isTrue hmining =>
    have hmining : s.impl.getState (.gpu i) = .Mining := hmining
    have hnote : s.noteMain = s := by simp [noteMain, hops, htasks, hmining]
    cases hu
    rw [hnote]
    exact h.plain htasks (by simp) rfl (by simp [hops]) (fun _ => rfl) rfl
  case isFalse hmining =>
    have hmining : ¬ s.impl.getState (.gpu i) = .Mining := hmining
    have hgpu : s.noteMain.gpuStopped i = false := by simp [noteMain, hops, htasks, hmining]
    cases hu
    refine h.next htasks restartThread_tasks (fun id hid => absurd hid launch_stopping.1)
      (fun id hid => absurd hid launch_stopping.2) ?_
      (Or.inr (Or.inl (Or.inr (Or.inl ⟨i, hi, hgpu⟩))))
    simp [noteMain, hops, htasks, hmining]

/-- `stopGpu` has the teardown behind the stops. -/
theorem Inv.stopGpu_step {i : Nat} {tasks : List Task} (h : s.Inv cfg) (hops : s.impl.ops = [])
    (htasks : s.impl.tasks = .stopGpu i :: tasks)
    (hu : { s.impl with tasks := tasks }.runTask cfg (.stopGpu i) = some u) :
    Inv cfg { s.noteMain with impl := u } := by
  simp only [AbstractMinerImpl.runTask] at hu
  have hends : Task.Ends (.stopGpu i :: tasks) :=
    htasks ▸ h.stopGpu i (by rw [htasks]; exact List.mem_cons_self)
  have hcpu : s.noteMain.cpuStopped = s.cpuStopped := by simp [noteMain, hops, htasks]
  split at hu <;> cases hu
  · exact h.next htasks rfl (fun id hid => ⟨hends, by simp⟩) (by simp [hops]) hcpu
      (Or.inr (Or.inr ⟨hends, by simp⟩))
  · exact h.next htasks rfl (fun id hid => ⟨hends, by simp⟩) (by simp) hcpu
      (Or.inr (Or.inr ⟨hends, by simp⟩))

/-- A worker that is found running lets `stopGpu` return; for a GPU worker the second load
decides. -/
theorem Inv.checkRunning_step {id : WorkerId} {tasks : List Task} (h : s.Inv cfg)
    (hops : s.impl.ops = []) (htasks : s.impl.tasks = .checkRunning id :: tasks)
    (hwithin : Task.Within cfg (.checkRunning id))
    (hu : { s.impl with tasks := tasks }.runTask cfg (.checkRunning id) = some u) :
    Inv cfg { s with impl := u } := by
  cases id with
  | cpu i =>
    simp only [AbstractMinerImpl.runTask] at hu
    split at hu
    case isTrue =>
      cases hu
      exact h.plain htasks (by simp) rfl (by simp [hops]) (fun _ => rfl) rfl
    case isFalse hstate =>
      cases hu
      exact .returned rfl hops (Or.inr (Or.inr (Or.inl ⟨i, hwithin, hstate⟩)))
  | gpu i =>
    simp only [AbstractMinerImpl.runTask] at hu
    split at hu
    case isTrue =>
      cases hu
      exact h.plain htasks (by simp) rfl (by simp [hops]) (fun _ => rfl) rfl
    case isFalse =>
      cases hu
      refine h.next htasks rfl (by simp) (fun id hid => ?_) rfl
        (h.down_next htasks (by simp) (fun _ => rfl) rfl)
      obtain rfl : id = .gpu i := by simpa using hid
      exact ⟨rfl, i, hwithin, rfl⟩

theorem Inv.runTask {task : Task} {tasks : List Task} (h : s.Inv cfg) (hops : s.impl.ops = [])
    (htasks : s.impl.tasks = task :: tasks)
    (hguard : (∃ i < cfg.gpus, s.ReturnsAt i ∨ s.ExitsBetween i) → s.StillRuns cfg)
    (hu : { s.impl with tasks := tasks }.runTask cfg task = some u) :
    Inv cfg { s.noteMain with impl := u } := by
  have hmem : task ∈ s.impl.tasks := by
    rw [htasks]
    exact List.mem_cons_self
  have hwithin := h.within task hmem
  have hnone : ∀ id, .setStopping id ∉ s.impl.ops ∧ .checkStopping id ∉ s.impl.ops := by
    simp [hops]
  have hnote : (∀ i, task ≠ .startGpu i) → (∀ i, task ≠ .stopGpu i) → task ≠ .clearJob →
      s.noteMain = s := by
    intro hstart hstop hclear
    cases task <;> simp_all [noteMain]
  cases task with
  | clearJob =>
    cases hu
    refine h.next htasks rfl (fun id hid => absurd hid (hnone id).1)
      (fun id hid => absurd hid (hnone id).2) ?_ (Or.inl ⟨?_, ?_, rfl⟩) <;>
      simp [noteMain, hops, htasks]
  | startCpu i =>
    cases hu
    rw [hnote (by simp) (by simp) (by simp)]
    exact h.plain htasks (by simp) restartThread_tasks (fun id => launch_stopping)
      (fun id => AbstractMinerImpl.getState_restartThread id) restartThread_job
  | setThread i =>
    rw [hnote (by simp) (by simp) (by simp)]
    simp only [AbstractMinerImpl.runTask] at hu
    split at hu <;> cases hu
    · exact h.plain htasks (by simp) rfl (fun id => launch_stopping) (fun _ => rfl) rfl
    · exact h.plain htasks (by simp) rfl hnone (fun _ => rfl) rfl
  | stopCpu i =>
    cases hu
    rw [hnote (by simp) (by simp) (by simp)]
    refine h.next htasks rfl (fun id hid => absurd hid (hnone id).1)
      (fun id hid => absurd hid (hnone id).2) rfl ?_
    rcases h.stopCpu i hmem with hends | hcpu
    · exact Or.inr (Or.inr ⟨htasks ▸ hends, by simp⟩)
    · exact Or.inr (Or.inl (Or.inl hcpu))
  | startGpu i => exact h.startGpu_step hops htasks hwithin hu
  | stopGpu i => exact h.stopGpu_step hops htasks hu
  | quit id =>
    cases hu
    rw [hnote (by simp) (by simp) (by simp)]
    exact h.plain htasks (by simp) rfl hnone
      (fun j => AbstractMinerImpl.getState_updateThread ({ · with quit := true }) (fun _ => rfl) j)
      rfl
  | wait i =>
    obtain ⟨-, hu⟩ := Option.ite_none_right_eq_some.mp hu
    cases hu
    rw [hnote (by simp) (by simp) (by simp)]
    exact h.plain htasks (by simp) rfl hnone (fun _ => rfl) rfl
  | checkGpuThread i =>
    simp only [AbstractMinerImpl.runTask] at hu
    rw [hnote (by simp) (by simp) (by simp)]
    split at hu
    case isTrue hfinds =>
      cases hu
      have hruns : s.StillRuns cfg :=
        hguard ⟨i, hwithin, Or.inl ⟨hops, by rw [htasks]; rfl, hfinds.1, hfinds.2⟩⟩
      exact .returned rfl hops (hruns.congr rfl rfl fun _ => rfl)
    case isFalse =>
      cases hu
      exact h.plain htasks (by simp) rfl hnone (fun _ => rfl) rfl
  | checkRunning id =>
    rw [hnote (by simp) (by simp) (by simp)]
    exact h.checkRunning_step hops htasks hwithin hu
  | setJob job =>
    cases hu
    rw [hnote (by simp) (by simp) (by simp)]
    refine h.next htasks rfl (fun id hid => absurd hid (hnone id).1)
      (fun id hid => absurd hid (hnone id).2) rfl ?_
    rcases h.down with ⟨htimer, hlistening, -⟩ | hends | hruns
    · have hempty : job = .empty := by
        rcases h.setJob job (by rw [htasks]; rfl) with hon | hempty
        · rw [hlistening] at hon
          cases hon
        · exact hempty
      exact Or.inl ⟨htimer, hlistening, hempty⟩
    · exact Or.inr (Or.inr ⟨htasks ▸ hends, by simp⟩)
    · exact Or.inr (Or.inl (hruns.congr rfl rfl fun _ => rfl))
  | updateJob id =>
    simp only [AbstractMinerImpl.runTask] at hu
    rw [hnote (by simp) (by simp) (by simp)]
    split at hu <;> cases hu
    · exact h.plain htasks (by simp) rfl hnone (fun _ => rfl) rfl
    · exact h.plain htasks (by simp) rfl (fun j => by cases id <;> simp [workerUpdateJob])
        (fun _ => rfl) rfl
  | setFeeJob job | invalidate | restart random =>
    cases hu
    rw [hnote (by simp) (by simp) (by simp)]
    exact h.plain htasks (by simp) rfl hnone (fun _ => rfl) rfl

theorem Inv.call {c : Call} (h : s.Inv cfg) (hidle : s.impl.mainIdle)
    (hguard : s.Guard cfg (.impl (.call c))) :
    Inv cfg { s.noteCall c with impl := { s.impl with tasks := c.tasks cfg } } := by
  have hdown : s.TornDown ∨ s.StillRuns cfg := by
    rcases h.down with hd | ⟨front, hfront⟩ | hruns
    · exact Or.inl hd
    · rw [hidle.1] at hfront
      simp at hfront
    · exact Or.inr hruns
  refine ⟨Task.within_tasks (c := c), fun id hid => ?_, fun id hid => ?_,
    fun i hi => Task.stopGpu_tasks (c := c) hi,
    fun i hi => ?_, fun job hjob => ?_, fun job hjob => ?_, ?_⟩
  · simp [hidle.2] at hid
  · simp [hidle.2] at hid
  · refine (Task.stopCpu_tasks (c := c) hi).imp_right ?_
    rintro ⟨threadCount, rfl⟩
    rfl
  · obtain ⟨random, rfl, -⟩ := Task.setJob_tasks (c := c) (List.mem_of_head? hjob)
    exact hguard
  · exact (Task.setJob_tasks (c := c) (List.mem_of_mem_tail hjob)).elim fun random hc => hc.2 hjob
  · cases c with
    | startCpu threadCount | setThreadCount threadCount => exact Or.inr (Or.inr (Or.inl rfl))
    | stopCpu sync => exact Or.inr (Or.inl Task.ends_stopCpu)
    | stopGpu devices sync => exact Or.inr (Or.inl Task.ends_stopGpu)
    | startGpu devices | updateJob job random | updateFeeJob job =>
      exact hdown.imp_right fun hruns => Or.inr (hruns.congr rfl rfl fun _ => rfl)

theorem noteLoop_eq (id : WorkerId) :
    ∃ finished, s.noteLoop id = { s with finished := finished } := by
  cases id with
  | cpu i => exact ⟨s.finished, rfl⟩
  | gpu i =>
    rw [noteLoop]
    split
    · exact ⟨s.finished ++ [i], rfl⟩
    · exact ⟨s.finished, rfl⟩

/-- A step that is none of the main thread's, and after which the workers that were still to be
stopped still are. -/
theorem Inv.other {finished : List Nat} (h : s.Inv cfg) (htasks : u.tasks = s.impl.tasks)
    (hops : u.ops = s.impl.ops) (hjob : u.m_currentJob = s.impl.m_currentJob)
    (hruns : s.StillRuns cfg → StillRuns cfg { s with impl := u }) :
    Inv cfg { s with impl := u, finished := finished } := by
  refine h.keep htasks (fun op hop => hops ▸ hop) (Or.inl hops) rfl rfl ?_
  rintro (⟨htimer, hlistening, hempty⟩ | h)
  · exact Or.inl ⟨htimer, hlistening, hjob.trans hempty⟩
  · exact Or.inr (Or.inr ((hruns h).congr rfl rfl fun _ => rfl))

theorem Inv.loop {id : WorkerId} {inp : Input} (h : s.Inv cfg)
    (hguard : s.Guard cfg (.impl (.loop id inp))) (hu : s.impl.runLoop cfg inp id = some u) :
    Inv cfg { s.noteLoop id with impl := u } := by
  obtain ⟨finished, hnote⟩ := noteLoop_eq (s := s) id
  obtain ⟨r, -, hstep⟩ := AbstractMinerImpl.runLoop_cases hu
  rw [hnote]
  refine h.other hstep.main.1 hstep.main.2 hstep.jobs.1 fun hruns => ?_
  have hothers : ∀ j, j ≠ id → u.getState j = s.impl.getState j := by
    intro j hj
    rw [AbstractMinerImpl.getState, hstep.threads]
    rcases AbstractMinerImpl.getState_setState (s := s.impl) id r.m_state j with
      heq | ⟨heq, -⟩
    · exact heq
    · exact absurd heq hj
  cases id with
  | cpu i =>
    refine hruns.mono rfl rfl (fun j hj => ?_) fun j hj => ?_
    · by_cases hji : j = i
      · subst hji
        obtain ⟨q, hq, rfl⟩ := Option.map_eq_some_iff.mp hu
        have halive := (CpuLoop.step_alive hq (Or.inr (Or.inr hj))).2
        intro hexit
        refine halive (Eq.trans ?_ hexit)
        exact (AbstractMinerImpl.getState_setState_self (s := s.impl) (.cpu j) _).symm
      · rwa [hothers (.cpu j) (by simpa using hji)]
    · rwa [hothers (.gpu j) (by simp)]
  | gpu i =>
    by_cases hends : (s.impl.getState (.gpu i)).stops = false ∧ (u.getState (.gpu i)).stops = true
    · exact hguard u hu hends.1 hends.2
    · refine hruns.mono rfl rfl (fun j hj => ?_) fun j hj => ?_
      · rwa [hothers (.cpu j) (by simp)]
      · by_cases hji : j = i
        · subst hji
          exact Bool.eq_false_iff.mpr fun hstops => hends ⟨hj, hstops⟩
        · rwa [hothers (.gpu j) (by simpa using hji)]

theorem Inv.impl {e : AbstractMinerImpl.Event} (h : s.Inv cfg) (hguard : s.Guard cfg (.impl e))
    (ht : s.stepImpl cfg e = some t) : t.Inv cfg := by
  obtain ⟨u, hu, rfl⟩ := Option.map_eq_some_iff.mp ht
  cases e with
  | call c =>
    obtain ⟨⟨hidle, -⟩, hu⟩ := Option.ite_none_right_eq_some.mp hu
    cases hu
    exact h.call hidle hguard
  | main =>
    rcases AbstractMinerImpl.runMain_eq_some hu with
      ⟨op, ops, hops, rfl⟩ | ⟨task, tasks, hops, htasks, hu⟩
    · have hnote : s.noteMain = s := by simp [noteMain, hops]
      exact h.runOp hops hguard (by rw [note, hnote])
    · exact h.runTask hops htasks hguard hu
  | loop id inp => exact h.loop hguard hu
  | deliverStart id =>
    obtain ⟨-, hworker, hjobs, -⟩ := AbstractMinerImpl.deliverStart_cases hu
    obtain ⟨htasks, hops⟩ := AbstractMinerImpl.deliverStart_main hu
    refine h.other htasks hops hjobs.1 fun hruns => hruns.congr rfl rfl fun j => ?_
    rw [AbstractMinerImpl.getState, hworker]
    rfl
  | exitThread id =>
    obtain ⟨-, hu⟩ := Option.ite_none_right_eq_some.mp hu
    cases hu
    refine h.other rfl rfl rfl fun hruns => hruns.congr rfl rfl fun j => ?_
    exact AbstractMinerImpl.getState_updateThread ({ · with isFinished := true }) (fun _ => rfl) j
  | share =>
    obtain ⟨-, hu⟩ := Option.ite_none_right_eq_some.mp hu
    cases hu
    exact h.other rfl rfl rfl fun hruns => hruns.congr rfl rfl fun _ => rfl

theorem Inv.step (h : s.Inv cfg) (hguard : s.Guard cfg e)
    (ht : TimedMinerImpl.step cfg s e = some t) :
    t.Inv cfg := by
  have hkeep : ∀ {isGpuRunning : Nat → Bool} {finished deferred : List Nat},
      Inv cfg { s with
        isGpuRunning := isGpuRunning, finished := finished, deferred := deferred } := by
    intro isGpuRunning finished deferred
    refine h.keep rfl (fun _ h => h) (Or.inl rfl) rfl rfl (Or.imp id fun hruns => Or.inr ?_)
    exact hruns.congr rfl rfl fun _ => rfl
  cases e with
  | impl e => exact h.impl hguard ht
  | setGpuRunning i on =>
    obtain ⟨-, ht⟩ := Option.ite_none_right_eq_some.mp ht
    cases ht
    exact hkeep
  | finishedSignal lowMemory =>
    simp only [TimedMinerImpl.step] at ht
    split at ht
    case h_1 => cases ht
    case h_2 =>
      obtain ⟨-, ht⟩ := Option.ite_none_right_eq_some.mp ht
      cases ht
      exact hkeep
  | singleShot i =>
    obtain ⟨-, ht⟩ := Option.ite_none_right_eq_some.mp ht
    simp only at ht
    split at ht
    case isTrue =>
      refine Inv.impl (s := { s with deferred := s.deferred.erase i }) hkeep ?_ ht
      trivial
    case isFalse =>
      cases ht
      exact hkeep

theorem inv_new {gpuMiners : Nat → GpuMiner} {isGpuRunning : Nat → Bool} :
    (new gpuMiners isGpuRunning).Inv cfg := by
  refine ⟨?_, ?_, ?_, ?_, ?_, ?_, ?_, Or.inl ⟨rfl, rfl, rfl⟩⟩ <;> simp [new, AbstractMinerImpl.new]

/-- Once all workers are stopped and have exited, and all handlers have run, the miner is torn down,
whatever the order in which they were stopped, in a run whose steps all meet the guard. -/
theorem torn_down_when_stopped {gpuMiners : Nat → GpuMiner} {isGpuRunning : Nat → Bool}
    (hguard : Along (TimedMinerImpl.step cfg) (Guard cfg) (new gpuMiners isGpuRunning) es)
    (hrun : exec (TimedMinerImpl.step cfg) (new gpuMiners isGpuRunning) es = some t)
    (hquiet : t.Quiet cfg) (hstopped : t.AllStopped cfg) : t.TornDown := by
  have hinv : t.Inv cfg :=
    exec_invariant (fun _ _ _ hI hC h => hI.step hC h) inv_new hguard hrun
  rcases hinv.down with hd | ⟨front, hfront⟩ | hcpu | ⟨i, hi, hgpu⟩ | ⟨i, hi, hcpu⟩ | ⟨i, hi, hgpu⟩
  · exact hd
  · rw [hquiet.mainIdle.1] at hfront
    simp at hfront
  · rw [hstopped.1] at hcpu
    cases hcpu
  · rw [hstopped.2 i hi] at hgpu
    cases hgpu
  · exact absurd (hquiet.cpus i hi) hcpu
  · rw [hquiet.gpus i hi] at hgpu
    cases hgpu

def oneEach : MinerConfig where
  cpus := 1
  gpus := 1
  backend := ⟨false, cryptonoteSearch id, ⟨id, id, fun _ _ => none, fun _ _ => none⟩⟩
  m_startNonceIsRandom := false

def oneOcl : TimedMinerImpl := new (fun _ => .cryptonoteOcl .new) fun _ => false

def mains (n : Nat) : List Event := List.replicate n (.impl .main)

def loops (id : WorkerId) (n : Nat) : List Event :=
  List.replicate n (.impl (.loop id ⟨false, .ok, 0, none, 0⟩))

def bothStarted : List Event :=
  [.setGpuRunning 0 true, .impl (.call (.startGpu [0]))] ++ mains 5 ++
    [.impl (.deliverStart (.gpu 0))] ++ loops (.gpu 0) 2 ++ [.impl (.call (.startCpu 1))] ++
    mains 5 ++ [.impl (.deliverStart (.cpu 0))] ++ loops (.cpu 0) 1

def bothExit : List Event :=
  loops (.cpu 0) 1 ++ loops (.gpu 0) 4 ++ [.finishedSignal false, .singleShot 0]

def cpuFirst : List Event :=
  bothStarted ++ [.impl (.call (.stopCpu false))] ++ mains 2 ++
    [.impl (.call (.stopGpu [0] false))] ++ mains 6 ++ bothExit

def gpuFirst : List Event :=
  bothStarted ++ [.impl (.call (.stopGpu [0] false))] ++ mains 5 ++
    [.impl (.call (.stopCpu false))] ++ mains 2 ++ bothExit

theorem torn_down_cpu_first :
    ∃ t, exec (TimedMinerImpl.step oneEach) oneOcl cpuFirst = some t ∧ t.TornDown := by
  have hrun : (exec (TimedMinerImpl.step oneEach) oneOcl cpuFirst).map
      (fun t => decide (t.Quiet oneEach ∧ t.AllStopped oneEach)) = some true := by decide +kernel
  obtain ⟨t, ht, hdone⟩ := Option.map_eq_some_iff.mp hrun
  obtain ⟨hquiet, hstopped⟩ := of_decide_eq_true hdone
  exact ⟨t, ht, torn_down_when_stopped (by decide +kernel) ht hquiet hstopped⟩

/-- When the GPU is stopped first, the miner stays as it is. -/
theorem not_torn_down_gpu_first :
    ¬ ∀ (cfg : MinerConfig) (gpuMiners : Nat → GpuMiner) (isGpuRunning : Nat → Bool)
      (es : List Event) (t : TimedMinerImpl),
        exec (TimedMinerImpl.step cfg) (new gpuMiners isGpuRunning) es = some t →
          t.Quiet cfg → t.AllStopped cfg → t.TornDown := by
  intro h
  have hrun : (exec (TimedMinerImpl.step oneEach) oneOcl gpuFirst).map
      (fun t => decide (t.Quiet oneEach ∧ t.AllStopped oneEach ∧ ¬ t.TornDown)) = some true := by
    decide +kernel
  obtain ⟨t, ht, hdone⟩ := Option.map_eq_some_iff.mp hrun
  obtain ⟨hquiet, hstopped, hnot⟩ := of_decide_eq_true hdone
  exact hnot (h oneEach _ _ gpuFirst t ht hquiet hstopped)

end TimedMinerImpl
end MinerGate
