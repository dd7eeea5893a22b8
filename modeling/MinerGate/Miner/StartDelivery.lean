import Mathlib.Data.List.Nodup
import MinerGate.Miner.StartStop

/-!
# What a start delivers

`startCpu`, `startGpu` and `setThreadCount` give a worker the jobs of the miner before they
start it. A GPU worker takes a job only in the state `Mining` or `UpdateJob` and a fee job
only in the state `Mining`, and a fee job that comes later is stored but given to nobody.
-/

namespace MinerGate

set_option autoImplicit false

open Transition

/-- The calls that bring no job of the pool and neither stop nor start a GPU worker. -/
def Call.leavesGpus : Call → Bool
  | startCpu _ | setThreadCount _ | updateFeeJob _ => true
  | _ => false

/-- The statements of `startGpu` and of those calls. -/
def Task.leavesJob : Task → Bool
  | .startCpu _ | .setThread _ | .stopCpu _ | .startGpu _ | .setFeeJob _ => true
  | _ => false

theorem CpuLoop.step_idle {l : CpuLoop} {search : Search} {sh : Shared} {inp : Input}
    {r : Result CpuLoop} (h : l.step search sh inp = some r) (hidle : r.loop.pc = .idle) :
    r.m_state ≠ .Mining := by
  cases step_cases h with
  | goes hgoes =>
    cases hgoes with
    | exit hexit | exitCopied hexit =>
      have hmining : sh.m_state ≠ .Mining := by
        rw [hexit]
        exact MinerThreadState.noConfusion
      exact hmining
    | _ => cases hidle
  | _ => cases hidle

theorem GpuLoop.step_idle {l : GpuLoop} {hashing : Hashing} {sh : Shared} {inp : Input}
    {r : Result GpuLoop} (h : l.step hashing sh inp = some r) (hidle : r.loop.pc = .idle) :
    r.m_state ≠ .Mining := by
  obtain ⟨pc, miner⟩ := l
  cases pc with
  | idle => cases h
  | entry =>
    simp only [step] at h
    split at h
    case isTrue hstopping =>
      cases h
      exact fun hm => by cases hstopping.symm.trans hm
    case isFalse =>
      cases h
      cases hidle
  | setExit =>
    cases h
    exact fun hm => by cases hm
  | setUpdate | drain =>
    cases h
    cases hidle
  | run =>
    simp only [step] at h
    split at h
    case h_1 =>
      cases h
      cases hidle
    case h_2 =>
      split at h <;> cases h <;> cases hidle

namespace AbstractMinerImpl

/-- The worker's thread is inside `startMining`, or has a start event in its queue. -/
def Started (s : AbstractMinerImpl) (id : WorkerId) : Prop :=
  s.isIdle id = false ∨ 0 < (s.threads id).starts

def HoldsFeeJob (s : AbstractMinerImpl) (id : WorkerId) : Prop :=
  (s.threads id).worker.m_feeJob = s.m_feeJob

instance (s : AbstractMinerImpl) (id : WorkerId) : Decidable (s.Started id) :=
  inferInstanceAs (Decidable (_ ∨ _))

instance (s : AbstractMinerImpl) (id : WorkerId) : Decidable (s.HoldsFeeJob id) :=
  inferInstanceAs (Decidable (_ = _))

/-- A fee job is stored only while the worker has it already or is not started, and a launch of a
GPU worker that does not take the fee job finds that it has it. -/
def FeeJobReaches (id : WorkerId) (s : AbstractMinerImpl) (e : Event) : Prop :=
  match e, s.ops, s.tasks with
  | .main, .checkFeeJob j :: _, _ => j = id → s.getState id = .Mining ∨ s.HoldsFeeJob id
  | .main, [], .setFeeJob job :: _ => s.Started id → (s.threads id).worker.m_feeJob = job
  | _, _, _ => True

instance (id : WorkerId) (s : AbstractMinerImpl) (e : Event) :
    Decidable (FeeJobReaches id s e) := by
  unfold FeeJobReaches
  split <;> infer_instance

/-- A launch of the worker that is under way has the access still to make, or has `P`. -/
def LaunchesWith (s : AbstractMinerImpl) (id : WorkerId) (op : Op) (P : Prop) : Prop :=
  .start id ∉ s.ops ∨ s.ops <:+ launch id ∧ (op ∈ s.ops ∨ P)

structure FeeJobKept (s : AbstractMinerImpl) (id : WorkerId) : Prop where
  mining : s.getState id = .Mining → s.isIdle id = false
  started : s.Started id → s.HoldsFeeJob id
  launch : s.LaunchesWith id (.storeFeeJob id) (s.HoldsFeeJob id)

section Steps
variable {cfg : MinerConfig} {s t : AbstractMinerImpl} {id : WorkerId}

theorem isIdle_congr {j : WorkerId} (h : t.loop j = s.loop j) : t.isIdle j = s.isIdle j := by
  cases j with
  | cpu i | gpu i =>
    simp only [loop, Loop.cpu.injEq, Loop.gpu.injEq] at h
    simp only [isIdle, h]

theorem step_loop_idle {inp : Input} {r : Result Loop}
    (h : (s.loop id).step cfg.backend (s.shared cfg id) inp = some r) (hloop : t.loop id = r.loop)
    (hidle : t.isIdle id = true) : r.m_state ≠ .Mining := by
  cases id with
  | cpu i =>
    obtain ⟨q, hq, rfl⟩ := Option.map_eq_some_iff.mp h
    obtain hloop : t.cpuLoops i = q.loop := Loop.cpu.inj hloop
    exact CpuLoop.step_idle hq (hloop ▸ of_decide_eq_true hidle)
  | gpu i =>
    obtain ⟨q, hq, rfl⟩ := Option.map_eq_some_iff.mp h
    obtain hloop : t.gpuLoops i = q.loop := Loop.gpu.inj hloop
    exact GpuLoop.step_idle hq (hloop ▸ of_decide_eq_true hidle)

theorem not_idle_of_step {inp : Input} {r : Result Loop}
    (h : (s.loop id).step cfg.backend (s.shared cfg id) inp = some r) : s.isIdle id = false := by
  cases id with
  | cpu i =>
    obtain ⟨q, hq, -⟩ := Option.map_eq_some_iff.mp h
    refine decide_eq_false fun hpc => ?_
    simp only [CpuLoop.step, hpc] at hq
    cases hq
  | gpu i =>
    obtain ⟨q, hq, -⟩ := Option.map_eq_some_iff.mp h
    refine decide_eq_false fun hpc => ?_
    simp only [GpuLoop.step, hpc] at hq
    cases hq

theorem runLoop_feeJobKept {inp : Input} {j : WorkerId} (hs : s.FeeJobKept id)
    (ht : s.runLoop cfg inp j = some t) : t.FeeJobKept id := by
  obtain ⟨r, hr, hstep⟩ := runLoop_cases ht
  have hfee : t.HoldsFeeJob id ↔ s.HoldsFeeJob id := by
    rw [HoldsFeeJob, HoldsFeeJob, hstep.threads, hstep.jobs.2]
    by_cases hj : id = j
    · subst hj
      simp [setState, WorkerThread.setState]
    · rw [setState, updateThread_of_ne hj]
  have hstarts : (t.threads id).starts = (s.threads id).starts := by
    rw [hstep.threads]
    by_cases hj : id = j
    · subst hj
      simp [setState, WorkerThread.setState]
    · rw [setState, updateThread_of_ne hj]
  refine ⟨fun hm => ?_, fun hst => hfee.mpr (hs.started ?_), ?_⟩
  · by_cases hj : id = j
    · subst hj
      by_contra hidle
      refine step_loop_idle hr hstep.loop (Bool.eq_true_of_not_eq_false hidle) ?_
      simpa [getState, hstep.threads, setState, WorkerThread.setState] using hm
    · rw [isIdle_congr (hstep.others id hj)]
      apply hs.mining
      rwa [getState, hstep.threads, setState, updateThread_of_ne hj] at hm
  · by_cases hj : id = j
    · subst hj
      exact Or.inl (not_idle_of_step hr)
    · rwa [Started, isIdle_congr (hstep.others id hj), hstarts] at hst
  · have hlaunch := hs.launch
    rwa [LaunchesWith, hstep.main.2, hfee]

/-- What `f` leaves alone in every thread it leaves alone in all of them. -/
theorem updateThread_keeps {β : Type} (g : WorkerThread → β) {j : WorkerId}
    {f : WorkerThread → WorkerThread} (hf : ∀ th, g (f th) = g th) :
    g ((s.updateThread j f).threads id) = g (s.threads id) := by
  by_cases hj : id = j
  · subst hj
    rw [updateThread_self, hf]
  · rw [updateThread_of_ne hj]

theorem runOp_storeFeeJob : (s.runOp (.storeFeeJob id)).HoldsFeeJob id := by
  simp [runOp, HoldsFeeJob, updateThread]

theorem runOp_holdsFeeJob {op : Op} (hs : s.HoldsFeeJob id) : (s.runOp op).HoldsFeeJob id := by
  cases op with
  | checkMining j | checkUpdateJob j | checkFeeJob j | checkStopping j =>
    simp only [runOp]
    split <;> exact hs
  | storeJob j | setUpdateJob j | start j | setStopping j =>
    simp only [HoldsFeeJob, runOp, setState]
    refine Eq.trans (updateThread_keeps (·.worker.m_feeJob) ?_) hs
    exact fun _ => rfl
  | storeFeeJob j =>
    by_cases hj : id = j
    · subst hj
      exact runOp_storeFeeJob
    · simp only [runOp, HoldsFeeJob]
      rw [updateThread_of_ne hj]
      exact hs

theorem runOp_started {op : Op} (hop : op ≠ .start id) (ht : (s.runOp op).Started id) :
    s.Started id := by
  cases op with
  | checkMining j | checkUpdateJob j | checkFeeJob j | checkStopping j =>
    simp only [runOp] at ht
    split at ht <;> exact ht
  | storeJob j | setUpdateJob j | setStopping j | storeFeeJob j =>
    refine ht.imp (fun hidle => by cases id <;> exact hidle) fun hstarts => ?_
    simp only [runOp, setState] at hstarts
    refine lt_of_lt_of_eq hstarts (updateThread_keeps (·.starts) ?_)
    exact fun _ => rfl
  | start j =>
    refine ht.imp (fun hidle => by cases id <;> exact hidle) fun hstarts => ?_
    have hj : id ≠ j := fun heq => hop (by rw [heq])
    rwa [runOp, updateThread_of_ne hj] at hstarts

theorem restartThread_keeps {β : Type} (g : WorkerThread → β) {j : WorkerId}
    (hg : ∀ th, g { th with quit := false, isFinished := false } = g th) :
    g ((s.restartThread j).threads id) = g (s.threads id) := by
  rw [restartThread]
  split
  · exact updateThread_keeps g hg
  · rfl

/-- A statement leaves the jobs of the workers and their start events alone. -/
theorem runTask_keeps {β : Type} (g : WorkerThread → β) (id : WorkerId) {task : Task}
    (hg : ∀ th m_state quit isFinished,
      g ⟨{ th.worker with m_state := m_state }, th.starts, quit, isFinished⟩ = g th)
    (ht : s.runTask cfg task = some t) : g (t.threads id) = g (s.threads id) := by
  cases task with
  | startCpu j =>
    cases ht
    exact restartThread_keeps g fun th => hg th th.worker.m_state false false
  | startGpu j =>
    simp only [runTask] at ht
    split at ht <;> cases ht
    · rfl
    · exact restartThread_keeps g fun th => hg th th.worker.m_state false false
  | stopCpu j =>
    cases ht
    exact updateThread_keeps g fun th => hg th .Exit th.quit th.isFinished
  | quit j =>
    cases ht
    exact updateThread_keeps g fun th => hg th th.worker.m_state true th.isFinished
  | checkRunning j =>
    cases j <;> simp only [runTask] at ht <;> split at ht <;> cases ht <;> rfl
  | setThread j | stopGpu j | checkGpuThread j | updateJob j | wait j =>
    simp only [runTask] at ht
    split at ht <;> cases ht <;> rfl
  | clearJob | setJob job | setFeeJob job | invalidate | restart random =>
    cases ht
    rfl

theorem runTask_jobs {task : Task} (ht : s.runTask cfg task = some t) :
    ((∀ job, task ≠ .setJob job) → task ≠ .clearJob → t.m_currentJob = s.m_currentJob) ∧
      ((∀ job, task ≠ .setFeeJob job) → t.m_feeJob = s.m_feeJob) := by
  have hrestart : ∀ j, (s.restartThread j).m_currentJob = s.m_currentJob ∧
      (s.restartThread j).m_feeJob = s.m_feeJob := by
    intro j
    rw [restartThread]
    split <;> exact ⟨rfl, rfl⟩
  cases task with
  | setFeeJob job =>
    cases ht
    exact ⟨fun _ _ => rfl, fun h => absurd rfl (h job)⟩
  | setJob job =>
    cases ht
    exact ⟨fun h => absurd rfl (h job), fun _ => rfl⟩
  | clearJob =>
    cases ht
    exact ⟨fun _ h => absurd rfl h, fun _ => rfl⟩
  | startCpu j =>
    cases ht
    exact ⟨fun _ _ => (hrestart _).1, fun _ => (hrestart _).2⟩
  | startGpu j =>
    simp only [runTask] at ht
    split at ht <;> cases ht
    · exact ⟨fun _ _ => rfl, fun _ => rfl⟩
    · exact ⟨fun _ _ => (hrestart _).1, fun _ => (hrestart _).2⟩
  | stopCpu j | quit j | invalidate | restart random =>
    cases ht
    exact ⟨fun _ _ => rfl, fun _ => rfl⟩
  | checkRunning j =>
    cases j <;> simp only [runTask] at ht <;> split at ht <;> cases ht <;>
      exact ⟨fun _ _ => rfl, fun _ => rfl⟩
  | setThread j | stopGpu j | checkGpuThread j | updateJob j | wait j =>
    simp only [runTask] at ht
    split at ht <;> cases ht <;> exact ⟨fun _ _ => rfl, fun _ => rfl⟩

/-- The accesses a statement goes on to launch a worker, or do not start one. -/
theorem runTask_ops {task : Task} (hops : s.ops = []) (ht : s.runTask cfg task = some t) :
    (∃ j, t.ops = launch j) ∨ ∀ j, .start j ∉ t.ops := by
  cases task with
  | startCpu j =>
    cases ht
    exact Or.inl ⟨_, rfl⟩
  | startGpu j | setThread j =>
    simp only [runTask] at ht
    split at ht <;> cases ht
    first
      | exact Or.inl ⟨_, rfl⟩
      | simp [hops]
    first
      | exact Or.inl ⟨_, rfl⟩
      | simp [hops]
  | stopGpu j =>
    simp only [runTask] at ht
    split at ht <;> cases ht <;> simp [hops]
  | updateJob j =>
    simp only [runTask] at ht
    split at ht <;> cases ht
    · simp [hops]
    · cases j <;> simp [workerUpdateJob]
  | checkRunning j =>
    cases j <;> simp only [runTask] at ht <;> split at ht <;> cases ht <;> simp [hops]
  | checkGpuThread j | wait j =>
    simp only [runTask] at ht
    split at ht <;> cases ht <;> simp [hops]
  | _ =>
    cases ht
    simp [hops, setState, updateThread]

theorem isIdle_of_loops (h : t.cpuLoops = s.cpuLoops ∧ t.gpuLoops = s.gpuLoops) :
    t.isIdle id = s.isIdle id := by
  cases id <;> simp only [isIdle, h.1, h.2]

theorem mining_of_mainStep (hst : MainStep s t)
    (hs : s.getState id = .Mining → s.isIdle id = false) (hm : t.getState id = .Mining) :
    t.isIdle id = false := by
  rw [isIdle_of_loops hst.loops]
  rcases hst.state id with heq | hne
  · exact hs (heq ▸ hm)
  · exact absurd hm hne

/-- In a launch the filters alone leave accesses out. -/
theorem runOp_launch {op : Op} {ops : List Op} (hsuffix : op :: ops <:+ launch id) :
    ({ s with ops := ops }.runOp op).ops <:+ launch id ∧
      ∀ o ∈ ops, o ∉ ({ s with ops := ops }.runOp op).ops →
        (op = .checkMining id ∧ o = .checkUpdateJob id) ∨
        (op = .checkUpdateJob id ∧ s.getState id ≠ .UpdateJob ∧
          o ≠ .storeFeeJob id ∧ o ≠ .start id) ∨
        (op = .checkFeeJob id ∧ s.getState id ≠ .Mining ∧ o = .storeFeeJob id) := by
  have hrest : ops <:+ launch id := (List.suffix_cons op ops).trans hsuffix
  have hfirst : ∀ {o o' : Op} {rest : List Op}, o ∈ o' :: rest → o ∉ rest → o = o' :=
    fun ho hno => (List.mem_cons.mp ho).resolve_right hno
  cases op with
  | checkMining j =>
    simp only [runOp]
    split
    · refine ⟨(List.drop_suffix 1 ops).trans hrest, fun o ho hno => Or.inl ?_⟩
      cases id with
      | cpu i =>
        simp [launch, workerUpdateJob, workerUpdateFeeJob, List.suffix_cons_iff] at hsuffix
      | gpu i =>
        simp only [launch, workerUpdateJob, workerUpdateFeeJob, List.cons_append, List.nil_append,
          List.suffix_cons_iff, List.suffix_nil, List.cons.injEq, reduceCtorEq, or_false,
          false_and, Op.checkMining.injEq] at hsuffix
        obtain ⟨rfl, rfl⟩ := hsuffix
        exact ⟨rfl, hfirst ho hno⟩
    · exact ⟨hrest, fun _ ho hno => absurd ho hno⟩
  | checkUpdateJob j =>
    simp only [runOp]
    split
    case isTrue => exact ⟨hrest, fun _ ho hno => absurd ho hno⟩
    case isFalse hm =>
      refine ⟨(List.drop_suffix 2 ops).trans hrest, fun o ho hno => Or.inr (Or.inl ?_)⟩
      cases id with
      | cpu i =>
        simp [launch, workerUpdateJob, workerUpdateFeeJob, List.suffix_cons_iff] at hsuffix
      | gpu i =>
        simp only [launch, workerUpdateJob, workerUpdateFeeJob, List.cons_append, List.nil_append,
          List.suffix_cons_iff, List.suffix_nil, List.cons.injEq, reduceCtorEq, or_false,
          false_and, false_or, Op.checkUpdateJob.injEq] at hsuffix
        obtain ⟨rfl, rfl⟩ := hsuffix
        refine ⟨rfl, hm, ?_, ?_⟩
        · rintro rfl
          exact hno (by simp)
        · rintro rfl
          exact hno (by simp)
  | checkFeeJob j =>
    simp only [runOp]
    split
    case isTrue => exact ⟨hrest, fun _ ho hno => absurd ho hno⟩
    case isFalse hm =>
      refine ⟨(List.drop_suffix 1 ops).trans hrest, fun o ho hno => Or.inr (Or.inr ?_)⟩
      cases id with
      | cpu i =>
        simp [launch, workerUpdateJob, workerUpdateFeeJob, List.suffix_cons_iff] at hsuffix
      | gpu i =>
        simp only [launch, workerUpdateJob, workerUpdateFeeJob, List.cons_append, List.nil_append,
          List.suffix_cons_iff, List.suffix_nil, List.cons.injEq, reduceCtorEq, or_false,
          false_and, false_or, Op.checkFeeJob.injEq] at hsuffix
        obtain ⟨rfl, rfl⟩ := hsuffix
        exact ⟨rfl, hm, hfirst ho hno⟩
  | checkStopping j =>
    simp only [runOp]
    split <;> exact ⟨hrest, fun _ ho hno => absurd ho hno⟩
  | storeJob j | setUpdateJob j | storeFeeJob j | start j | setStopping j =>
    exact ⟨hrest, fun _ ho hno => absurd ho hno⟩

theorem runOp_launchesWith {op o : Op} {ops : List Op} {P Q : Prop} (hops : s.ops = op :: ops)
    (hs : s.LaunchesWith id o P) (hkeep : P → Q) (hdone : op = o → Q)
    (hdropped : o ∈ ops → o ∉ ({ s with ops := ops }.runOp op).ops →
      op :: ops <:+ launch id → Q) :
    ({ s with ops := ops }.runOp op).LaunchesWith id o Q := by
  rcases hs with hno | ⟨hsuffix, hs⟩
  · refine Or.inl fun hmem => hno ?_
    rw [hops]
    exact List.mem_cons_of_mem _ (runOp_ops_subset _ hmem)
  · rw [hops] at hsuffix hs
    refine Or.inr ⟨(runOp_launch (s := s) hsuffix).1, ?_⟩
    rcases hs with hmem | hs
    · rcases List.mem_cons.mp hmem with rfl | hmem
      · exact Or.inr (hdone rfl)
      · by_cases hstays : o ∈ ({ s with ops := ops }.runOp op).ops
        · exact Or.inl hstays
        · exact Or.inr (hdropped hmem hstays hsuffix)
    · exact Or.inr (hkeep hs)

/-- A launch begins with all its accesses still to make. -/
theorem launchesWith_of_ops {o : Op} {P : Prop}
    (h : (∃ j, s.ops = launch j) ∨ ∀ j, .start j ∉ s.ops) (ho : o ∈ launch id) :
    s.LaunchesWith id o P := by
  rcases h with ⟨j, hlaunch⟩ | hno
  · rw [LaunchesWith, hlaunch]
    by_cases hj : j = id
    · subst hj
      exact Or.inr ⟨List.suffix_rfl, Or.inl ho⟩
    · exact Or.inl fun hmem => hj (revives_launch (j := id) _ hmem rfl).symm
  · exact Or.inl (hno id)

theorem start_suffix {ops : List Op} (h : .start id :: ops <:+ launch id) : ops = [] := by
  cases id <;>
    simpa [launch, workerUpdateJob, workerUpdateFeeJob, List.suffix_cons_iff] using h

theorem runOp_feeJobKept {op : Op} {ops : List Op} (hops : s.ops = op :: ops)
    (hs : s.FeeJobKept id) (hreaches : FeeJobReaches id s .main) :
    ({ s with ops := ops }.runOp op).FeeJobKept id := by
  have hkeep : s.HoldsFeeJob id → ({ s with ops := ops }.runOp op).HoldsFeeJob id :=
    fun h => runOp_holdsFeeJob (s := { s with ops := ops }) h
  refine ⟨mining_of_mainStep (MainStep.runOp { s with ops := ops } op) hs.mining, fun hst => ?_, ?_⟩
  · apply hkeep
    by_cases hop : op = .start id
    · subst hop
      obtain ⟨hsuffix, hs⟩ := hs.launch.resolve_left (by simp [hops])
      rw [hops] at hsuffix hs
      obtain rfl := start_suffix hsuffix
      exact hs.resolve_left (by simp)
    · exact hs.started (runOp_started (s := { s with ops := ops }) hop hst)
  · refine runOp_launchesWith hops hs.launch hkeep (fun hop => hop ▸ runOp_storeFeeJob) ?_
    intro hmem hdropped hsuffix
    rcases (runOp_launch (s := s) hsuffix).2 _ hmem hdropped with
      ⟨-, hne⟩ | ⟨-, -, hne, -⟩ | ⟨rfl, hm, -⟩
    · cases hne
    · exact absurd rfl hne
    · simp only [FeeJobReaches, hops] at hreaches
      exact hkeep ((hreaches trivial).resolve_left hm)

theorem runMain_feeJobKept (hs : s.FeeJobKept id) (hreaches : FeeJobReaches id s .main)
    (ht : s.runMain cfg = some t) : t.FeeJobKept id := by
  rcases runMain_eq_some ht with ⟨op, ops, hops, rfl⟩ | ⟨task, tasks, hops, htasks, ht⟩
  · exact runOp_feeJobKept hops hs hreaches
  · cases task with
    | setFeeJob job =>
      cases ht
      refine ⟨hs.mining, fun hst => ?_, Or.inl (by simp [hops])⟩
      simp only [FeeJobReaches, hops, htasks] at hreaches
      exact hreaches hst
    | setJob job =>
      cases ht
      exact ⟨hs.mining, hs.started, hs.launch⟩
    | _ =>
      have hstep := MainStep.runTask (by simp) ht
      have hworker := runTask_keeps (·.worker.m_feeJob) id (fun _ _ _ _ => rfl) ht
      have hstarts := runTask_keeps (·.starts) id (fun _ _ _ _ => rfl) ht
      have hholds : s.HoldsFeeJob id → t.HoldsFeeJob id := fun h =>
        (hworker.trans h).trans ((runTask_jobs ht).2 (by simp)).symm
      refine ⟨mining_of_mainStep hstep hs.mining, fun hst => hholds (hs.started ?_), ?_⟩
      · rw [Started, isIdle_of_loops hstep.loops, hstarts] at hst
        exact hst
      · refine launchesWith_of_ops (runTask_ops (by exact hops) ht) ?_
        cases id <;> simp [launch, workerUpdateJob, workerUpdateFeeJob]

theorem deliverStart_feeJobKept {j : WorkerId} (hs : s.FeeJobKept id)
    (ht : s.deliverStart j = some t) : t.FeeJobKept id := by
  obtain ⟨hloops, hworkers, ⟨-, hfee⟩, -⟩ := deliverStart_cases ht
  obtain ⟨hready, hcases⟩ := Option.ite_none_left_eq_some.mp ht
  rw [not_or] at hready
  have hholds : t.HoldsFeeJob id ↔ s.HoldsFeeJob id := by
    rw [HoldsFeeJob, HoldsFeeJob, hworkers, hfee]
  have hother : id ≠ j → (s.updateThread j fun th => { th with starts := th.starts - 1 }).threads
      id = s.threads id := updateThread_of_ne
  have hops : t.ops = s.ops ∧ (id ≠ j → t.loop id = s.loop id ∧ t.threads id = s.threads id) := by
    cases j with
    | cpu i =>
      obtain ⟨-, hcases⟩ := Option.ite_none_right_eq_some.mp hcases
      cases hcases
      refine ⟨rfl, fun hid => ⟨?_, hother hid⟩⟩
      cases id with
      | cpu k =>
        have hk : k ≠ i := fun heq => hid (by rw [heq])
        simp [loop, hk]
      | gpu k => rfl
    | gpu i =>
      simp only at hcases
      split at hcases <;> cases hcases
      · refine ⟨rfl, fun hid => ⟨?_, hother hid⟩⟩
        cases id with
        | cpu k => rfl
        | gpu k =>
          have hk : k ≠ i := fun heq => hid (by rw [heq])
          simp [loop, hk]
      · exact ⟨rfl, fun hid => ⟨rfl, hother hid⟩⟩
  refine ⟨fun hm => ?_, fun hst => hholds.mpr (hs.started ?_), ?_⟩
  · rw [getState, hworkers] at hm
    rcases hloops id with heq | henter
    · rw [isIdle_congr heq]
      exact hs.mining hm
    · cases id with
      | cpu i | gpu i =>
        obtain ⟨-, henter⟩ := Option.ite_none_right_eq_some.mp henter
        simp only [loop, Option.some.injEq, Loop.cpu.injEq, Loop.gpu.injEq] at henter
        simp [isIdle, ← henter, CpuLoop.goto, GpuLoop.goto]
  · by_cases hid : id = j
    · subst hid
      exact Or.inr (Nat.pos_of_ne_zero hready.1)
    · obtain ⟨hloop, hthread⟩ := hops.2 hid
      rwa [Started, isIdle_congr hloop, hthread] at hst
  · have hlaunch := hs.launch
    rwa [LaunchesWith, hops.1, hholds]

theorem step_feeJobKept {e : Event} (hs : s.FeeJobKept id) (hreaches : FeeJobReaches id s e)
    (h : step cfg s e = some t) : t.FeeJobKept id := by
  cases e with
  | call c =>
    obtain ⟨-, h⟩ := Option.ite_none_right_eq_some.mp h
    cases h
    exact ⟨hs.mining, hs.started, hs.launch⟩
  | main => exact runMain_feeJobKept hs hreaches h
  | deliverStart j => exact deliverStart_feeJobKept hs h
  | exitThread j =>
    obtain ⟨-, h⟩ := Option.ite_none_right_eq_some.mp h
    cases h
    have hworker : ((s.updateThread j ({ · with isFinished := true })).threads id).worker =
        (s.threads id).worker := updateThread_keeps (·.worker) fun _ => rfl
    have hstarts : ((s.updateThread j ({ · with isFinished := true })).threads id).starts =
        (s.threads id).starts := updateThread_keeps (·.starts) fun _ => rfl
    refine ⟨fun hm => ?_, fun hst => ?_, ?_⟩
    · rw [getState, hworker] at hm
      rw [isIdle_of_loops ⟨rfl, rfl⟩]
      exact hs.mining hm
    · rw [Started, isIdle_of_loops ⟨rfl, rfl⟩, hstarts] at hst
      rw [HoldsFeeJob, hworker]
      exact hs.started hst
    · rw [LaunchesWith, HoldsFeeJob, hworker]
      exact hs.launch
  | loop j inp => exact runLoop_feeJobKept hs h
  | share =>
    obtain ⟨-, h⟩ := Option.ite_none_right_eq_some.mp h
    cases h
    exact ⟨hs.mining, hs.started, hs.launch⟩

theorem new_feeJobKept (gpuMiners : Nat → GpuMiner) : (new gpuMiners).FeeJobKept id := by
  exact ⟨fun hm => (by cases hm), fun _ => rfl, Or.inl (by simp [new])⟩

end Steps

/-- In every run in which the fee jobs reach a worker when it is started, it mines with the latest
one. -/
theorem mining_holds_feeJob {cfg : MinerConfig} {gpuMiners : Nat → GpuMiner} {es : List Event}
    {s : AbstractMinerImpl} {id : WorkerId} (hrun : exec (step cfg) (new gpuMiners) es = some s)
    (hreaches : Along (step cfg) (FeeJobReaches id) (new gpuMiners) es) :
    s.getState id = .Mining → (s.threads id).worker.m_feeJob = s.m_feeJob := by
  have hs : s.FeeJobKept id :=
    exec_invariant (I := fun u => u.FeeJobKept id) (fun _ _ _ hI hC h => step_feeJobKept hI hC h)
      (new_feeJobKept gpuMiners) hreaches hrun
  exact fun hm => hs.started (Or.inl (hs.mining hm))

def oneFeeWorker : MinerConfig where
  cpus := 1
  gpus := 0
  backend := ⟨true, cryptonoteSearch id, ⟨id, id, fun _ _ => none, fun _ _ => none⟩⟩
  m_startNonceIsRandom := false

/-- The pool's job arrives, and the worker is started on it. -/
def mineOne : List Event :=
  .call (.updateJob ⟨[1], [1], []⟩ 0) :: List.replicate 4 .main ++ startOne ++
    .deliverStart (.cpu 0) :: loopSteps 5

def storeFeeJob : List Event := [.call (.updateFeeJob ⟨[2], [2], []⟩), .main]

theorem fee_job_before_start_reaches :
    ∃ s, exec (step oneFeeWorker) (new fun _ => .ethOcl .new) (storeFeeJob ++ mineOne) = some s ∧
      s.getState (.cpu 0) = .Mining ∧ s.m_feeJob = ⟨[2], [2], []⟩ ∧
      (s.threads (.cpu 0)).worker.m_feeJob = s.m_feeJob := by
  have hmap : (exec (step oneFeeWorker) (new fun _ => .ethOcl .new) (storeFeeJob ++ mineOne)).map
      (fun s => (s.getState (.cpu 0), s.m_feeJob)) = some (.Mining, ⟨[2], [2], []⟩) := by
    decide +kernel
  obtain ⟨s, hrun, hp⟩ := Option.map_eq_some_iff.mp hmap
  simp only [Prod.mk.injEq] at hp
  exact ⟨s, hrun, hp.1, hp.2, mining_holds_feeJob hrun (by decide +kernel) hp.1⟩

/-- A fee job that comes while the worker is mining is not given to it. -/
theorem fee_job_after_start_lost :
    ¬ ∀ (cfg : MinerConfig) (gpuMiners : Nat → GpuMiner) (es : List Event) (s : AbstractMinerImpl),
      cfg.backend.m_fee = true → exec (step cfg) (new gpuMiners) es = some s →
        ∀ id, s.getState id = .Mining → (s.threads id).worker.m_feeJob = s.m_feeJob := by
  intro h
  have hmap : (exec (step oneFeeWorker) (new fun _ => .ethOcl .new) (mineOne ++ storeFeeJob)).map
      (fun s => (s.getState (.cpu 0), decide ((s.threads (.cpu 0)).worker.m_feeJob = s.m_feeJob))) =
        some (.Mining, false) := by
    decide +kernel
  obtain ⟨s, hrun, hp⟩ := Option.map_eq_some_iff.mp hmap
  simp only [Prod.mk.injEq, decide_eq_false_iff_not] at hp
  exact hp.2 (h oneFeeWorker _ _ s rfl hrun (.cpu 0) hp.1)

/-- What an event of the worker threads leaves alone. -/
structure ThreadStep (s t : AbstractMinerImpl) : Prop where
  tasks : t.tasks = s.tasks
  ops : t.ops = s.ops
  m_currentJob : t.m_currentJob = s.m_currentJob
  m_job : ∀ id, (t.threads id).worker.m_job = (s.threads id).worker.m_job

def Event.leavesGpus : Event → Bool
  | .call c => c.leavesGpus
  | _ => true

def HoldsJob (s : AbstractMinerImpl) (i : Nat) : Prop :=
  (s.threads (.gpu i)).worker.m_job = s.m_currentJob

instance (s : AbstractMinerImpl) (i : Nat) : Decidable (s.HoldsJob i) :=
  inferInstanceAs (Decidable (_ = _))

/-- The GPU workers that are started. -/
def noteStart (s : AbstractMinerImpl) (e : Event) (started : List Nat) : List Nat :=
  match e, s.ops with
  | .main, .start (.gpu i) :: _ => i :: started
  | _, _ => started

/-- A worker that was not mining when `updateJob` first loaded its state is updating at the second
load, or has the job. -/
def JobReaches (s : AbstractMinerImpl) (e : Event) : Prop :=
  match e, s.ops with
  | .main, .checkUpdateJob (.gpu i) :: _ => s.getState (.gpu i) = .UpdateJob ∨ s.HoldsJob i
  | _, _ => True

instance (s : AbstractMinerImpl) (e : Event) : Decidable (JobReaches s e) := by
  unfold JobReaches
  split <;> infer_instance

/-- Each worker is launched once. -/
structure LaunchesOnce (s : AbstractMinerImpl) : Prop where
  tasks : ∀ task ∈ s.tasks, task.leavesJob = true
  count : ∀ i, s.tasks.count (.startGpu i) ≤ 1
  check : ∀ i, .checkUpdateJob (.gpu i) ∈ s.ops →
    s.ops <:+ launch (.gpu i) ∧ .startGpu i ∉ s.tasks

/-- The workers started so far have the job, and one whose launch is under way has it or gets it. -/
structure JobKept (s : AbstractMinerImpl) (started : List Nat) : Prop where
  started : ∀ i ∈ started, s.HoldsJob i
  launch : ∀ i, s.LaunchesWith (.gpu i) (.storeJob (.gpu i)) (s.HoldsJob i)

/-- The worker is started without the job. -/
structure Missed (s : AbstractMinerImpl) (started : List Nat) (i : Nat) : Prop where
  holds : ¬ s.HoldsJob i
  ops : .storeJob (.gpu i) ∉ s.ops
  tasks : (∀ task ∈ s.tasks, task.leavesJob = true) ∧ .startGpu i ∉ s.tasks
  start : (.start (.gpu i) ∈ s.ops ∧ s.ops <:+ launch (.gpu i)) ∨ i ∈ started

section Steps
variable {cfg : MinerConfig} {s t : AbstractMinerImpl} {started : List Nat} {i : Nat}

theorem step_threadStep {e : Event} (hmain : e ≠ .main) (hcall : ∀ c, e ≠ .call c)
    (h : step cfg s e = some t) : ThreadStep s t := by
  cases e with
  | call c => exact absurd rfl (hcall c)
  | main => exact absurd rfl hmain
  | deliverStart id =>
    obtain ⟨-, hworkers, ⟨hjob, -⟩, -⟩ := deliverStart_cases h
    obtain ⟨htasks, hops⟩ := deliverStart_main h
    exact ⟨htasks, hops, hjob, fun j => by rw [hworkers]⟩
  | exitThread id =>
    obtain ⟨-, h⟩ := Option.ite_none_right_eq_some.mp h
    cases h
    exact ⟨rfl, rfl, rfl, fun j => updateThread_keeps (·.worker.m_job) fun _ => rfl⟩
  | loop id inp =>
    obtain ⟨r, -, hstep⟩ := runLoop_cases h
    refine ⟨hstep.main.1, hstep.main.2, hstep.jobs.1, fun j => ?_⟩
    rw [hstep.threads]
    exact updateThread_keeps (·.worker.m_job) fun _ => rfl
  | share =>
    obtain ⟨-, h⟩ := Option.ite_none_right_eq_some.mp h
    cases h
    exact ⟨rfl, rfl, rfl, fun _ => rfl⟩

theorem runOp_storeJob : (s.runOp (.storeJob (.gpu i))).HoldsJob i := by
  simp [runOp, HoldsJob, updateThread]

theorem runOp_holdsJob {op : Op} (hop : op ≠ .storeJob (.gpu i)) :
    (s.runOp op).HoldsJob i ↔ s.HoldsJob i := by
  cases op with
  | checkMining j | checkUpdateJob j | checkFeeJob j | checkStopping j =>
    simp only [runOp]
    split <;> exact Iff.rfl
  | storeFeeJob j | setUpdateJob j | start j | setStopping j =>
    simp only [HoldsJob, runOp, setState]
    refine Eq.congr (updateThread_keeps (·.worker.m_job) ?_) rfl
    exact fun _ => rfl
  | storeJob j =>
    have hj : WorkerId.gpu i ≠ j := fun heq => hop (by rw [heq])
    simp only [HoldsJob, runOp]
    rw [updateThread_of_ne hj]
    exact Iff.rfl

theorem holdsJob_runOp {op : Op} (hs : s.HoldsJob i) : (s.runOp op).HoldsJob i := by
  by_cases hop : op = .storeJob (.gpu i)
  · rw [hop]
    exact runOp_storeJob
  · exact (runOp_holdsJob hop).mpr hs

theorem runOp_tasks {op : Op} : (s.runOp op).tasks.Sublist s.tasks := by
  cases op with
  | checkMining j | checkUpdateJob j | checkFeeJob j =>
    simp only [runOp]
    split <;> exact List.Sublist.refl _
  | checkStopping j =>
    simp only [runOp]
    split
    · exact List.Sublist.refl _
    · exact List.nil_sublist _
  | _ => exact List.Sublist.refl _

theorem tasks_of_leavesGpus (cfg : MinerConfig) {c : Call} (hc : c.leavesGpus = true) :
    ∀ task ∈ c.tasks cfg, task.leavesJob = true ∧ ∀ j, task ≠ .startGpu j := by
  intro task htask
  cases c with
  | startCpu threadCount =>
    obtain ⟨j, -, rfl⟩ := List.mem_map.mp htask
    exact ⟨rfl, fun _ => by simp⟩
  | setThreadCount threadCount =>
    obtain ⟨j, -, rfl⟩ := List.mem_map.mp htask
    split <;> exact ⟨rfl, fun _ => by simp⟩
  | updateFeeJob job =>
    obtain rfl := List.mem_singleton.mp htask
    exact ⟨rfl, fun _ => by simp⟩
  | _ => cases hc

theorem runTask_leavesJob {task : Task} (htask : task.leavesJob = true) (hops : s.ops = [])
    (ht : s.runTask cfg task = some t) :
    t.tasks = s.tasks ∧ (t.HoldsJob i ↔ s.HoldsJob i) ∧
      (t.ops = [] ∨ (∃ j, task = .startGpu j ∧ t.ops = launch (.gpu j)) ∨
        ∃ j, t.ops = launch (.cpu j)) := by
  have hworker := runTask_keeps (·.worker.m_job) (.gpu i) (fun _ _ _ _ => rfl) ht
  have hjob : t.m_currentJob = s.m_currentJob := by
    refine (runTask_jobs ht).1 (fun job heq => ?_) fun heq => ?_
    · rw [heq] at htask
      cases htask
    · rw [heq] at htask
      cases htask
  have hholds : t.HoldsJob i ↔ s.HoldsJob i := by
    rw [HoldsJob, HoldsJob, hworker, hjob]
  have hrestart : ∀ j, (s.restartThread j).tasks = s.tasks := by
    intro j
    rw [restartThread]
    split <;> rfl
  cases task with
  | startCpu j =>
    cases ht
    exact ⟨hrestart _, hholds, Or.inr (Or.inr ⟨j, rfl⟩)⟩
  | setThread j =>
    simp only [runTask] at ht
    split at ht <;> cases ht
    · exact ⟨rfl, hholds, Or.inr (Or.inr ⟨j, rfl⟩)⟩
    · exact ⟨rfl, hholds, Or.inl hops⟩
  | startGpu j =>
    simp only [runTask] at ht
    split at ht <;> cases ht
    · exact ⟨rfl, hholds, Or.inl hops⟩
    · exact ⟨hrestart _, hholds, Or.inr (Or.inl ⟨j, rfl, rfl⟩)⟩
  | stopCpu j | setFeeJob job =>
    cases ht
    exact ⟨rfl, hholds, Or.inl hops⟩
  | _ => cases htask

theorem LaunchesOnce.step {e : Event} (hs : s.LaunchesOnce) (he : e.leavesGpus = true)
    (h : AbstractMinerImpl.step cfg s e = some t) : t.LaunchesOnce := by
  by_cases hcall : ∃ c, e = .call c
  · obtain ⟨c, rfl⟩ := hcall
    obtain ⟨⟨hidle, -⟩, h⟩ := Option.ite_none_right_eq_some.mp h
    cases h
    have htasks := tasks_of_leavesGpus cfg he
    refine ⟨fun task htask => (htasks task htask).1, fun j => ?_, fun j hmem => ?_⟩
    · rw [List.count_eq_zero_of_not_mem fun hmem => (htasks _ hmem).2 j rfl]
      exact Nat.zero_le 1
    · rw [show s.ops = [] from hidle.2] at hmem
      cases hmem
  by_cases hmain : e = .main
  · subst hmain
    rcases runMain_eq_some h with ⟨op, ops, hops, rfl⟩ | ⟨task, tasks, hops, htasks, ht⟩
    · have hrest : ({ s with ops := ops }.runOp op).tasks.Sublist s.tasks := runOp_tasks
      refine ⟨fun u hu => hs.tasks u (hrest.subset hu),
        fun j => (hrest.count_le _).trans (hs.count j), fun j hmem => ?_⟩
      have hmem : .checkUpdateJob (.gpu j) ∈ s.ops := by
        rw [hops]
        exact List.mem_cons_of_mem _ (runOp_ops_subset _ hmem)
      obtain ⟨hsuffix, hagain⟩ := hs.check j hmem
      rw [hops] at hsuffix
      exact ⟨(runOp_launch (s := s) hsuffix).1, fun h => hagain (hrest.subset h)⟩
    · have htask : task.leavesJob = true := hs.tasks task (by simp [htasks])
      obtain ⟨htasks', -, hcases⟩ := runTask_leavesJob (i := 0) htask (by exact hops) ht
      have htasks' : t.tasks = tasks := htasks'
      have hcount := hs.count
      rw [htasks] at hcount
      refine ⟨fun u hu => hs.tasks u ?_, fun j => ?_, fun j hmem => ?_⟩
      · rw [htasks]
        exact List.mem_cons_of_mem _ (htasks' ▸ hu)
      · rw [htasks']
        exact (List.count_le_count_cons).trans (hcount j)
      · rcases hcases with hnil | ⟨k, rfl, hlaunch⟩ | ⟨k, hlaunch⟩
        · rw [hnil] at hmem
          cases hmem
        · rw [hlaunch] at hmem
          obtain rfl : j = k := by
            simpa [launch, workerUpdateJob, workerUpdateFeeJob] using hmem
          refine ⟨hlaunch ▸ List.suffix_rfl, fun hagain => ?_⟩
          have h1 := hcount j
          rw [List.count_cons_self] at h1
          have h2 := List.count_pos_iff.mpr (htasks' ▸ hagain)
          omega
        · rw [hlaunch] at hmem
          simp [launch, workerUpdateJob, workerUpdateFeeJob] at hmem
  · obtain ⟨htasks, hops, -, -⟩ := step_threadStep hmain (fun c heq => hcall ⟨c, heq⟩) h
    exact ⟨htasks ▸ hs.tasks, htasks ▸ hs.count, by rw [hops, htasks]; exact hs.check⟩

theorem noteStart_op (i : Nat) (started : List Nat) {op : Op} {ops : List Op}
    (hops : s.ops = op :: ops) :
    (op ≠ .start (.gpu i) ∧ (i ∈ noteStart s .main started ↔ i ∈ started)) ∨
      (op = .start (.gpu i) ∧ i ∈ noteStart s .main started) := by
  simp only [noteStart, hops]
  cases op with
  | start id =>
    cases id with
    | cpu j => simp
    | gpu j =>
      by_cases hj : i = j
      · subst hj
        simp
      · refine Or.inl ⟨fun heq => hj ?_, by simp [hj]⟩
        cases heq
        rfl
  | _ => simp

theorem noteStart_other {e : Event} (h : s.ops = [] ∨ e ≠ .main) :
    noteStart s e started = started := by
  rw [noteStart]
  rintro j ops rfl hops
  rcases h with h | h
  · rw [hops] at h
    cases h
  · exact h rfl

theorem ThreadStep.holdsJob (h : ThreadStep s t) : t.HoldsJob i ↔ s.HoldsJob i := by
  rw [HoldsJob, HoldsJob, h.m_job, h.m_currentJob]

theorem ThreadStep.jobKept (h : ThreadStep s t) (hs : s.JobKept started) : t.JobKept started := by
  refine ⟨fun j hj => h.holdsJob.mpr (hs.started j hj), fun j => ?_⟩
  rw [LaunchesWith, h.ops, h.holdsJob]
  exact hs.launch j

theorem runOp_jobKept {op : Op} {ops : List Op} (hops : s.ops = op :: ops)
    (hs : s.JobKept started) (hreaches : JobReaches s .main) :
    ({ s with ops := ops }.runOp op).JobKept (noteStart s .main started) := by
  have hkeep : ∀ {j}, s.HoldsJob j → ({ s with ops := ops }.runOp op).HoldsJob j :=
    fun h => holdsJob_runOp (s := { s with ops := ops }) h
  constructor
  · intro j hj
    apply hkeep
    rcases noteStart_op j started hops with ⟨-, hiff⟩ | ⟨rfl, -⟩
    · exact hs.started j (hiff.mp hj)
    · obtain ⟨hsuffix, hlaunch⟩ := (hs.launch j).resolve_left (by simp [hops])
      rw [hops] at hsuffix hlaunch
      obtain rfl := start_suffix hsuffix
      exact hlaunch.resolve_left (by simp)
  · intro j
    refine runOp_launchesWith hops (hs.launch j) hkeep (fun hop => hop ▸ runOp_storeJob) ?_
    intro hmem hdropped hsuffix
    rcases (runOp_launch (s := s) hsuffix).2 _ hmem hdropped with
      ⟨-, hne⟩ | ⟨rfl, hm, -⟩ | ⟨-, -, hne⟩
    · cases hne
    · simp only [JobReaches, hops] at hreaches
      exact hkeep (hreaches.resolve_left hm)
    · cases hne

theorem JobKept.step {e : Event} (hs : s.JobKept started) (ho : s.LaunchesOnce)
    (hreaches : JobReaches s e) (h : AbstractMinerImpl.step cfg s e = some t) :
    t.JobKept (noteStart s e started) := by
  by_cases hcall : ∃ c, e = .call c
  · obtain ⟨c, rfl⟩ := hcall
    obtain ⟨-, h⟩ := Option.ite_none_right_eq_some.mp h
    cases h
    rw [noteStart_other (Or.inr (by simp))]
    exact ⟨hs.started, hs.launch⟩
  by_cases hmain : e = .main
  · subst hmain
    rcases runMain_eq_some h with ⟨op, ops, hops, rfl⟩ | ⟨task, tasks, hops, htasks, ht⟩
    · exact runOp_jobKept hops hs hreaches
    · rw [noteStart_other (Or.inl hops)]
      have htask : task.leavesJob = true := ho.tasks task (by simp [htasks])
      refine ⟨fun j hj => ?_, fun j => ?_⟩
      · exact (runTask_leavesJob htask (by exact hops) ht).2.1.mpr (hs.started j hj)
      · refine launchesWith_of_ops (runTask_ops (by exact hops) ht) ?_
        simp [MinerGate.launch, workerUpdateJob, workerUpdateFeeJob]
  · rw [noteStart_other (Or.inr hmain)]
    exact (step_threadStep hmain (fun c heq => hcall ⟨c, heq⟩) h).jobKept hs

theorem jobReaches_of_op {e : Event}
    (h : ∀ i ops, e = .main → s.ops = .checkUpdateJob (.gpu i) :: ops →
      s.getState (.gpu i) = .UpdateJob ∨ s.HoldsJob i) :
    JobReaches s e := by
  unfold JobReaches
  split
  case h_1 i ops hops => exact h i ops rfl hops
  case h_2 => trivial

/-- A worker that leaves the job out is then started without it. -/
theorem missed_of_not_reaches {e : Event} (ho : s.LaunchesOnce) (hreaches : ¬ JobReaches s e)
    (h : AbstractMinerImpl.step cfg s e = some t) : ∃ i, t.Missed (noteStart s e started) i := by
  have hcheck : ∃ i ops, e = .main ∧ s.ops = .checkUpdateJob (.gpu i) :: ops ∧
      s.getState (.gpu i) ≠ .UpdateJob ∧ ¬ s.HoldsJob i := by
    by_contra hno
    push Not at hno
    refine hreaches (jobReaches_of_op fun i ops he hops => ?_)
    by_cases hm : s.getState (.gpu i) = .UpdateJob
    · exact Or.inl hm
    · exact Or.inr (hno i ops he hops hm)
  obtain ⟨i, ops, rfl, hops, hm, hholds⟩ := hcheck
  obtain ⟨hsuffix, htasks⟩ := ho.check i (by simp [hops])
  rcases runMain_eq_some h with ⟨op, ops', hops', rfl⟩ | ⟨task, tasks, hnil, -, -⟩
  · rw [hops'] at hops hsuffix
    cases hops
    have hrun : { s with ops := ops }.runOp (.checkUpdateJob (.gpu i)) =
        { s with ops := ops.drop 2 } := if_neg hm
    have hsuffix : ops = [.storeJob (.gpu i), .setUpdateJob (.gpu i), .checkFeeJob (.gpu i),
        .storeFeeJob (.gpu i), .start (.gpu i)] := by
      simpa [launch, workerUpdateJob, workerUpdateFeeJob, List.suffix_cons_iff] using hsuffix
    rw [hrun, hsuffix]
    refine ⟨i, hholds, by simp, ⟨ho.tasks, htasks⟩, Or.inl ⟨by simp, ?_⟩⟩
    exact ⟨workerUpdateJob (.gpu i), rfl⟩
  · rw [hnil] at hops
    cases hops

theorem Missed.step {e : Event} (hs : s.Missed started i) (he : e.leavesGpus = true)
    (h : AbstractMinerImpl.step cfg s e = some t) : t.Missed (noteStart s e started) i := by
  by_cases hcall : ∃ c, e = .call c
  · obtain ⟨c, rfl⟩ := hcall
    obtain ⟨hidle, h⟩ := Option.ite_none_right_eq_some.mp h
    cases h
    have htasks := tasks_of_leavesGpus cfg he
    rw [noteStart_other (Or.inr (by simp))]
    exact ⟨hs.holds, hs.ops, ⟨fun u hu => (htasks u hu).1, fun hmem => (htasks _ hmem).2 i rfl⟩,
      hs.start⟩
  by_cases hmain : e = .main
  · subst hmain
    rcases runMain_eq_some h with ⟨op, ops, hops, rfl⟩ | ⟨task, tasks, hops, htasks, ht⟩
    · have hop : op ≠ .storeJob (.gpu i) := fun heq => hs.ops (by simp [hops, heq])
      refine ⟨fun h => hs.holds ((runOp_holdsJob (s := { s with ops := ops }) hop).mp h),
        fun hmem => hs.ops ?_, ?_, ?_⟩
      · rw [hops]
        exact List.mem_cons_of_mem _ (runOp_ops_subset _ hmem)
      · have hrest : ({ s with ops := ops }.runOp op).tasks.Sublist s.tasks := runOp_tasks
        exact ⟨fun u hu => hs.tasks.1 u (hrest.subset hu), fun h => hs.tasks.2 (hrest.subset h)⟩
      · rcases noteStart_op i started hops with ⟨hne, hiff⟩ | ⟨-, hmem⟩
        · rcases hs.start with ⟨hmem, hsuffix⟩ | hstarted
          · rw [hops] at hmem hsuffix
            obtain ⟨hsuffix', hdropped⟩ := runOp_launch (s := s) hsuffix
            refine Or.inl ⟨?_, hsuffix'⟩
            have hmem := (List.mem_cons.mp hmem).resolve_left (Ne.symm hne)
            by_contra hno
            rcases hdropped _ hmem hno with ⟨-, hstart⟩ | ⟨-, -, -, hstart⟩ | ⟨-, -, hstart⟩
            · cases hstart
            · exact hstart rfl
            · cases hstart
          · exact Or.inr (hiff.mpr hstarted)
        · exact Or.inr hmem
    · rw [noteStart_other (Or.inl hops)]
      have htask : task.leavesJob = true := hs.tasks.1 task (by simp [htasks])
      have hstarted := hs.start.resolve_left fun hstart => by simp [hops] at hstart
      obtain ⟨htasks', hholds, hcases⟩ := runTask_leavesJob (i := i) htask (by exact hops) ht
      have htasks' : t.tasks = tasks := htasks'
      have hrest := hs.tasks
      rw [htasks] at hrest
      refine ⟨fun h => hs.holds (hholds.mp h), ?_, ?_, Or.inr hstarted⟩
      · rcases hcases with hnil | ⟨k, rfl, hlaunch⟩ | ⟨k, hlaunch⟩
        · rw [hnil]
          exact List.not_mem_nil
        · have hk : i ≠ k := fun heq => hrest.2 (by simp [heq])
          rw [hlaunch]
          simp [launch, workerUpdateJob, workerUpdateFeeJob, hk]
        · rw [hlaunch]
          simp [launch, workerUpdateJob, workerUpdateFeeJob]
      · rw [htasks']
        exact ⟨fun u hu => hrest.1 u (List.mem_cons_of_mem _ hu),
          fun hmem => hrest.2 (List.mem_cons_of_mem _ hmem)⟩
  · obtain hstep := step_threadStep hmain (fun c heq => hcall ⟨c, heq⟩) h
    rw [noteStart_other (Or.inr hmain)]
    refine ⟨fun h => hs.holds (hstep.holdsJob.mp h), ?_, ?_, ?_⟩
    · rw [hstep.ops]
      exact hs.ops
    · rw [hstep.tasks]
      exact hs.tasks
    · rw [hstep.ops]
      exact hs.start

theorem launchesOnce_startGpu {devices : List Nat} (hidle : s.mainIdle) :
    LaunchesOnce { s with tasks := Call.tasks cfg (.startGpu devices) } := by
  refine ⟨fun task htask => ?_, fun j => ?_, fun j hmem => ?_⟩
  · obtain ⟨j, -, rfl⟩ := List.mem_map.mp htask
    rfl
  · apply List.nodup_iff_count_le_one.mp
    refine (List.nodup_range.filter _).map fun a b h => ?_
    cases h
    rfl
  · rw [show s.ops = [] from hidle.2] at hmem
    cases hmem

end Steps

/-- After a call of `startGpu` all workers it has started have the current job if and only if each
of them took it, or had it, when it was given to it. -/
theorem startGpu_delivers_iff {cfg : MinerConfig} {s t : AbstractMinerImpl} {devices : List Nat}
    {es : List Event} {started : List Nat}
    (hrun : exec (watch (step cfg) noteStart) (s, []) (.call (.startGpu devices) :: es) =
      some (t, started))
    (hes : ∀ e ∈ es, e.leavesGpus = true) (hidle : t.mainIdle) :
    (∀ i ∈ started, (t.threads (.gpu i)).worker.m_job = t.m_currentJob) ↔
      Along (step cfg) JobReaches s (.call (.startGpu devices) :: es) := by
  obtain ⟨⟨u, g⟩, hwatch, hrun⟩ := exec_cons.mp hrun
  obtain ⟨hcall, hg⟩ := watch_eq_some.mp hwatch
  obtain rfl : g = [] := hg
  rw [along_cons hcall]
  obtain ⟨⟨hsidle, -⟩, hu⟩ := Option.ite_none_right_eq_some.mp hcall
  cases hu
  have honce : LaunchesOnce { s with tasks := Call.tasks cfg (.startGpu devices) } :=
    launchesOnce_startGpu hsidle
  have hleaves : Along (watch (step cfg) noteStart) (fun _ e => e.leavesGpus = true)
      ({ s with tasks := Call.tasks cfg (.startGpu devices) }, []) es :=
    along_of_events fun e he _ => hes e he
  constructor
  · intro hdelivered
    suffices hreaches : Along (watch (step cfg) noteStart) (fun p e => JobReaches p.1 e)
        ({ s with tasks := Call.tasks cfg (.startGpu devices) }, []) es from
      ⟨trivial, along_watch.mp hreaches⟩
    refine along_of_unmarked (I := fun p => p.1.LaunchesOnce) (M := fun p => ∃ i, p.1.Missed p.2 i)
      ?_ ?_ ?_ honce hleaves hrun ?_
    · rintro ⟨v, _⟩ e ⟨w, _⟩ hI hD h
      exact hI.step hD (watch_eq_some.mp h).1
    · rintro ⟨v, g⟩ e ⟨w, g'⟩ hI hD hC h
      obtain ⟨hstep, rfl⟩ := watch_eq_some.mp h
      exact missed_of_not_reaches hI hC hstep
    · rintro ⟨v, g⟩ e ⟨w, g'⟩ ⟨i, hmissed⟩ hD h
      obtain ⟨hstep, rfl⟩ := watch_eq_some.mp h
      exact ⟨i, hmissed.step hD hstep⟩
    · rintro ⟨i, hmissed⟩
      have hstart := hmissed.start.resolve_left fun h => by simp [hidle.2] at h
      exact hmissed.holds (hdelivered i hstart)
  · rintro ⟨-, hreaches⟩
    have hkept : t.LaunchesOnce ∧ t.JobKept started := by
      refine exec_invariant (I := fun p => p.1.LaunchesOnce ∧ p.1.JobKept p.2) ?_ ⟨honce, ?_⟩
        ((along_watch.mpr hreaches).and hleaves) hrun
      · rintro ⟨v, g⟩ e ⟨w, g'⟩ ⟨hI, hkept⟩ ⟨hC, hD⟩ h
        obtain ⟨hstep, rfl⟩ := watch_eq_some.mp h
        exact ⟨hI.step hD hstep, hkept.step hI hC hstep⟩
      · refine ⟨fun i hi => (by cases hi), fun i => Or.inl ?_⟩
        rw [show s.ops = [] from hsidle.2]
        exact List.not_mem_nil
    exact hkept.2.started

def oneGpu : MinerConfig where
  cpus := 0
  gpus := 1
  backend := ⟨false, cryptonoteSearch id, ⟨id, id, fun _ _ => none, fun _ _ => none⟩⟩
  m_startNonceIsRandom := false

def poolJob (accesses : Nat) : List Event :=
  .call (.updateJob ⟨[1], [1], []⟩ 0) :: List.replicate accesses .main

/-- A CUDA worker is started before the job comes, waits for it, and is started again. -/
theorem waiting_worker_gets_job :
    ∃ s t, exec (step oneGpu) (new fun _ => .cryptonoteCuda .new)
        (.call (.startGpu [0]) :: List.replicate 5 .main ++ .deliverStart (.gpu 0) ::
          List.replicate 2 (.loop (.gpu 0) ⟨false, .ok, 1, none, 0⟩) ++ poolJob 8) = some s ∧
      exec (watch (step oneGpu) noteStart) (s, [])
        (.call (.startGpu [0]) :: List.replicate 7 .main) = some (t, [0]) ∧
      Along (step oneGpu) JobReaches s (.call (.startGpu [0]) :: List.replicate 7 .main) := by
  have hmap : ((exec (step oneGpu) (new fun _ => .cryptonoteCuda .new)
      (.call (.startGpu [0]) :: List.replicate 5 .main ++ .deliverStart (.gpu 0) ::
        List.replicate 2 (.loop (.gpu 0) ⟨false, .ok, 1, none, 0⟩) ++ poolJob 8)).bind fun s =>
      (exec (watch (step oneGpu) noteStart) (s, [])
        (.call (.startGpu [0]) :: List.replicate 7 .main)).map fun p =>
          (p.2, decide p.1.mainIdle, decide (∀ i ∈ p.2, p.1.HoldsJob i))) =
            some ([0], true, true) := by
    decide +kernel
  obtain ⟨s, hs, hmap⟩ := Option.bind_eq_some_iff.mp hmap
  obtain ⟨⟨t, started⟩, hrun, hp⟩ := Option.map_eq_some_iff.mp hmap
  simp only [Prod.mk.injEq, decide_eq_true_eq] at hp
  obtain ⟨rfl, hidle, hholds⟩ := hp
  exact ⟨s, t, hs, hrun, (startGpu_delivers_iff hrun (by decide) hidle).mp hholds⟩

/-- A worker that was never started is given no job. -/
theorem fresh_worker_gets_no_job :
    ¬ ∀ (cfg : MinerConfig) (gpuMiners : Nat → GpuMiner) (before es : List Event)
      (devices started : List Nat) (s t : AbstractMinerImpl),
      exec (step cfg) (new gpuMiners) before = some s → s.m_currentJob ≠ .empty →
      exec (watch (step cfg) noteStart) (s, []) (.call (.startGpu devices) :: es) =
        some (t, started) →
      (∀ e ∈ es, e.leavesGpus = true) → t.mainIdle →
      (∀ i ∈ started, (t.threads (.gpu i)).starts = 0) →
        ∀ i ∈ started, (t.threads (.gpu i)).worker.m_job = t.m_currentJob := by
  intro h
  have hmap : ((exec (step oneGpu) (new fun _ => .cryptonoteOcl .new) (poolJob 4)).bind fun s =>
      (exec (watch (step oneGpu) noteStart) (s, [])
        (.call (.startGpu [0]) :: List.replicate 5 .main ++ [.deliverStart (.gpu 0)])).map fun p =>
          (p.2, s.m_currentJob, decide (p.1.mainIdle ∧ (p.1.threads (.gpu 0)).starts = 0),
            decide (p.1.HoldsJob 0))) = some ([0], ⟨[1], [1], []⟩, true, false) := by
    decide +kernel
  obtain ⟨s, hs, hmap⟩ := Option.bind_eq_some_iff.mp hmap
  obtain ⟨⟨t, started⟩, hrun, hp⟩ := Option.map_eq_some_iff.mp hmap
  simp only [Prod.mk.injEq, decide_eq_true_eq, decide_eq_false_iff_not] at hp
  obtain ⟨rfl, hjob, ⟨hidle, hstarts⟩, hholds⟩ := hp
  have hsome : s.m_currentJob ≠ .empty := by rw [hjob]; decide
  refine hholds (h oneGpu _ _ _ [0] [0] s t hs hsome hrun (by decide) hidle ?_ 0 ?_)
  · simpa using hstarts
  · exact List.mem_singleton_self 0

end AbstractMinerImpl
end MinerGate
