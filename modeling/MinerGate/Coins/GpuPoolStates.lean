import MinerGate.Coins.MergedTargets
import MinerGate.Miner.Worker

/-!
# GPU states and the state of the pool

When the pool client connects or fails, the miner announces it for the coin's CPU workers and for
the first device whose worker has not left its loop. The announcements reach the coin through the
event queue, in their order.
-/

namespace MinerGate

set_option autoImplicit false

open Transition

inductive PoolState where
  | Connected
  | Error
deriving DecidableEq, Repr

structure GPUCtx where
  deviceKey : QString
  state : MinerThreadState
deriving DecidableEq, Repr

/-- The states of the CPU workers, and the devices with the states of their workers in the order of
the loops over them. A device key has the type of its manager and its number in it. -/
structure MinerWorkers where
  m_workers : List MinerThreadState
  m_gpuContextList : List GPUCtx
  named : ∀ ctx ∈ m_gpuContextList, ctx.deviceKey ≠ []
  nodup : (m_gpuContextList.map (·.deviceKey)).Nodup

/-- What the main thread has queued for the engine. -/
inductive EngineEvent where
  | cpuStateChanged (state : MinerImplState)
  | gpuStateChanged (state : MinerImplState) (deviceKey : QString)
deriving DecidableEq, Repr

namespace MinerWorkers

def getRunningThreadsCount (m : MinerWorkers) : Nat :=
  (m.m_workers.filter (· ≠ .Exit)).length

/-- A GPU worker takes a job only while it mines or waits for one. -/
def updateGpuJob (ctx : GPUCtx) : GPUCtx :=
  if ctx.state ≠ .Exit then
    if ctx.state ≠ .Mining ∧ ctx.state ≠ .UpdateJob then ctx else { ctx with state := .UpdateJob }
  else ctx

theorem updateGpuJob_deviceKey (ctx : GPUCtx) : (updateGpuJob ctx).deviceKey = ctx.deviceKey := by
  unfold updateGpuJob
  split_ifs <;> rfl

/-- The states of the workers after `updateJob`. -/
def updateJob (m : MinerWorkers) : MinerWorkers where
  m_workers := m.m_workers.map fun state => if state ≠ .Exit then .UpdateJob else state
  m_gpuContextList := m.m_gpuContextList.map updateGpuJob
  named := by
    simp only [List.forall_mem_map, updateGpuJob_deviceKey]
    exact m.named
  nodup := by
    rw [List.map_map]
    simp only [Function.comp_def, updateGpuJob_deviceKey]
    exact m.nodup

/-- The loop over the contexts: it ends with the first one that it announces. -/
def announceGpu (state : MinerImplState) : List GPUCtx → List EngineEvent
  | [] => []
  | ctx :: contexts =>
    if ctx.state ≠ .Exit then [.gpuStateChanged state ctx.deviceKey]
    else announceGpu state contexts

def announce (m : MinerWorkers) (state : MinerImplState) : List EngineEvent :=
  (if m.getRunningThreadsCount > 0 then [.cpuStateChanged state] else []) ++
    announceGpu state m.m_gpuContextList

def poolClientStateChanged (m : MinerWorkers) : PoolState → List EngineEvent
  | .Connected => m.announce .Running
  | .Error => m.updateJob.announce .Error

end MinerWorkers

namespace MergedTargets

def gpuState (s : MergedTargets) (key deviceKey : QString) : GpuState :=
  ((s.manager.coin key).m_gpuStates.lookup deviceKey).getD .Stopped

def cpuStateChanged (s : MergedTargets) (key : QString) (state : MinerImplState) :
    Option MergedTargets :=
  s.setCpuState key
    (match state with
      | .Running => .Running
      | .Stopped => .Stopped
      | .Error => .Error
      | _ => (s.manager.coin key).m_cpuState)

def gpuStateChanged (s : MergedTargets) (key : QString) (state : MinerImplState)
    (deviceKey : QString) : Option MergedTargets :=
  s.setGpuState key
    (match state with
      | .Running => .Running
      | .Stopped => .Stopped
      | .Error => .Error
      | _ => s.gpuState key deviceKey) deviceKey

/-- The engine of the coin takes an event from the queue; `none` when a null coin is used in it. -/
def engineStep (key : QString) (s : MergedTargets) : EngineEvent → Option MergedTargets
  | .cpuStateChanged state => s.cpuStateChanged key state
  | .gpuStateChanged state deviceKey => s.gpuStateChanged key state deviceKey

end MergedTargets

namespace PoolState

def impl : PoolState → MinerImplState
  | Connected => .Running
  | Error => .Error

def cpu : PoolState → CpuMinerState
  | Connected => .Running
  | Error => .Error

def gpu : PoolState → GpuState
  | Connected => .Running
  | Error => .Error

end PoolState

/-- The pool client's state changes while the workers are in these states. -/
structure PoolEvent where
  state : PoolState
  miner : MinerWorkers

namespace PoolEvent

def queued (e : PoolEvent) : List EngineEvent := e.miner.poolClientStateChanged e.state

/-- The device that the loop announces. -/
def first (e : PoolEvent) : Option GPUCtx :=
  e.miner.m_gpuContextList.find? fun ctx => ctx.state ≠ .Exit

end PoolEvent

namespace MergedTargets

/-- The coin once the event has been announced and the queue is empty. -/
def poolStep (key : QString) (s : MergedTargets) (e : PoolEvent) : Option MergedTargets :=
  exec (engineStep key) s e.queued

/-- The devices that mine or wait for a job get the pool's state, the others keep theirs. -/
def Follows (key : QString) (s : MergedTargets) (e : PoolEvent) : Prop :=
  ∃ t, s.poolStep key e = some t ∧ ∀ ctx ∈ e.miner.m_gpuContextList,
    (ctx.state = .Mining ∨ ctx.state = .UpdateJob →
      t.gpuState key ctx.deviceKey = e.state.gpu) ∧
    (ctx.state = .Exit ∨ ctx.state = .Stopping →
      t.gpuState key ctx.deviceKey = s.gpuState key ctx.deviceKey)

/-- The event changes the coin's CPU state. -/
def ChangesCpu (key : QString) (s : MergedTargets) (e : PoolEvent) : Prop :=
  e.miner.getRunningThreadsCount > 0 ∧ (s.manager.coin key).m_cpuState ≠ e.state.cpu

instance (key : QString) (s : MergedTargets) (e : PoolEvent) : Decidable (s.ChangesCpu key e) :=
  inferInstanceAs (Decidable (_ ∧ _))

/-- The target of the coin's merged mining is no null coin. -/
def TargetKnown (key : QString) (s : MergedTargets) : Prop :=
  s.mergedMining key = [] ∨ s.mergedMining key ∈ s.manager.m_miners

instance (key : QString) (s : MergedTargets) : Decidable (s.TargetKnown key) :=
  inferInstanceAs (Decidable (_ ∨ _))

/-- The GPU state of a device once the coins have been checked, if they are. -/
def checkedState (key : QString) (s : MergedTargets) (e : PoolEvent) (deviceKey : QString) :
    GpuState :=
  let states := if s.ChangesCpu key e ∧ (s.manager.coin key).connected = true
    then s.manager.goalGpu key else s.manager.gpu key
  (states.lookup deviceKey).getD .Stopped

/-- The event can be announced without a null coin; the device that is announced does not stop, or
has the pool's state already, and so do the others that mine or wait; none of the rest changes when
the coins are checked. -/
structure PoolGuard (key : QString) (s : MergedTargets) (e : PoolEvent) : Prop where
  known : s.ChangesCpu key e → e.state = .Connected → s.TargetKnown key
  targets : s.ChangesCpu key e → (s.manager.coin key).connected = true → s.manager.TargetsExist
  counted : ∀ ctx ∈ e.first, e.state = .Connected →
    s.checkedState key e ctx.deviceKey ≠ .Running → s.workersCount key = 0 → s.TargetKnown key
  announced : ∀ ctx ∈ e.first, ctx.state = .Stopping →
    s.gpuState key ctx.deviceKey = e.state.gpu
  mining : ∀ ctx ∈ e.miner.m_gpuContextList, ctx.state = .Mining ∨ ctx.state = .UpdateJob →
    e.first ≠ some ctx → s.checkedState key e ctx.deviceKey = e.state.gpu
  stopped : ∀ ctx ∈ e.miner.m_gpuContextList, ctx.state = .Exit ∨ ctx.state = .Stopping →
    e.first ≠ some ctx →
      s.checkedState key e ctx.deviceKey = s.gpuState key ctx.deviceKey

end MergedTargets

namespace MinerWorkers
variable {m : MinerWorkers} {ctx : GPUCtx} {contexts : List GPUCtx} {state : MinerImplState}

theorem updateGpuJob_exit : (updateGpuJob ctx).state = .Exit ↔ ctx.state = .Exit := by
  unfold updateGpuJob
  split_ifs with hexit hjob
  · exact Iff.rfl
  · simp [hexit]
  · exact Iff.rfl

theorem announceGpu_eq : announceGpu state contexts =
    ((contexts.find? fun ctx => ctx.state ≠ .Exit).map fun ctx =>
      .gpuStateChanged state ctx.deviceKey).toList := by
  induction contexts with
  | nil => rfl
  | cons ctx contexts ih =>
    rw [announceGpu, List.find?_cons]
    by_cases h : ctx.state = .Exit <;> simp [h, ih]

/-- A new job changes no worker that the loop looks for. -/
theorem announceGpu_updateJob :
    announceGpu state (contexts.map updateGpuJob) = announceGpu state contexts := by
  induction contexts with
  | nil => rfl
  | cons ctx contexts ih =>
    rw [List.map_cons, announceGpu, announceGpu, ih, updateGpuJob_deviceKey]
    simp only [ne_eq, updateGpuJob_exit]

theorem getRunningThreadsCount_updateJob :
    m.updateJob.getRunningThreadsCount = m.getRunningThreadsCount := by
  have hexit : ∀ state : MinerThreadState,
      (decide ((if state ≠ .Exit then .UpdateJob else state) ≠ MinerThreadState.Exit)) =
        decide (state ≠ .Exit) := by
    intro state
    cases state <;> rfl
  rw [getRunningThreadsCount, updateJob, List.filter_map, List.length_map]
  simp only [Function.comp_def, hexit]
  rfl

end MinerWorkers

theorem PoolEvent.queued_eq (e : PoolEvent) : e.queued =
    (if e.miner.getRunningThreadsCount > 0 then [.cpuStateChanged e.state.impl] else []) ++
      (e.first.map fun ctx => .gpuStateChanged e.state.impl ctx.deviceKey).toList := by
  rw [queued, first, ← MinerWorkers.announceGpu_eq]
  cases e.state with
  | Connected => rfl
  | Error =>
    rw [MinerWorkers.poolClientStateChanged, MinerWorkers.announce,
      MinerWorkers.getRunningThreadsCount_updateJob]
    congr 1
    exact MinerWorkers.announceGpu_updateJob

namespace CoinManager
variable {s t : CoinManager} {key : QString} {state : CpuMinerState}

theorem writeCpuState_coin (k : QString) : (s.writeCpuState key state).coin k =
    { s.coin k with m_cpuState := ((s.writeCpuState key state).coin k).m_cpuState } := by
  have hcounted : ∀ v : CoinManager, v.coin = s.coin →
      (v.set key { s.coin key with m_cpuState := state }).coin k =
        { s.coin k with m_cpuState :=
            ((v.set key { s.coin key with m_cpuState := state }).coin k).m_cpuState } := by
    intro v hv
    exact related_set (P := fun c c' => c' = { c with m_cpuState := c'.m_cpuState })
      hv (fun _ => rfl) rfl k
  unfold writeCpuState
  apply hcounted
  cases state <;> simp only <;> split_ifs <;> rfl

theorem mining_writeCpuState (k : QString) :
    (s.writeCpuState key state).Mining k ↔ s.Mining k := by
  rw [Mining, Mining, writeCpuState_coin]

/-- What the check makes of the GPU states does not depend on the CPU states. -/
theorem goalGpu_writeCpuState : (s.writeCpuState key state).goalGpu = s.goalGpu := by
  have hmerged : ∀ k, (s.writeCpuState key state).MergedBy s.m_miners k ↔
      s.MergedBy s.m_miners k := by
    intro k
    simp only [MergedBy, mining_writeCpuState, sameNames_writeCpuState.names]
  have hgpu : (s.writeCpuState key state).gpu = s.gpu := by
    funext k
    rw [gpu, gpu, writeCpuState_coin]
  funext k
  simp only [goalGpu, sameNames_writeCpuState.miners, hmerged, mining_writeCpuState, hgpu]

theorem targetsExist_writeCpuState : (s.writeCpuState key state).TargetsExist ↔ s.TargetsExist := by
  simp only [TargetsExist, mining_writeCpuState, sameNames_writeCpuState.names,
    sameNames_writeCpuState.miners]

theorem setCpuState_isSome (hne : (s.coin key).m_cpuState ≠ state) :
    (setCpuState check s key state).isSome ↔
      ((s.coin key).connected = true → s.TargetsExist) := by
  have hconnected : ((s.writeCpuState key state).coin key).connected = (s.coin key).connected := by
    rw [writeCpuState_coin]
  rw [setCpuState, if_pos hne, signal_isSome, targetsExist_writeCpuState, hconnected]

theorem gpu_setCpuState (hne : (s.coin key).m_cpuState ≠ state)
    (h : setCpuState check s key state = some t) :
    t.gpu key = if (s.coin key).connected = true then s.goalGpu key else s.gpu key := by
  have hconnected : ((s.writeCpuState key state).coin key).connected = (s.coin key).connected := by
    rw [writeCpuState_coin]
  rw [setCpuState, if_pos hne, stateChangedSignal, hconnected] at h
  split at h
  case isTrue hc =>
    rw [eq_settle_of_check (Nat.lt_succ_self _) h, if_pos hc]
    exact congrFun goalGpu_writeCpuState key
  case isFalse hc =>
    cases h
    rw [if_neg hc, gpu, gpu, writeCpuState_coin]

end CoinManager

namespace MergedTargets
variable {s t u : MergedTargets} {key deviceKey : QString} {e : PoolEvent} {ctx : GPUCtx}

theorem lookup_insertState_self {states : List (QString × GpuState)} {state : GpuState} :
    (insertState states deviceKey state).lookup deviceKey = some state := by
  induction states with
  | nil => simp [insertState]
  | cons entry states ih =>
    rw [insertState]
    split
    case isTrue => simp
    case isFalse hne =>
      rw [List.lookup_cons, beq_false_of_ne (Ne.symm hne)]
      exact ih

theorem lookup_insertState_of_ne {states : List (QString × GpuState)} {state : GpuState}
    {other : QString} (hne : other ≠ deviceKey) :
    (insertState states deviceKey state).lookup other = states.lookup other := by
  induction states with
  | nil => simp [insertState, List.lookup_cons, beq_false_of_ne hne]
  | cons entry states ih =>
    rw [insertState]
    split
    case isTrue heq =>
      have hentry : (other == entry.1) = false := beq_false_of_ne (by rw [heq]; exact hne)
      rw [List.lookup_cons, List.lookup_cons, hentry, beq_false_of_ne hne]
    case isFalse =>
      rw [List.lookup_cons, List.lookup_cons, ih]

theorem countWorker_workersCount : (s.countWorker key).workersCount key ≠ 0 := by
  unfold countWorker
  split
  case isTrue => simp [setWorkersCount]
  case isFalse h => exact h

theorem countTarget_workersCount (h : s.countTarget key = some t)
    (hkey : s.workersCount key ≠ 0) : t.workersCount key ≠ 0 := by
  simp only [countTarget] at h
  split_ifs at h
  · cases h
    exact hkey
  · cases h
    unfold countWorker
    split
    case isTrue =>
      by_cases hsame : key = s.mergedMining key
      · rw [← hsame]
        simp [setWorkersCount]
      · simp only [setWorkersCount, Function.update_of_ne hsame]
        exact hkey
    case isFalse => exact hkey

theorem setCpuState_of_counted {state : CpuMinerState}
    (hne : (s.manager.coin key).m_cpuState ≠ state)
    (hu : (if state = .Running then (s.countWorker key).countTarget key else some s) = some u)
    (hmanager : u.manager = s.manager) : s.setCpuState key state =
      (s.manager.setCpuState CoinManager.check key state).map fun manager =>
        { u with manager } := by
  rw [setCpuState, if_pos hne]
  simp only [hu, Option.bind_some, hmanager]

theorem countTarget_countWorker_isSome :
    ((s.countWorker key).countTarget key).isSome ↔ s.TargetKnown key := by
  rw [countTarget_isSome, mergedMining, countWorker_manager]
  exact Iff.rfl

/-- The worker of a coin that starts to run is counted before the coins are checked. -/
theorem counted_spec (s : MergedTargets) (key : QString) (state : CpuMinerState) :
    ((if state = .Running then (s.countWorker key).countTarget key else some s).isSome ↔
      (state = .Running → s.TargetKnown key)) ∧
    ∀ u, (if state = .Running then (s.countWorker key).countTarget key else some s) = some u →
      u.manager = s.manager ∧ (state = .Running → u.workersCount key ≠ 0) ∧
        (state ≠ .Running → u.workersCount = s.workersCount) := by
  by_cases hrun : state = .Running
  · rw [if_pos hrun, countTarget_countWorker_isSome]
    refine ⟨⟨fun h _ => h, fun h => h hrun⟩, fun u hu => ⟨?_, fun _ => ?_, fun h => absurd hrun h⟩⟩
    · rw [countTarget_eq_some hu, countWorker_manager]
    · exact countTarget_workersCount hu countWorker_workersCount
  · rw [if_neg hrun]
    refine ⟨⟨fun _ h => absurd h hrun, fun _ => rfl⟩, fun u hu => ?_⟩
    cases hu
    exact ⟨rfl, fun h => absurd h hrun, fun _ => rfl⟩

/-- What the announcement of a CPU state that differs from the coin's does. -/
theorem setCpuState_spec {state : CpuMinerState}
    (hne : (s.manager.coin key).m_cpuState ≠ state) :
    ((s.setCpuState key state).isSome ↔
      (state = .Running → s.TargetKnown key) ∧
        ((s.manager.coin key).connected = true → s.manager.TargetsExist)) ∧
    ∀ t, s.setCpuState key state = some t →
      t.manager.gpu key = (if (s.manager.coin key).connected = true then s.manager.goalGpu key
        else s.manager.gpu key) ∧
      (state = .Running → t.workersCount key ≠ 0) ∧
      (state ≠ .Running → t.workersCount = s.workersCount) := by
  obtain ⟨hsome, hspec⟩ := counted_spec s key state
  cases hcount : (if state = .Running then (s.countWorker key).countTarget key else some s) with
  | none =>
    have hnone : s.setCpuState key state = none := by
      rw [setCpuState, if_pos hne]
      simp only [hcount, Option.bind_none]
    have hnot : ¬ (state = .Running → s.TargetKnown key) := by
      rw [← hsome, hcount]
      exact Bool.false_ne_true
    rw [hnone]
    constructor
    · constructor
      · intro h
        cases h
      · intro h
        exact absurd h.1 hnot
    · intro t ht
      cases ht
  | some u =>
    have hknown := hsome.mp (by rw [hcount]; rfl)
    obtain ⟨hmanager, hcounted, hsame⟩ := hspec u hcount
    rw [setCpuState_of_counted hne hcount hmanager, Option.isSome_map,
      CoinManager.setCpuState_isSome hne]
    refine ⟨⟨fun h => ⟨hknown, h⟩, fun h => h.2⟩, fun t ht => ?_⟩
    obtain ⟨manager, hm, rfl⟩ := Option.map_eq_some_iff.mp ht
    exact ⟨CoinManager.gpu_setCpuState hne hm, hcounted, hsame⟩

/-- What the announcement of a device's GPU state does. -/
theorem setGpuState_spec {state : GpuState} (hkey : deviceKey ≠ []) :
    ((s.setGpuState key state deviceKey).isSome ↔
      (s.gpuState key deviceKey ≠ state → state = .Running → s.workersCount key = 0 →
        s.TargetKnown key)) ∧
    ∀ t, s.setGpuState key state deviceKey = some t → t.gpuState key deviceKey = state ∧
      ∀ other, other ≠ deviceKey → t.gpuState key other = s.gpuState key other := by
  have hwritten : ∀ t : MergedTargets, (t.manager.coin key).m_gpuStates =
      insertState (s.manager.coin key).m_gpuStates deviceKey state →
      t.gpuState key deviceKey = state ∧
        ∀ other, other ≠ deviceKey → t.gpuState key other = s.gpuState key other := by
    intro t ht
    constructor
    · rw [gpuState, ht, lookup_insertState_self]
      rfl
    · intro other hother
      rw [gpuState, ht, lookup_insertState_of_ne hother]
      rfl
  rw [setGpuState, if_neg hkey]
  by_cases hne : s.gpuState key deviceKey = state
  · have hsame : s.setGpuStateOf key state deviceKey = some s := by
      simp only [setGpuStateOf]
      exact if_neg (not_not.mpr hne)
    rw [hsame]
    refine ⟨by simp [hne], fun t ht => ?_⟩
    cases ht
    exact ⟨hne, fun _ _ => rfl⟩
  · simp only [setGpuStateOf]
    rw [if_pos (show ((s.manager.coin key).m_gpuStates.lookup deviceKey).getD .Stopped ≠ state
      from hne)]
    by_cases hcount : state = .Running ∧ s.workersCount key = 0
    · rw [if_pos hcount]
      constructor
      · rw [countTarget_isSome]
        simp only [mergedMining, setWorkersCount, CoinManager.set_coin_self]
        exact ⟨fun h _ _ _ => h, fun h => h hne hcount.1 hcount.2⟩
      · intro t ht
        apply hwritten
        rw [countTarget_eq_some ht]
        simp only [setWorkersCount, CoinManager.set_coin_self]
    · rw [if_neg hcount]
      constructor
      · refine ⟨fun _ _ hrun hzero => absurd ⟨hrun, hzero⟩ hcount, fun _ => rfl⟩
      · intro t ht
        cases ht
        apply hwritten
        simp only [CoinManager.set_coin_self]

/-- The coin once the CPU announcement has been processed, if there is one. -/
def cpuStep (key : QString) (s : MergedTargets) (e : PoolEvent) : Option MergedTargets :=
  if e.miner.getRunningThreadsCount > 0 then s.cpuStateChanged key e.state.impl else some s

theorem sameNames_cpuStep (h : s.cpuStep key e = some t) : s.manager.SameNames t.manager := by
  rw [cpuStep] at h
  split at h
  case isTrue => exact sameNames_setCpuState h
  case isFalse =>
    cases h
    exact .refl

theorem cpuStep_of_changes (h : s.ChangesCpu key e) :
    s.cpuStep key e = s.setCpuState key e.state.cpu := by
  rw [cpuStep, if_pos h.1]
  unfold cpuStateChanged
  cases e.state <;> rfl

theorem cpuStep_of_not_changes (h : ¬ s.ChangesCpu key e) : s.cpuStep key e = some s := by
  rw [cpuStep]
  split
  case isTrue hcount =>
    have hsame : (s.manager.coin key).m_cpuState = e.state.cpu := by
      by_contra hne
      exact h ⟨hcount, hne⟩
    have hset : s.setCpuState key e.state.cpu = some s := by
      rw [setCpuState, if_neg (not_not.mpr hsame)]
    rw [← hset]
    unfold cpuStateChanged
    cases e.state <;> rfl
  case isFalse => rfl

theorem cpu_eq_running {state : PoolState} : state.cpu = .Running ↔ state = .Connected := by
  cases state <;> decide

theorem gpu_eq_running {state : PoolState} : state.gpu = .Running ↔ state = .Connected := by
  cases state <;> decide

theorem cpuStep_isSome : (s.cpuStep key e).isSome ↔
    (s.ChangesCpu key e → e.state = .Connected → s.TargetKnown key) ∧
      (s.ChangesCpu key e → (s.manager.coin key).connected = true → s.manager.TargetsExist) := by
  by_cases h : s.ChangesCpu key e
  · rw [cpuStep_of_changes h, (setCpuState_spec h.2).1, cpu_eq_running]
    simp only [h, forall_const]
  · rw [cpuStep_of_not_changes h]
    simp [h]

theorem cpuStep_gpuState (ht : s.cpuStep key e = some t) :
    t.gpuState key deviceKey = s.checkedState key e deviceKey := by
  by_cases h : s.ChangesCpu key e
  · rw [cpuStep_of_changes h] at ht
    obtain ⟨hgpu, -⟩ := (setCpuState_spec h.2).2 t ht
    rw [gpuState, checkedState, show (t.manager.coin key).m_gpuStates = t.manager.gpu key from rfl,
      hgpu]
    simp only [h, true_and]
  · rw [cpuStep_of_not_changes h, Option.some.injEq] at ht
    rw [← ht, checkedState, if_neg (fun hc => h hc.1)]
    rfl

/-- No worker is left to be counted for a device, unless none was before. -/
theorem cpuStep_workersCount (ht : s.cpuStep key e = some t) (hzero : t.workersCount key = 0)
    (hconnected : e.state = .Connected) : ¬ s.ChangesCpu key e ∧ s.workersCount key = 0 := by
  by_cases h : s.ChangesCpu key e
  · rw [cpuStep_of_changes h] at ht
    obtain ⟨-, hcounted, -⟩ := (setCpuState_spec h.2).2 t ht
    exact absurd hzero (hcounted (cpu_eq_running.mpr hconnected))
  · rw [cpuStep_of_not_changes h, Option.some.injEq] at ht
    exact ⟨h, ht ▸ hzero⟩

theorem poolStep_eq : s.poolStep key e = (s.cpuStep key e).bind fun t =>
    exec (engineStep key) t
      (e.first.map fun ctx => .gpuStateChanged e.state.impl ctx.deviceKey).toList := by
  rw [poolStep, PoolEvent.queued_eq, cpuStep]
  split
  · rfl
  · rfl

theorem gpuStep_eq (ctx : GPUCtx) :
    exec (engineStep key) t [.gpuStateChanged e.state.impl ctx.deviceKey] =
      t.setGpuState key e.state.gpu ctx.deviceKey := by
  have hstep : t.engineStep key (.gpuStateChanged e.state.impl ctx.deviceKey) =
      t.setGpuState key e.state.gpu ctx.deviceKey := by
    unfold engineStep gpuStateChanged
    cases e.state <;> rfl
  rw [← hstep, exec]
  exact Option.bind_fun_some _

theorem first_mem (h : e.first = some ctx) : ctx ∈ e.miner.m_gpuContextList :=
  List.mem_of_find?_eq_some h

theorem first_state (h : e.first = some ctx) : ctx.state ≠ .Exit := by
  have hstate := List.find?_some h
  simpa using hstate

/-- The announcements can all be processed if and only if no name of a target that they use is one
of a null coin. -/
theorem poolStep_isSome : (s.poolStep key e).isSome ↔
    (s.ChangesCpu key e → e.state = .Connected → s.TargetKnown key) ∧
    (s.ChangesCpu key e → (s.manager.coin key).connected = true → s.manager.TargetsExist) ∧
    ∀ ctx ∈ e.first, e.state = .Connected → s.checkedState key e ctx.deviceKey ≠ .Running →
      s.workersCount key = 0 → s.TargetKnown key := by
  rw [← and_assoc, ← cpuStep_isSome, poolStep_eq]
  cases hu : s.cpuStep key e with
  | none => simp
  | some u =>
    have hnamed : u.TargetKnown key ↔ s.TargetKnown key := by
      have hsame := sameNames_cpuStep hu
      rw [TargetKnown, TargetKnown, mergedMining, mergedMining, hsame.names, hsame.miners]
    cases hfirst : e.first with
    | none => simp
    | some ctx =>
      have hdevice := e.miner.named ctx (first_mem hfirst)
      rw [Option.map_some, Option.toList_some, Option.bind_some, gpuStep_eq,
        (setGpuState_spec hdevice).1, cpuStep_gpuState hu, gpu_eq_running, hnamed]
      simp only [Option.isSome_some, true_and, Option.mem_some_iff, forall_eq']
      constructor
      · intro h hconnected hstate hzero
        rw [hconnected] at h
        by_cases hchanges : s.ChangesCpu key e
        · exact (cpuStep_isSome.mp (by rw [hu]; rfl)).1 hchanges hconnected
        · rw [cpuStep_of_not_changes hchanges, Option.some.injEq] at hu
          exact h hstate rfl (hu ▸ hzero)
      · intro h hstate hconnected hzero
        rw [hconnected] at hstate
        exact h hconnected hstate (cpuStep_workersCount hu hzero hconnected).2

theorem poolStep_gpuState (ht : s.poolStep key e = some t)
    (hctx : ctx ∈ e.miner.m_gpuContextList) : t.gpuState key ctx.deviceKey =
      if e.first = some ctx then e.state.gpu else s.checkedState key e ctx.deviceKey := by
  rw [poolStep_eq] at ht
  obtain ⟨u, hu, ht⟩ := Option.bind_eq_some_iff.mp ht
  cases hfirst : e.first with
  | none =>
    rw [hfirst] at ht
    cases ht
    rw [cpuStep_gpuState hu]
    rfl
  | some announced =>
    have hmem := first_mem hfirst
    rw [hfirst, Option.map_some, Option.toList_some, gpuStep_eq] at ht
    obtain ⟨hself, hothers⟩ := (setGpuState_spec (e.miner.named announced hmem)).2 t ht
    by_cases heq : announced = ctx
    · rw [if_pos (congrArg some heq), ← heq]
      exact hself
    · rw [if_neg (fun h => heq (Option.some.inj h)), ← cpuStep_gpuState hu]
      apply hothers
      intro hkey
      exact heq (List.inj_on_of_nodup_map e.miner.nodup hmem hctx hkey.symm)

/-- An event is followed exactly when the state before it meets the guard. -/
theorem follows_iff : s.Follows key e ↔ s.PoolGuard key e := by
  constructor
  · rintro ⟨t, ht, hstates⟩
    obtain ⟨hknown, htargets, hcounted⟩ := poolStep_isSome.mp (Option.isSome_of_eq_some ht)
    refine ⟨hknown, htargets, hcounted, fun ctx hfirst hstate => ?_, fun ctx hctx hstate hne => ?_,
      fun ctx hctx hstate hne => ?_⟩
    · have hctx := first_mem hfirst
      have hsame := (hstates ctx hctx).2 (Or.inr hstate)
      rw [poolStep_gpuState ht hctx, if_pos (Option.mem_def.mp hfirst)] at hsame
      exact hsame.symm
    · rw [← (hstates ctx hctx).1 hstate, poolStep_gpuState ht hctx, if_neg hne]
    · rw [← (hstates ctx hctx).2 hstate, poolStep_gpuState ht hctx, if_neg hne]
  · intro h
    obtain ⟨t, ht⟩ := Option.isSome_iff_exists.mp
      (poolStep_isSome.mpr ⟨h.known, h.targets, h.counted⟩)
    refine ⟨t, ht, fun ctx hctx => ⟨fun hstate => ?_, fun hstate => ?_⟩⟩
    · rw [poolStep_gpuState ht hctx]
      split
      case isTrue => rfl
      case isFalse hne => exact h.mining ctx hctx hstate hne
    · rw [poolStep_gpuState ht hctx]
      split
      case isTrue hfirst =>
        exact (h.announced ctx hfirst (hstate.resolve_left (first_state hfirst))).symm
      case isFalse hne => exact h.stopped ctx hctx hstate hne

/-- The GPU states follow every event of a sequence exactly when each event finds the coin and the
workers as the guard says, once all events before it have been processed. -/
theorem gpu_states_follow_iff (key : QString) (s : MergedTargets) (es : List PoolEvent) :
    (∀ fs e, fs ++ [e] <+: es → ∀ t,
      exec (engineStep key) s (fs.flatMap PoolEvent.queued) = some t → t.Follows key e) ↔
        Along (poolStep key) (PoolGuard key) s es := by
  rw [← Along.congr fun s e => follows_iff, along_iff_prefix]
  simp only [exec_flatMap]
  exact Iff.rfl

def twoDevices : MinerWorkers where
  m_workers := []
  m_gpuContextList := [⟨['1', '_', '0'], .Mining⟩, ⟨['1', '_', '1'], .Mining⟩]
  named := by decide
  nodup := by decide

def mining : MergedTargets where
  manager :=
    { m_miners := [fcn]
      nodup := by decide
      coin := fun _ =>
        ⟨.Stopped, [(['1', '_', '0'], .Running), (['1', '_', '1'], .Running)], 1, false, true, [],
          true⟩
      msUsedCores := 0
      underflowed := false }
  workersCount _ := 1

/-- Two devices mine when the pool fails. -/
theorem second_device_keeps_running :
    ¬ ∀ (key : QString) (s : MergedTargets) (es : List PoolEvent) (fs : List PoolEvent)
      (e : PoolEvent), fs ++ [e] <+: es → ∀ t,
        exec (engineStep key) s (fs.flatMap PoolEvent.queued) = some t → t.Follows key e := by
  intro h
  obtain ⟨t, ht, hstates⟩ := h fcn mining [⟨.Error, twoDevices⟩] [] ⟨.Error, twoDevices⟩
    (List.prefix_refl _) mining rfl
  have hstate := (hstates ⟨['1', '_', '1'], .Mining⟩ (by decide)).1 (Or.inl rfl)
  have hrun : (mining.poolStep fcn ⟨.Error, twoDevices⟩).map
      (fun t => t.gpuState fcn ['1', '_', '1']) = some .Running := by decide +kernel
  rw [ht, Option.map_some, hstate] at hrun
  cases hrun

end MergedTargets

end MinerGate
