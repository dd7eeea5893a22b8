import MinerGate.Miner.Impl

/-!
# Start and stop of a CPU worker

`stop` stores `Exit` at once. A start event still queued then, the first store of a call of
`startMining` and the store of `Mining` after the last look at the state all come later and
undo it.
-/

namespace MinerGate

set_option autoImplicit false

open Transition

namespace CpuLoop
variable {l : CpuLoop} {search : Search} {sh : Shared} {inp : Input} {r : Result CpuLoop}

theorem step_alive (h : l.step search sh inp = some r)
    (hl : l.pc = .entry ∨ l.pc = .setMining ∨ sh.m_state ≠ .Exit) :
    r.loop.pc ≠ .idle ∧ r.m_state ≠ .Exit := by
  have hstate : l.pc ≠ .entry → l.pc ≠ .setMining → sh.m_state ≠ .Exit := fun hentry hmining =>
    (hl.resolve_left hentry).resolve_left hmining
  cases step_cases h with
  | entry job | setMining job => exact ⟨CpuPc.noConfusion, MinerThreadState.noConfusion⟩
  | goes hgoes =>
    cases hgoes with
    | exit hexit | exitCopied hexit =>
      exact absurd hexit (hstate CpuPc.noConfusion CpuPc.noConfusion)
    | _ => exact ⟨CpuPc.noConfusion, hstate CpuPc.noConfusion CpuPc.noConfusion⟩
  | _ => exact ⟨CpuPc.noConfusion, hstate CpuPc.noConfusion CpuPc.noConfusion⟩

/-- On the state `Exit` the loop stores nothing, and it returns when it comes to its `switch`. -/
theorem step_stopped (h : l.step search sh inp = some r) (hexit : sh.m_state = .Exit)
    (hl : l.pc ≠ .entry ∧ l.pc ≠ .setMining) :
    r.m_state = .Exit ∧ (r.loop.pc ≠ .entry ∧ r.loop.pc ≠ .setMining) ∧
      (l.pc = .switch → r.loop.pc = .idle) := by
  cases step_cases h with
  | entry job => exact absurd rfl hl.1
  | setMining job => exact absurd rfl hl.2
  | goes hgoes =>
    cases hgoes with
    | exit => exact ⟨hexit, ⟨CpuPc.noConfusion, CpuPc.noConfusion⟩, fun _ => rfl⟩
    | update hm | job hm => simp [hexit] at hm
    | mine hm => exact absurd hexit hm
    | _ => exact ⟨hexit, ⟨CpuPc.noConfusion, CpuPc.noConfusion⟩, CpuPc.noConfusion⟩
  | _ => exact ⟨hexit, ⟨CpuPc.noConfusion, CpuPc.noConfusion⟩, CpuPc.noConfusion⟩

end CpuLoop

namespace AbstractMinerImpl

/-- The last call of `start` or `stop` of a worker; `overtaken` is a stop that came while a start
was queued or the loop was about to store the state without looking at it. -/
inductive LastCall where
  | none
  | start
  | stop (overtaken : Bool)
deriving DecidableEq, Repr

/-- `iterated` says that the loop has been at its `switch` since anything else happened to the
worker. -/
structure History where
  last : LastCall
  iterated : Bool
deriving DecidableEq, Repr

/-- A start is queued for the worker, or its loop stores the state next. -/
def starting (s : AbstractMinerImpl) (i : Nat) : Prop :=
  0 < (s.threads (.cpu i)).starts ∨ (s.cpuLoops i).pc = .entry ∨ (s.cpuLoops i).pc = .setMining

instance (s : AbstractMinerImpl) (i : Nat) : Decidable (s.starting i) :=
  inferInstanceAs (Decidable (_ ∨ _))

def Running (s : AbstractMinerImpl) (i : Nat) : Prop := (s.cpuLoops i).pc ≠ .idle

instance (s : AbstractMinerImpl) (i : Nat) : Decidable (s.Running i) :=
  inferInstanceAs (Decidable (_ ≠ _))

def noteCall (i : Nat) (s : AbstractMinerImpl) (e : Event) (h : History) : History :=
  match e with
  | .main =>
    match s.ops, s.tasks with
    | op :: _, _ =>
      if op = .start (.cpu i) then ⟨.start, false⟩
      else if op = .setUpdateJob (.cpu i) then { h with iterated := false }
      else h
    | [], task :: _ => if task = .stopCpu i then ⟨.stop (s.starting i), false⟩ else h
    | [], [] => h
  | .deliverStart id => if id = .cpu i then { h with iterated := false } else h
  | .loop id _ =>
    if id = .cpu i ∧ (s.cpuLoops i).pc = .switch then { h with iterated := true } else h
  | _ => h

/-- All start events are processed, no call is under way, and the loop has taken a full iteration
since, unless it is not running. -/
def Quiet (s : AbstractMinerImpl) (i : Nat) (h : History) : Prop :=
  s.mainIdle ∧ (s.threads (.cpu i)).starts = 0 ∧ (h.iterated = true ∨ ¬ s.Running i)

instance (s : AbstractMinerImpl) (i : Nat) (h : History) : Decidable (s.Quiet i h) :=
  inferInstanceAs (Decidable (_ ∧ _))

def Alive (s : AbstractMinerImpl) (i : Nat) : Prop :=
  s.starting i ∨ s.Running i ∧ s.getState (.cpu i) ≠ .Exit

/-- The accesses of the main thread that let a worker's loop go on. -/
def Revives (id : WorkerId) : Op → Prop
  | .setUpdateJob j | .start j | .setStopping j => j = id
  | _ => False

structure Stopped (s : AbstractMinerImpl) (i : Nat) (h : History) : Prop where
  starting : ¬ s.starting i
  exit : s.getState (.cpu i) = .Exit
  ops : ∀ op ∈ s.ops, ¬ Revives (.cpu i) op
  settled : h.iterated = true → ¬ s.Running i

/-- After such a call the worker ends up running. -/
def LastCall.revived : LastCall → Bool
  | .start => true
  | .stop overtaken => overtaken
  | .none => false

/-- In the middle of a launch nothing is known; after it the worker is alive or stopped. -/
def CallInv (i : Nat) (s : AbstractMinerImpl) (h : History) : Prop :=
  (s.ops ≠ [] ∧ s.ops <:+ launch (.cpu i)) ∨ (h.last.revived = true ∧ s.Alive i) ∨
    (h.last.revived = false ∧ s.Stopped i h)

structure SameWorker (i : Nat) (s t : AbstractMinerImpl) : Prop where
  starts : (t.threads (.cpu i)).starts = (s.threads (.cpu i)).starts
  state : t.getState (.cpu i) = s.getState (.cpu i)
  loop : t.cpuLoops i = s.cpuLoops i

section Steps
variable {i : Nat} {s t : AbstractMinerImpl} {h : History}

theorem SameWorker.starting (hst : SameWorker i s t) : t.starting i ↔ s.starting i := by
  rw [AbstractMinerImpl.starting, AbstractMinerImpl.starting, hst.starts, hst.loop]

theorem SameWorker.alive (hst : SameWorker i s t) (hs : s.Alive i) : t.Alive i := by
  refine hs.imp hst.starting.mpr fun hrun => ?_
  rw [Running, hst.loop, hst.state]
  exact hrun

theorem SameWorker.stopped (hst : SameWorker i s t) (hs : s.Stopped i h)
    (hops : ∀ op ∈ t.ops, ¬ Revives (.cpu i) op) : t.Stopped i h := by
  refine ⟨mt hst.starting.mp hs.starting, hst.state.trans hs.exit, hops, fun hit => ?_⟩
  rw [Running, hst.loop]
  exact hs.settled hit

theorem SameWorker.callInv (hst : SameWorker i s t) (hops : t.ops = s.ops)
    (hs : CallInv i s h) : CallInv i t h := by
  rcases hs with hl | ⟨hr, hs⟩ | ⟨hr, hs⟩
  · exact Or.inl (hops ▸ hl)
  · exact Or.inr (Or.inl ⟨hr, hst.alive hs⟩)
  · exact Or.inr (Or.inr ⟨hr, hst.stopped hs (hops ▸ hs.ops)⟩)

theorem sameWorker_updateThread {id : WorkerId} {f : WorkerThread → WorkerThread}
    (hid : id ≠ .cpu i ∨ ∀ th, (f th).starts = th.starts ∧
      (f th).worker.m_state = th.worker.m_state) : SameWorker i s (s.updateThread id f) := by
  by_cases hi : .cpu i = id
  · subst hi
    rcases hid with hid | hid
    · exact absurd rfl hid
    · refine ⟨?_, ?_, rfl⟩
      · rw [updateThread_self]
        exact (hid _).1
      · rw [getState, updateThread_self]
        exact (hid _).2
  · refine ⟨?_, ?_, rfl⟩
    · rw [updateThread_of_ne hi]
    · rw [getState, updateThread_of_ne hi, getState]

theorem runOp_same {op : Op} (hop : ¬ Revives (.cpu i) op) : SameWorker i s (s.runOp op) := by
  cases op with
  | checkMining id | checkUpdateJob id | checkFeeJob id | checkStopping id =>
    simp only [runOp]
    split <;> exact ⟨rfl, rfl, rfl⟩
  | storeJob id | storeFeeJob id =>
    simp only [runOp]
    exact sameWorker_updateThread (Or.inr fun th => ⟨rfl, rfl⟩)
  | setUpdateJob id | start id | setStopping id =>
    simp only [runOp, setState]
    exact sameWorker_updateThread (Or.inl hop)

theorem runOp_alive {op : Op} (hs : s.Alive i) : (s.runOp op).Alive i := by
  by_cases hop : Revives (.cpu i) op
  · cases op with
    | setUpdateJob id | setStopping id =>
      cases hop
      refine hs.imp (fun hst => ?_) fun hrun => ⟨hrun.1, ?_⟩
      · simpa [AbstractMinerImpl.starting, runOp, setState, WorkerThread.setState] using hst
      · simp [getState, runOp, setState, WorkerThread.setState]
    | start id =>
      cases hop
      left
      left
      simp [runOp]
    | _ => cases hop
  · exact (runOp_same hop).alive hs

theorem runOp_ops_subset {op : Op} : ∀ o ∈ (s.runOp op).ops, o ∈ s.ops := by
  intro o ho
  cases op with
  | checkMining id =>
    simp only [runOp] at ho
    split at ho
    · exact List.mem_of_mem_drop ho
    · exact ho
  | checkUpdateJob id | checkFeeJob id =>
    simp only [runOp] at ho
    split at ho
    · exact ho
    · exact List.mem_of_mem_drop ho
  | checkStopping id =>
    simp only [runOp] at ho
    split at ho <;> exact ho
  | _ => exact ho

theorem revives_launch {id j : WorkerId} : ∀ op ∈ launch id, Revives j op → j = id := by
  intro op hop hr
  cases id <;>
    simp only [launch, workerUpdateJob, workerUpdateFeeJob, List.cons_append, List.nil_append,
      List.mem_cons, List.not_mem_nil, or_false] at hop <;>
    rcases hop with rfl | rfl | rfl | rfl | rfl | rfl | rfl <;>
    first | exact hr.symm | exact hr.elim

theorem mem_launch_of_updateJob {id : WorkerId} : ∀ op ∈ workerUpdateJob id, op ∈ launch id :=
  fun _ hop => List.mem_append_left _ (List.mem_append_left _ hop)

theorem restartThread_same (id : WorkerId) : SameWorker i s (s.restartThread id) := by
  rw [restartThread]
  split
  · exact sameWorker_updateThread (Or.inr fun th => ⟨rfl, rfl⟩)
  · exact ⟨rfl, rfl, rfl⟩

theorem SameWorker.withOps (hst : SameWorker i s t) (ops : List Op) :
    SameWorker i s { t with ops := ops } := ⟨hst.starts, hst.state, hst.loop⟩

/-- A statement other than the worker's `stop` launches it, or leaves it alone and does not go on to
revive it when its state is `Exit`. -/
theorem runTask_cases {cfg : MinerConfig} {task : Task} (hops : s.ops = [])
    (hne : task ≠ .stopCpu i) (ht : s.runTask cfg task = some t) :
    t.ops = launch (.cpu i) ∨ SameWorker i s t ∧
      (s.getState (.cpu i) = .Exit → ∀ op ∈ t.ops, ¬ Revives (.cpu i) op) := by
  have hnone : ∀ op ∈ s.ops, ¬ Revives (.cpu i) op := by simp [hops]
  have hother : ∀ {id : WorkerId}, id ≠ .cpu i → ∀ op ∈ launch id, ¬ Revives (.cpu i) op :=
    fun hid op hop hr => hid (revives_launch op hop hr).symm
  cases task with
  | startCpu j =>
    cases ht
    by_cases hj : j = i
    · exact Or.inl (by rw [hj])
    · exact Or.inr ⟨(restartThread_same _).withOps _, fun _ => hother (by simpa using hj)⟩
  | setThread j =>
    simp only [runTask] at ht
    split at ht <;> cases ht
    · by_cases hj : j = i
      · exact Or.inl (by rw [hj])
      · exact Or.inr ⟨⟨rfl, rfl, rfl⟩, fun _ => hother (by simpa using hj)⟩
    · exact Or.inr ⟨⟨rfl, rfl, rfl⟩, fun _ => hnone⟩
  | stopCpu j =>
    cases ht
    have hj : WorkerId.cpu j ≠ .cpu i := fun heq => hne (by cases heq; rfl)
    exact Or.inr ⟨sameWorker_updateThread (Or.inl hj), fun _ => hnone⟩
  | startGpu j =>
    simp only [runTask] at ht
    split at ht <;> cases ht
    · exact Or.inr ⟨⟨rfl, rfl, rfl⟩, fun _ => hnone⟩
    · exact Or.inr ⟨(restartThread_same _).withOps _, fun _ => hother (by simp)⟩
  | stopGpu j =>
    simp only [runTask] at ht
    split at ht <;> cases ht
    · exact Or.inr ⟨⟨rfl, rfl, rfl⟩, fun _ => hnone⟩
    · refine Or.inr ⟨⟨rfl, rfl, rfl⟩, fun _ op hop hr => ?_⟩
      rw [List.mem_singleton] at hop
      subst hop
      cases hr
  | quit id =>
    cases ht
    exact Or.inr ⟨sameWorker_updateThread (Or.inr fun th => ⟨rfl, rfl⟩), fun _ => hnone⟩
  | updateJob id =>
    simp only [runTask] at ht
    split at ht <;> cases ht
    · exact Or.inr ⟨⟨rfl, rfl, rfl⟩, fun _ => hnone⟩
    · refine Or.inr ⟨⟨rfl, rfl, rfl⟩, fun hexit op hop hr => ?_⟩
      have hid := revives_launch op (mem_launch_of_updateJob op hop) hr
      subst hid
      contradiction
  | checkRunning id =>
    cases id <;> simp only [runTask] at ht <;> split at ht <;> cases ht
    · exact Or.inr ⟨⟨rfl, rfl, rfl⟩, fun _ => hnone⟩
    · exact Or.inr ⟨⟨rfl, rfl, rfl⟩, fun _ => hnone⟩
    · exact Or.inr ⟨⟨rfl, rfl, rfl⟩, fun _ => hnone⟩
    · refine Or.inr ⟨⟨rfl, rfl, rfl⟩, fun _ op hop hr => ?_⟩
      rw [List.mem_singleton] at hop
      subst hop
      cases hr
  | wait j =>
    obtain ⟨-, ht⟩ := Option.ite_none_right_eq_some.mp ht
    cases ht
    exact Or.inr ⟨⟨rfl, rfl, rfl⟩, fun _ => hnone⟩
  | checkGpuThread j =>
    simp only [runTask] at ht
    split at ht <;> cases ht <;> exact Or.inr ⟨⟨rfl, rfl, rfl⟩, fun _ => hnone⟩
  | _ =>
    cases ht
    exact Or.inr ⟨⟨rfl, rfl, rfl⟩, fun _ => hnone⟩

theorem noteCall_op {op : Op} {ops : List Op} (hops : s.ops = op :: ops) :
    noteCall i s .main h =
      if op = .start (.cpu i) then ⟨.start, false⟩
      else if op = .setUpdateJob (.cpu i) then { h with iterated := false }
      else h := by
  simp only [noteCall, hops]

theorem noteCall_task {task : Task} {tasks : List Task} (hops : s.ops = [])
    (htasks : s.tasks = task :: tasks) :
    noteCall i s .main h = if task = .stopCpu i then ⟨.stop (s.starting i), false⟩ else h := by
  simp only [noteCall, hops, htasks]

theorem launch_step {op : Op} {ops : List Op} (hops : s.ops = op :: ops)
    (hl : op :: ops <:+ launch (.cpu i)) :
    CallInv i ({ s with ops := ops }.runOp op) (noteCall i s .main h) := by
  simp only [launch, workerUpdateJob, workerUpdateFeeJob, List.cons_append, List.nil_append,
    List.suffix_cons_iff, List.suffix_nil, List.cons.injEq, reduceCtorEq, or_false] at hl
  rcases hl with ⟨rfl, rfl⟩ | ⟨rfl, rfl⟩ | ⟨rfl, rfl⟩ | ⟨rfl, rfl⟩
  · exact Or.inl ⟨by simp [runOp], ⟨[.storeJob (.cpu i)], rfl⟩⟩
  · exact Or.inl ⟨by simp [runOp, setState], ⟨[.storeJob (.cpu i), .setUpdateJob (.cpu i)], rfl⟩⟩
  · exact Or.inl ⟨by simp [runOp],
      ⟨[.storeJob (.cpu i), .setUpdateJob (.cpu i), .storeFeeJob (.cpu i)], rfl⟩⟩
  · rw [noteCall_op hops, if_pos rfl]
    exact Or.inr (Or.inl ⟨rfl, Or.inl (Or.inl (by simp [runOp]))⟩)

theorem runMain_inv {cfg : MinerConfig} (hs : CallInv i s h) (ht : s.runMain cfg = some t) :
    CallInv i t (noteCall i s .main h) := by
  rcases runMain_eq_some ht with ⟨op, ops, hops, rfl⟩ | ⟨task, tasks, hops, htasks, ht⟩
  · rcases hs with hl | ⟨hr, hs⟩ | ⟨hr, hs⟩
    · exact launch_step hops (hops ▸ hl.2)
    · have ha : Alive { s with ops := ops } i := hs
      have hr' : (noteCall i s .main h).last.revived = true := by
        rw [noteCall_op hops]
        split
        · rfl
        · split <;> exact hr
      exact Or.inr (Or.inl ⟨hr', runOp_alive ha⟩)
    · have hop : ¬ Revives (.cpu i) op := hs.ops op (by simp [hops])
      have hnote : noteCall i s .main h = h := by
        rw [noteCall_op hops, if_neg (fun heq => hop (by rw [heq]; rfl)),
          if_neg (fun heq => hop (by rw [heq]; rfl))]
      rw [hnote]
      have hst : Stopped { s with ops := ops } i h :=
        ⟨hs.starting, hs.exit, fun o ho => hs.ops o (by simp [hops, ho]), hs.settled⟩
      exact Or.inr (Or.inr ⟨hr, (runOp_same hop).stopped hst fun o ho =>
        hst.ops o (runOp_ops_subset o ho)⟩)
  · rw [noteCall_task hops htasks]
    by_cases htask : task = .stopCpu i
    · subst htask
      rw [if_pos rfl]
      cases ht
      have hstart : starting (setState { s with tasks := tasks } (.cpu i) .Exit) i ↔
          s.starting i := by
        simp [AbstractMinerImpl.starting, setState, WorkerThread.setState]
      by_cases hst : s.starting i
      · exact Or.inr (Or.inl ⟨decide_eq_true hst, Or.inl (hstart.mpr hst)⟩)
      · refine Or.inr (Or.inr
          ⟨decide_eq_false hst, mt hstart.mp hst, ?_, ?_, fun hit => by cases hit⟩)
        · simp [getState, setState, WorkerThread.setState]
        · simp [setState, hops]
    · rw [if_neg htask]
      have hnone : ({ s with tasks := tasks } : AbstractMinerImpl).ops = [] := hops
      rcases runTask_cases hnone htask ht with hl | ⟨hsame, hquiet⟩
      · refine Or.inl ⟨?_, hl ▸ List.suffix_refl _⟩
        rw [hl]
        simp [launch]
      · rcases hs with hl | ⟨hr, hs⟩ | ⟨hr, hs⟩
        · exact absurd hops hl.1
        · have ha : Alive { s with tasks := tasks } i := hs
          exact Or.inr (Or.inl ⟨hr, hsame.alive ha⟩)
        · have hst : Stopped { s with tasks := tasks } i h :=
            ⟨hs.starting, hs.exit, hs.ops, hs.settled⟩
          exact Or.inr (Or.inr ⟨hr, hsame.stopped hst (hquiet hs.exit)⟩)

theorem deliverStart_inv {id : WorkerId} (hs : CallInv i s h) (ht : s.deliverStart id = some t) :
    CallInv i t (noteCall i s (.deliverStart id) h) := by
  obtain ⟨hq, ht⟩ := Option.ite_none_left_eq_some.mp ht
  by_cases hid : id = .cpu i
  · subst hid
    obtain ⟨-, ht⟩ := Option.ite_none_right_eq_some.mp ht
    cases ht
    have hpos : 0 < (s.threads (.cpu i)).starts := Nat.pos_of_ne_zero fun h0 => hq (Or.inl h0)
    simp only [noteCall, if_true]
    rcases hs with hl | ⟨hr, -⟩ | ⟨-, hs⟩
    · exact Or.inl hl
    · exact Or.inr (Or.inl ⟨hr, Or.inl (Or.inr (Or.inl (by simp [CpuLoop.goto])))⟩)
    · exact absurd (Or.inl hpos) hs.starting
  · simp only [noteCall, if_neg hid]
    have hsame : SameWorker i s (s.updateThread id fun th => { th with starts := th.starts - 1 }) :=
      sameWorker_updateThread (Or.inl hid)
    cases id with
    | cpu j =>
      have hj : i ≠ j := fun heq => hid (by rw [heq])
      obtain ⟨-, ht⟩ := Option.ite_none_right_eq_some.mp ht
      cases ht
      exact SameWorker.callInv ⟨hsame.starts, hsame.state, by simp [hj]⟩ rfl hs
    | gpu j =>
      simp only at ht
      split at ht
      · cases ht
        exact SameWorker.callInv ⟨hsame.starts, hsame.state, rfl⟩ rfl hs
      · cases ht
        exact SameWorker.callInv hsame rfl hs
      · cases ht

theorem runLoop_inv {cfg : MinerConfig} {inp : Input} {id : WorkerId} (hs : CallInv i s h)
    (ht : s.runLoop cfg inp id = some t) : CallInv i t (noteCall i s (.loop id inp) h) := by
  obtain ⟨r, hr, hstep⟩ := runLoop_cases ht
  by_cases hid : id = .cpu i
  · subst hid
    obtain ⟨q, hq, rfl⟩ := Option.map_eq_some_iff.mp hr
    have hloop : t.cpuLoops i = q.loop := Loop.cpu.inj hstep.loop
    have hstarts : (t.threads (.cpu i)).starts = (s.threads (.cpu i)).starts := by
      simp [hstep.threads, setState, WorkerThread.setState]
    have hstate : t.getState (.cpu i) = q.m_state := by
      simp [getState, hstep.threads, setState, WorkerThread.setState, Result.map]
    have hlast : (noteCall i s (.loop (.cpu i) inp) h).last = h.last := by
      simp only [noteCall]
      split <;> rfl
    rw [CallInv, hlast]
    rcases hs with hl | ⟨hr, hs⟩ | ⟨hr, hs⟩
    · exact Or.inl (hstep.main.2 ▸ hl)
    · refine Or.inr (Or.inl ⟨hr, ?_⟩)
      have halive : (s.cpuLoops i).pc = .entry ∨ (s.cpuLoops i).pc = .setMining ∨
          s.getState (.cpu i) ≠ .Exit → t.Alive i := by
        intro hl
        obtain ⟨hpc, hne⟩ := CpuLoop.step_alive hq hl
        exact Or.inr ⟨by rwa [Running, hloop], by rwa [hstate]⟩
      rcases hs with (hst | hpc | hpc) | ⟨-, hne⟩
      · exact Or.inl (Or.inl (by rwa [hstarts]))
      · exact halive (Or.inl hpc)
      · exact halive (Or.inr (Or.inl hpc))
      · exact halive (Or.inr (Or.inr hne))
    · obtain ⟨hstarts0, hentry, hmining⟩ : ¬ 0 < (s.threads (.cpu i)).starts ∧
          (s.cpuLoops i).pc ≠ .entry ∧ (s.cpuLoops i).pc ≠ .setMining := by
        simpa [AbstractMinerImpl.starting, not_or] using hs.starting
      obtain ⟨hexit, hpc, hidle⟩ := CpuLoop.step_stopped hq hs.exit ⟨hentry, hmining⟩
      refine Or.inr (Or.inr ⟨hr, ?_, hstate.trans hexit, hstep.main.2 ▸ hs.ops, fun hit => ?_⟩)
      · rw [AbstractMinerImpl.starting, hstarts, hloop]
        simp [hstarts0, hpc]
      · by_cases hsw : (s.cpuLoops i).pc = .switch
        · simp [Running, hloop, hidle hsw]
        · have hnote : noteCall i s (.loop (.cpu i) inp) h = h := by simp [noteCall, hsw]
          rw [hnote] at hit
          have hpc : (s.cpuLoops i).pc = .idle := not_not.mp (hs.settled hit)
          simp [CpuLoop.step, hpc] at hq
  · have hnote : noteCall i s (.loop id inp) h = h := by simp [noteCall, hid]
    rw [hnote]
    have hother : WorkerId.cpu i ≠ id := fun heq => hid heq.symm
    have hthread : t.threads (.cpu i) = s.threads (.cpu i) := by
      rw [hstep.threads]
      exact updateThread_of_ne hother
    refine SameWorker.callInv ⟨by rw [hthread], ?_, ?_⟩ hstep.main.2 hs
    · rw [getState, hthread, getState]
    · exact Loop.cpu.inj (hstep.others _ hother)

theorem exitThread_inv {id : WorkerId} (hs : CallInv i s h) (ht : s.exitThread id = some t) :
    CallInv i t h := by
  obtain ⟨-, ht⟩ := Option.ite_none_right_eq_some.mp ht
  cases ht
  exact SameWorker.callInv (sameWorker_updateThread (Or.inr fun th => ⟨rfl, rfl⟩)) rfl hs

theorem step_callInv {cfg : MinerConfig} {e : Event} (hs : CallInv i s h)
    (ht : s.step cfg e = some t) : CallInv i t (noteCall i s e h) := by
  cases e with
  | call c =>
    obtain ⟨-, ht⟩ := Option.ite_none_right_eq_some.mp ht
    cases ht
    exact SameWorker.callInv (s := s) ⟨rfl, rfl, rfl⟩ rfl hs
  | main => exact runMain_inv hs ht
  | deliverStart id => exact deliverStart_inv hs ht
  | exitThread id => exact exitThread_inv hs ht
  | loop id inp => exact runLoop_inv hs ht
  | share =>
    obtain ⟨-, ht⟩ := Option.ite_none_right_eq_some.mp ht
    cases ht
    exact SameWorker.callInv (s := s) ⟨rfl, rfl, rfl⟩ rfl hs

end Steps

def noCalls : History := ⟨.none, false⟩

theorem new_callInv (gpuMiners : Nat → GpuMiner) (i : Nat) : CallInv i (new gpuMiners) noCalls := by
  refine Or.inr (Or.inr ⟨rfl, ?_, rfl, by simp [new], fun hit => by cases hit⟩)
  simp [AbstractMinerImpl.starting, new, WorkerThread.new, CpuLoop.new]

theorem run_callInv {cfg : MinerConfig} {gpuMiners : Nat → GpuMiner} {i : Nat} {es : List Event}
    {s : AbstractMinerImpl} {h : History}
    (hrun : exec (watch (step cfg) (noteCall i)) (new gpuMiners, noCalls) es = some (s, h)) :
    CallInv i s h := by
  refine exec_invariant_of_step (I := fun p => CallInv i p.1 p.2) ?_ (new_callInv gpuMiners i) hrun
  rintro ⟨s, g⟩ e ⟨t, g'⟩ hs ht
  obtain ⟨hstep, rfl⟩ := watch_eq_some.mp ht
  exact step_callInv hs hstep

/-- When everything has settled the worker runs as its last call says, unless that was a stop that
came while a start was queued or the loop was about to store its state. -/
theorem last_call_wins_iff {cfg : MinerConfig} {gpuMiners : Nat → GpuMiner} {i : Nat}
    {es : List Event} {s : AbstractMinerImpl} {h : History}
    (hrun : exec (watch (step cfg) (noteCall i)) (new gpuMiners, noCalls) es = some (s, h))
    (hquiet : s.Quiet i h) :
    (s.Running i ↔ h.last = .start) ↔ h.last ≠ .stop true := by
  obtain ⟨⟨-, hops⟩, hstarts, hsettled⟩ := hquiet
  rcases run_callInv hrun with hl | ⟨hr, hs⟩ | ⟨hr, hs⟩
  · exact absurd hops hl.1
  · have hrunning : s.Running i := by
      rcases hs with (hst | hpc | hpc) | ⟨hrun, -⟩
      · omega
      · simp [Running, hpc]
      · simp [Running, hpc]
      · exact hrun
    cases hlast : h.last with
    | none => simp [hlast, LastCall.revived] at hr
    | start => simp [hrunning]
    | stop overtaken =>
      rw [hlast] at hr
      simp [hrunning, show overtaken = true from hr]
  · have hidle : ¬ s.Running i := hsettled.elim hs.settled id
    cases hlast : h.last with
    | none => simp [hidle]
    | start => simp [hlast, LastCall.revived] at hr
    | stop overtaken =>
      rw [hlast] at hr
      simp [hidle, show overtaken = false from hr]

def oneWorker : MinerConfig where
  cpus := 1
  gpus := 0
  backend := ⟨false, cryptonoteSearch id, ⟨id, id, fun _ _ => none, fun _ _ => none⟩⟩
  m_startNonceIsRandom := false

def startOne : List Event := .call (.startCpu 1) :: List.replicate 5 .main

def stopOne : List Event := .call (.stopCpu false) :: List.replicate 2 .main

def loopSteps (k : Nat) : List Event := List.replicate k (.loop (.cpu 0) ⟨false, .ok, 1, none, 0⟩)

theorem stopped_worker_stays_stopped :
    ∃ s h, exec (watch (step oneWorker) (noteCall 0)) (new fun _ => .ethOcl .new, noCalls)
        (startOne ++ .deliverStart (.cpu 0) :: loopSteps 2 ++ stopOne ++ loopSteps 2) =
          some (s, h) ∧ h.last = .stop false ∧
      ((s.Running 0 ↔ h.last = .start) ↔ h.last ≠ .stop true) := by
  have hmap : (exec (watch (step oneWorker) (noteCall 0)) (new fun _ => .ethOcl .new, noCalls)
      (startOne ++ .deliverStart (.cpu 0) :: loopSteps 2 ++ stopOne ++ loopSteps 2)).map
        (fun p => (p.2.last, decide (p.1.Quiet 0 p.2))) = some (.stop false, true) := by
    decide +kernel
  obtain ⟨⟨s, h⟩, hrun, hp⟩ := Option.map_eq_some_iff.mp hmap
  simp only [Prod.mk.injEq, decide_eq_true_eq] at hp
  exact ⟨s, h, hrun, hp.1, last_call_wins_iff hrun hp.2⟩

/-- A start event still queued when `stopCpu` is called starts the worker again. -/
theorem queued_start_undoes_stop :
    ¬ ∀ (cfg : MinerConfig) (gpuMiners : Nat → GpuMiner) (i : Nat) (es : List Event)
      (s : AbstractMinerImpl) (h : History),
      exec (watch (step cfg) (noteCall i)) (new gpuMiners, noCalls) es = some (s, h) →
        s.Quiet i h → (s.Running i ↔ h.last = .start) := by
  intro hall
  have hmap : (exec (watch (step oneWorker) (noteCall 0)) (new fun _ => .ethOcl .new, noCalls)
      (startOne ++ stopOne ++ .deliverStart (.cpu 0) :: loopSteps 2)).map
        (fun p => (p.2.last, decide (p.1.Quiet 0 p.2), decide (p.1.Running 0))) =
      some (.stop true, true, true) := by
    decide +kernel
  obtain ⟨⟨s, h⟩, hrun, hp⟩ := Option.map_eq_some_iff.mp hmap
  simp only [Prod.mk.injEq, decide_eq_true_eq] at hp
  have hlast := (hall oneWorker _ 0 _ s h hrun hp.2.1).mp hp.2.2
  rw [hp.1] at hlast
  cases hlast

end AbstractMinerImpl
end MinerGate
