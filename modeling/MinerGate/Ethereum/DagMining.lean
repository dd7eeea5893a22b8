import MinerGate.Ethereum.DagKept
import MinerGate.Miner.Delivery

/-!
# The DAG of a search

The three Ethereum back ends take the DAG from the controller at different moments: a CPU worker
after it has stored `Mining`, the CUDA miner when the job's seed hash is not that of its copy,
the OpenCL miner when the seed hash of the job it had is not the controller's. Here is one worker
of either kind beside the controller, the miners and the preparation threads. None of the three
compares the DAG with its job; it is the right one as long as the DAG with which the job was
installed has stayed in the controller.
-/

namespace MinerGate

set_option autoImplicit false

open Transition Delivery

/-- The DAG that a loop has in hand: `m_currentDag`, the copy at `gpuDag` or the one in the buffer
of `algo`. `lastSeedHash` is the CUDA miner's. With `due` the CPU worker's next step is
`prepareCalculation`, and `dagChanged` holds for the OpenCL miner. -/
structure DagCopy where
  dag : Option Dag
  lastSeedHash : QByteArray
  due : Bool
deriving DecidableEq, Repr

namespace DagCopy

def new : DagCopy := ⟨none, [], false⟩

/-- `EthCUDAMiner::start` with a job in hand. It looks for a DAG when the seed hash is not the last
one, after it has checked the card; there is none while one is prepared. -/
def cudaPrepare (copy : DagCopy) (d : DagController) (job : MiningJob) (outcome : Outcome) :
    Option DagCopy :=
  if copy.lastSeedHash = job.blob then if outcome = .ok then some copy else none
  else
    match outcome, d.m_dag with
    | .incapable, _ => some copy
    | .retry, none => some copy
    | .fail, some _ => some .new
    | .ok, some dag => some { copy with dag := some dag, lastSeedHash := job.blob }
    | _, _ => none

/-- `setupAlgo`, where `dagChanged`, and `setKernelArgs`. A null DAG or a null `algo` is not
checked for: the program ends there. -/
def oclPrepare (copy : DagCopy) (d : DagController) (outcome : Outcome) : Option DagCopy :=
  if outcome ≠ .ok then some .new
  else if copy.due then d.m_dag.map fun dag => { copy with dag := some dag, due := false }
  else if copy.dag = none then none
  else some copy

def stepMiner (copy : DagCopy) (d : DagController) (sh : Shared) (inp : Input) :
    GpuMiner → Option DagCopy
  | .ethCuda l =>
    if l.pc = .prepare then copy.cudaPrepare d l.job inp.outcome else some copy
  | .ethOcl l =>
    match l.pc with
    | .copyJob =>
      some { copy with due := sh.m_job.job_id ≠ [] ∧ l.job.blob ≠ d.m_seedHashData }
    | .prepare => copy.oclPrepare d inp.outcome
    | _ => some copy
  | _ => some copy

def stepGpu (copy : DagCopy) (d : DagController) (sh : Shared) (inp : Input) (l : GpuLoop) :
    Option DagCopy :=
  match l.pc with
  | .setUpdate => some .new
  | .run => copy.stepMiner d sh inp l.m_gpuMiner
  | _ => some copy

/-- A step of a worker's loop with its DAG; `prepareCalculation` is a step of its own. -/
def stepLoop (copy : DagCopy) (backend : Backend) (d : DagController) (sh : Shared) (inp : Input) :
    Loop → Option (Result Loop × DagCopy)
  | .cpu l =>
    if copy.due then some (.keep sh (.cpu l), { copy with dag := d.m_dag, due := false })
    else
      (l.step backend.search sh inp).map fun r =>
        (r.map .cpu, { copy with due := l.pc = .setMining })
  | .gpu l =>
    (copy.stepGpu d sh inp l).bind fun copy =>
      (l.step backend.hashing sh inp).map fun r => (r.map .gpu, copy)

end DagCopy

def Loop.searched : Loop → Option MiningJob
  | .cpu l =>
    match l.pc with
    | .search _ _ _ | .hash _ _ _ => some l.m_currentJob
    | _ => none
  | .gpu l => if l.pc = .run then l.m_gpuMiner.searching else none

namespace Loop

/-- The loop's next step takes the DAG from the controller. -/
def fetches (copy : DagCopy) (inp : Input) : Loop → Bool
  | .cpu _ => copy.due
  | .gpu ⟨.run, .ethCuda l⟩ => l.pc = .prepare ∧ inp.outcome = .ok ∧ copy.lastSeedHash ≠ l.job.blob
  | .gpu ⟨.run, .ethOcl l⟩ => l.pc = .prepare ∧ inp.outcome = .ok ∧ copy.due
  | _ => false

/-- The loop copies the worker's job. -/
def copies : Loop → Bool
  | .cpu l => l.pc = .copyJob
  | .gpu ⟨.run, .ethCuda l⟩ => l.pc = .copyJob
  | .gpu ⟨.run, .ethOcl l⟩ => l.pc = .copyJob
  | _ => false

/-- With its copy of the job the loop also finds out whether it has to take another DAG. -/
def compares (m_job : MiningJob) : Loop → Bool
  | .gpu ⟨.run, .ethOcl l⟩ => l.pc = .copyJob ∧ m_job.job_id ≠ []
  | _ => false

/-- The loop has copied a job and can still take a DAG for it. -/
def awaits (copy : DagCopy) : Loop → Bool
  | .cpu l => copy.due || l.pc = .checkExit || l.pc = .setMining
  | .gpu ⟨.run, .ethCuda l⟩ => l.pc = .prepare
  | .gpu ⟨.run, .ethOcl l⟩ => l.pc = .prepare
  | _ => false

theorem awaits_of_fetches {copy : DagCopy} {inp : Input} {l : Loop}
    (h : l.fetches copy inp = true) : l.awaits copy = true := by
  rcases l with l | ⟨pc, miner⟩
  · simp only [fetches] at h
    simp [awaits, h]
  · cases pc <;> cases miner <;> simp_all [fetches, awaits]

end Loop

inductive EthereumBackEnd where
  | cpu
  | cuda (gridSize blockSize : Nat)
  | ocl
deriving DecidableEq, Repr

def EthereumBackEnd.loop : EthereumBackEnd → Loop
  | cpu => .cpu .new
  | cuda gridSize blockSize => .gpu ⟨.idle, .ethCuda (.new gridSize blockSize)⟩
  | ocl => .gpu ⟨.idle, .ethOcl .new⟩

def ethereumBackend (m_fee : Bool) (hashing : Hashing) : Backend :=
  ⟨m_fee, ethereumSearch hashing.ethSearch, hashing⟩

structure DagMining where
  eth : EthereumSystem
  running : RunningWorker
  copy : DagCopy

namespace DagMining

def initial (backEnd : EthereumBackEnd) : DagMining :=
  ⟨.initial, Delivery.initial backEnd.loop, .new⟩

inductive Event where
  | eth (e : EthereumSystem.Event)
  | worker (e : Delivery.Event)
deriving DecidableEq, Repr

/-- The worker gets no job but the miner's current one: from `updateJob`, `startCpu`, `startGpu` or
`setThreadCount`. Nothing is connected to the `updateFeeJob` of an Ethereum miner, so that its fee
job is the empty one. -/
def step (backend : Backend) (s : DagMining) : Event → Option DagMining
  | .eth e => (s.eth.step e).map fun eth => { s with eth := eth }
  | .worker (.loop nonceCtl nonceFeeCtl inp) =>
    (s.copy.stepLoop backend s.eth.dagCtl (s.running.shared backend nonceCtl nonceFeeCtl) inp
        s.running.loop).map fun r =>
      { s with
        running := { s.running.setState r.1.m_state with loop := r.1.loop }
        copy := r.2 }
  | .worker (.storeJob job) =>
    if job = (s.eth.impls 0).m_currentJob then
      (Delivery.step backend s.running (.storeJob job)).map fun running =>
        { s with running := running }
    else none
  | .worker (.storeFeeJob job) =>
    if job = .empty then
      (Delivery.step backend s.running (.storeFeeJob job)).map fun running =>
        { s with running := running }
    else none
  | .worker e =>
    (Delivery.step backend s.running e).map fun running => { s with running := running }

end DagMining

namespace DagMining

/-- From the miner the job passes to the worker and from there to its loop. -/
def noteDag (s : DagMining) (e : Event) (kept : Kept) : Kept :=
  match e with
  | .eth e => s.eth.noteDag e kept
  | .worker (.storeJob _) => { kept with stored := kept.current }
  | .worker (.loop _ _ _) =>
    if s.running.loop.copies then { kept with copied := kept.stored } else kept
  | .worker _ => kept

/-- The calls of `prepareDag` are kept apart, and none is entered between the installation of a job
and the moment at which the loop takes a DAG for it or sees that it has the right one. -/
def TakesInTime (s : DagMining) (kept : Kept) : Event → Prop
  | .eth e => s.eth.KeepsApart e
  | .worker (.loop _ _ inp) =>
    (s.running.loop.fetches s.copy inp = true → kept.copied = true) ∧
      (s.running.loop.compares s.running.worker.m_job = true → kept.stored = true)
  | .worker _ => True

instance (s : DagMining) (kept : Kept) (e : Event) : Decidable (s.TakesInTime kept e) := by
  unfold TakesInTime
  split <;> infer_instance

end DagMining

/-- The CPU loop has its job's DAG from the step that fetches it on, and stays on with it
as long as it mines. -/
def CpuLoop.HasDag (l : CpuLoop) (m_state : MinerThreadState) (copy : DagCopy) : Prop :=
  match l.pc with
  | .idle | .entry => copy.due = false
  | .switch => copy.due = false ∧ (m_state = .Mining → BuiltFor copy.dag l.m_currentJob)
  | .copyJob | .checkExit | .setMining => copy.due = false ∧ m_state ≠ .Mining
  | .draw => copy.due = false → BuiltFor copy.dag l.m_currentJob
  | .copyFeeJob | .reserve => copy.due = false ∧ BuiltFor copy.dag l.m_currentJob
  | .reserveFee originJob =>
    copy.due = false ∧ BuiltFor copy.dag l.m_currentJob ∧ BuiltFor copy.dag originJob
  | .search originJob _ _ | .hash originJob _ _ =>
    copy.due = false ∧ BuiltFor copy.dag l.m_currentJob ∧
      ∀ job ∈ originJob, BuiltFor copy.dag job

def EthCuda.HasDag (l : EthCuda) (m_state : MinerThreadState) (copy : DagCopy) : Prop :=
  (copy.lastSeedHash ≠ [] → copy.dag = some ⟨copy.lastSeedHash⟩) ∧
    match l.pc with
    | .switch => m_state = .Mining → BuiltFor copy.dag l.job
    | .copyJob | .prepare => m_state ≠ .Mining
    | .giveUp | .returned => True
    | _ => BuiltFor copy.dag l.job

def EthOcl.HasDag (l : EthOcl) (copy : DagCopy) : Prop :=
  match l.pc with
  | .prepare => copy.due = false → BuiltFor copy.dag l.job
  | .setExit true | .returned => True
  | _ => BuiltFor copy.dag l.job

def Loop.HasDag (m_state : MinerThreadState) (copy : DagCopy) : Loop → Prop
  | .cpu l => m_state ≠ .Stopping ∧ l.HasDag m_state copy
  | .gpu ⟨pc, .ethCuda l⟩ => pc = .run → l.HasDag m_state copy
  | .gpu ⟨pc, .ethOcl l⟩ => pc = .run → l.HasDag copy
  | _ => False

section Steps
variable {m_state : MinerThreadState} {copy copy' : DagCopy} {d : DagController} {sh : Shared}
  {inp : Input}

theorem CpuLoop.step_hasDag {l : CpuLoop} {ethSearch : MiningJob → Nat → Option QByteArray}
    {r : Result CpuLoop} (hl : l.HasDag sh.m_state copy) (hdue : copy.due = false)
    (hstop : sh.m_state ≠ .Stopping) (hfee : sh.m_feeJob.job_id = [])
    (h : l.step (ethereumSearch ethSearch) sh inp = some r) :
    r.m_state ≠ .Stopping ∧ r.loop.HasDag r.m_state { copy with due := l.pc = .setMining } := by
  cases step_cases h with
  | goes hgoes =>
    refine ⟨hstop, ?_⟩
    cases hgoes with
    | exit hm | exitCopied hm => exact rfl
    | update hm =>
      refine ⟨rfl, ?_⟩
      rw [Result.keep, hm]
      exact MinerThreadState.noConfusion
    | mine hexit hupdate =>
      have hmining : sh.m_state = .Mining := by
        cases hm : sh.m_state with
        | Mining => rfl
        | Exit => exact absurd hm hexit
        | UpdateJob => exact absurd hm hupdate
        | Stopping => exact absurd hm hstop
      exact fun _ => hl.2 hmining
    | noJob hm hid => exact ⟨rfl, fun hmining => absurd hmining hl.2⟩
    | job hm hid => exact ⟨rfl, hl.2⟩
    | drawFee hdraw | draw hdraw => exact ⟨rfl, hl hdue⟩
    | noFeeJob hid => exact ⟨rfl, fun _ => hl.2⟩
    | nonce hlast hm => exact ⟨rfl, hl.2⟩
  | entry job => exact ⟨MinerThreadState.noConfusion, rfl, MinerThreadState.noConfusion⟩
  | copyJob job => exact ⟨hstop, rfl, hl.2⟩
  | setMining job => exact ⟨MinerThreadState.noConfusion, Bool.noConfusion⟩
  | copyFeeJob job hid => exact absurd hfee hid
  | reserveFee originJob job =>
    refine ⟨hstop, rfl, hl.2.1, fun j hj => ?_⟩
    cases Option.mem_some_iff.mp hj
    exact hl.2.2
  | reserve job => exact ⟨hstop, rfl, hl.2, fun j hj => by cases hj⟩
  | leave originJob nonce last job =>
    refine ⟨hstop, rfl, fun _ => ?_⟩
    cases originJob with
    | none => exact hl.2.1
    | some job => exact hl.2.2 job rfl
  | found originJob nonce last job hhash | missed originJob nonce last job hhash =>
    exact ⟨hstop, rfl, hl.2⟩

theorem DagCopy.cudaPrepare_cases {job : MiningJob} {outcome : Outcome}
    (hlast : copy.lastSeedHash ≠ [] → copy.dag = some ⟨copy.lastSeedHash⟩)
    (htakes : outcome = .ok → copy.lastSeedHash ≠ job.blob → BuiltFor d.m_dag job)
    (h : copy.cudaPrepare d job outcome = some copy') :
    (copy'.lastSeedHash ≠ [] → copy'.dag = some ⟨copy'.lastSeedHash⟩) ∧
      (outcome = .ok → BuiltFor copy'.dag job) := by
  unfold cudaPrepare at h
  split at h
  case isTrue hsame =>
    obtain ⟨-, h⟩ := Option.ite_none_right_eq_some.mp h
    cases h
    exact ⟨hlast, fun _ hne => by rw [← hsame] at hne ⊢; exact hlast hne⟩
  case isFalse hother =>
    split at h <;> cases h
    case h_1 | h_2 =>
      refine ⟨hlast, ?_⟩
      intro hok
      cases hok
    case h_3 =>
      refine ⟨fun hne => absurd rfl hne, ?_⟩
      intro hok
      cases hok
    case h_4 dag hdag =>
      have hbuilt := htakes rfl hother
      rw [hdag] at hbuilt
      exact ⟨hbuilt, fun _ => hbuilt⟩

theorem EthCuda.step_hasDag {l : EthCuda} {ethEval : MiningJob → Nat → Option QByteArray}
    {r : Result EthCuda} (hl : l.HasDag sh.m_state copy)
    (hcopy : copy.stepMiner d sh inp (.ethCuda l) = some copy')
    (htakes : l.pc = .prepare → inp.outcome = .ok → copy.lastSeedHash ≠ l.job.blob →
      BuiltFor d.m_dag l.job)
    (h : l.step ethEval sh inp = some r) : r.loop.HasDag r.m_state copy' := by
  obtain ⟨hlast, hl⟩ := hl
  by_cases hpc : l.pc = .prepare
  · rw [DagCopy.stepMiner, if_pos hpc] at hcopy
    obtain ⟨hlast', hbuilt⟩ := DagCopy.cudaPrepare_cases hlast (htakes hpc) hcopy
    refine ⟨hlast', ?_⟩
    cases step_cases h with
    | goes hgoes =>
      cases hgoes with
      | prepared hok => exact hbuilt hok
      | prepareAgain => exact fun hmining => absurd hmining hl
      | prepareFails | incapable => exact trivial
      | _ => cases hpc
    | _ => cases hpc
  · rw [DagCopy.stepMiner, if_neg hpc] at hcopy
    cases hcopy
    refine ⟨hlast, ?_⟩
    cases step_cases h with
    | goes hgoes =>
      cases hgoes with
      | prepared | prepareAgain | prepareFails | incapable => exact absurd rfl hpc
      | update hm =>
        rw [Result.keep, hm]
        exact MinerThreadState.noConfusion
      | mine hm => exact hl hm
      | notBegun | stop | notSynchronized | launchFails => exact trivial
      | begun | notUpdate | lastBatch => exact fun _ => hl
      | _ => exact hl
    | noJob job gridSize blockSize hblob => exact fun _ => builtFor_nil hblob
    | copyJob job gridSize blockSize hblob => exact hl
    | giveUp job gridSize blockSize => exact trivial
    | setMining job gridSize blockSize => exact fun _ => hl
    | reserve | found => exact hl

/-- The buffer of the job before is kept for a job of the controller's seed hash only. -/
theorem DagCopy.builtFor_of_not_due {lastJob : MiningJob}
    (hagrees : ∀ dag ∈ d.m_dag, dag.seedHash = d.m_seedHashData)
    (hlast : BuiltFor copy.dag lastJob) (hjob : BuiltFor d.m_dag sh.m_job)
    (hsame : lastJob.blob = d.m_seedHashData) : BuiltFor copy.dag sh.m_job := by
  intro hblob
  have hseed := hagrees _ (hjob hblob)
  rw [← hsame] at hseed
  simp only at hseed
  rw [hseed] at hblob ⊢
  exact hlast hblob

theorem EthOcl.step_hasDag {l : EthOcl} {ethEval : MiningJob → Nat → Option QByteArray}
    {r : Result EthOcl} (hl : l.HasDag copy)
    (hcopy : copy.stepMiner d sh inp (.ethOcl l) = some copy')
    (hagrees : ∀ dag ∈ d.m_dag, dag.seedHash = d.m_seedHashData)
    (hjob : l.pc = .copyJob → sh.m_job.job_id ≠ [] → BuiltFor d.m_dag sh.m_job)
    (htakes : l.pc = .prepare → inp.outcome = .ok → copy.due = true → BuiltFor d.m_dag l.job)
    (h : l.step ethEval sh inp = some r) : r.loop.HasDag copy' := by
  cases step_cases h with
  | goes hgoes =>
    cases hgoes with
    | prepared hok =>
      simp only [DagCopy.stepMiner, DagCopy.oclPrepare, hok, ne_eq, not_true_eq_false,
        if_false] at hcopy
      split at hcopy
      case isTrue hdue =>
        have hbuilt := htakes rfl hok hdue
        obtain ⟨dag, hdag, rfl⟩ := Option.map_eq_some_iff.mp hcopy
        rwa [hdag] at hbuilt
      case isFalse hdue =>
        obtain ⟨-, hcopy⟩ := Option.ite_none_left_eq_some.mp hcopy
        cases hcopy
        exact hl (by simpa using hdue)
    | prepareFails => exact trivial
    | missed pc hpc =>
      cases hcopy
      rcases hpc with rfl | rfl <;> exact hl
    | notBegun | stop => exact trivial
    | _ =>
      cases hcopy
      exact hl
  | copyJob job hid =>
    cases hcopy
    intro hdue
    refine DagCopy.builtFor_of_not_due hagrees hl (hjob rfl hid) ?_
    simpa [hid] using hdue
  | setExit returns job =>
    cases hcopy
    cases returns with
    | true => exact trivial
    | false => exact hl
  | setMining | findReserve | found =>
    cases hcopy
    exact hl

end Steps

namespace Loop
variable {m_state m_state' : MinerThreadState} {copy : DagCopy} {l : Loop}

theorem HasDag.of_state (hl : l.HasDag m_state copy) (hne : m_state' ≠ .Mining)
    (hstop : ∀ c, l = .cpu c → m_state' ≠ .Stopping) : l.HasDag m_state' copy := by
  rcases l with c | ⟨pc, miner⟩
  · obtain ⟨-, hc⟩ := hl
    refine ⟨hstop c rfl, ?_⟩
    obtain ⟨pc, job⟩ := c
    cases pc <;> first | exact hc | exact ⟨hc.1, hne⟩ | exact ⟨hc.1, fun h => absurd h hne⟩
  · cases miner with
    | cryptonoteCuda l | cryptonoteOcl l => exact hl
    | ethCuda c =>
      intro hpc
      obtain ⟨hlast, hc⟩ := hl hpc
      refine ⟨hlast, ?_⟩
      obtain ⟨pc, job, gridSize, blockSize⟩ := c
      cases pc <;> first | exact hc | exact hne | exact fun h => absurd h hne
    | ethOcl c => exact hl

theorem HasDag.enter {m : Loop} (hl : l.HasDag m_state copy) (h : l.enter = some m) :
    m.HasDag m_state copy := by
  rcases l with c | ⟨pc, miner⟩
  · obtain ⟨hpc, h⟩ := Option.ite_none_right_eq_some.mp h
    cases h
    refine ⟨hl.1, ?_⟩
    have hc := hl.2
    rw [CpuLoop.HasDag, hpc] at hc
    exact hc
  · obtain ⟨-, h⟩ := Option.ite_none_right_eq_some.mp h
    cases h
    cases miner with
    | cryptonoteCuda l | cryptonoteOcl l => exact hl
    | ethCuda l | ethOcl l =>
      intro hrun
      cases hrun

theorem HasDag.searched (hl : l.HasDag m_state copy) : ∀ j ∈ l.searched, BuiltFor copy.dag j := by
  intro j hj
  rcases l with ⟨pc, job⟩ | ⟨pc, miner⟩
  · cases pc with
    | search originJob nonce last | hash originJob nonce last =>
      cases Option.mem_some_iff.mp hj
      exact hl.2.2.1
    | _ => cases hj
  · obtain ⟨hpc, hj⟩ := Option.ite_none_right_eq_some.mp hj
    cases miner with
    | cryptonoteCuda l | cryptonoteOcl l => cases hl
    | ethCuda c =>
      obtain ⟨pc, job, gridSize, blockSize⟩ := c
      have hc := (hl hpc).2
      cases pc with
      | batch _ _ _ | launch _ _ | report _ _ _ =>
        cases Option.mem_some_iff.mp hj
        exact hc
      | _ => cases hj
    | ethOcl c =>
      obtain ⟨pc, job⟩ := c
      have hc := hl hpc
      obtain ⟨hpc, hj⟩ := Option.ite_none_right_eq_some.mp hj
      cases hj
      rcases hpc with rfl | rfl | rfl <;> exact hc

section Step
variable {m_fee : Bool} {hashing : Hashing} {d : DagController} {sh : Shared} {inp : Input}
  {r : Result Loop} {copy' : DagCopy}

theorem HasDag.step (hl : l.HasDag sh.m_state copy) (hfee : sh.m_feeJob.job_id = [])
    (hagrees : ∀ dag ∈ d.m_dag, dag.seedHash = d.m_seedHashData)
    (hcompares : l.compares sh.m_job = true → BuiltFor d.m_dag sh.m_job)
    (hfetches : l.fetches copy inp = true → BuiltFor d.m_dag l.job)
    (h : copy.stepLoop (ethereumBackend m_fee hashing) d sh inp l = some (r, copy')) :
    r.loop.HasDag r.m_state copy' := by
  rcases l with c | ⟨pc, miner⟩
  · simp only [DagCopy.stepLoop] at h
    obtain ⟨hstop, hc⟩ := hl
    split at h
    case isTrue hdue =>
      cases h
      refine ⟨hstop, ?_⟩
      obtain ⟨pc, job⟩ := c
      cases pc with
      | draw => exact fun _ => hfetches hdue
      | idle | entry => cases hdue.symm.trans hc
      | _ => cases hdue.symm.trans hc.1
    case isFalse hdue =>
      obtain ⟨q, hq, heq⟩ := Option.map_eq_some_iff.mp h
      cases heq
      exact CpuLoop.step_hasDag hc (by simpa using hdue) hstop hfee hq
  · obtain ⟨old, hold, h⟩ := Option.bind_eq_some_iff.mp h
    obtain ⟨q, hq, heq⟩ := Option.map_eq_some_iff.mp h
    cases heq
    rcases GpuLoop.step_cases hq with ⟨hrun, p, hp, rfl⟩ | ⟨hset, rfl⟩ | ⟨pc', hpc, hkeep⟩
    · cases hrun
      cases miner with
      | cryptonoteCuda m | cryptonoteOcl m => cases hl
      | ethCuda m =>
        obtain ⟨v, hv, rfl⟩ := Option.map_eq_some_iff.mp hp
        exact fun _ => EthCuda.step_hasDag (hl rfl) hold
          (fun hpc hok hseed => hfetches (decide_eq_true ⟨hpc, hok, hseed⟩)) hv
      | ethOcl m =>
        obtain ⟨v, hv, rfl⟩ := Option.map_eq_some_iff.mp hp
        exact fun _ => EthOcl.step_hasDag (hl rfl) hold hagrees
          (fun hpc hid => hcompares (decide_eq_true ⟨hpc, hid⟩))
          (fun hpc hok hdue => hfetches (decide_eq_true ⟨hpc, hok, hdue⟩)) hv
    · cases hset
      cases hold
      cases miner with
      | cryptonoteCuda m | cryptonoteOcl m => cases hl
      | ethCuda m =>
        refine fun _ => ⟨?_, builtFor_nil rfl⟩
        intro hne
        exact absurd rfl hne
      | ethOcl m => exact fun _ => builtFor_nil rfl
    · cases miner with
      | cryptonoteCuda m | cryptonoteOcl m => cases hl
      | ethCuda m | ethOcl m =>
        rcases hkeep with rfl | rfl
        · intro hrun
          exact absurd hrun hpc
        · intro hrun
          exact absurd hrun hpc

/-- A loop that can still take a DAG has just copied its job, or it is the job that it had. -/
theorem awaits_step (hl : l.HasDag sh.m_state copy)
    (h : copy.stepLoop (ethereumBackend m_fee hashing) d sh inp l = some (r, copy'))
    (hr : r.loop.awaits copy' = true) :
    (l.copies = true ∧ r.loop.job = sh.m_job) ∨
      (l.copies = false ∧ l.awaits copy = true ∧ r.loop.job = l.job) := by
  rcases l with c | ⟨pc, miner⟩
  · simp only [DagCopy.stepLoop] at h
    obtain ⟨-, hc⟩ := hl
    split at h
    case isTrue hdue =>
      cases h
      obtain ⟨pc, job⟩ := c
      cases pc with
      | draw => cases hr
      | idle | entry => cases hdue.symm.trans hc
      | _ => cases hdue.symm.trans hc.1
    case isFalse hdue =>
      obtain ⟨q, hq, heq⟩ := Option.map_eq_some_iff.mp h
      cases heq
      cases CpuLoop.step_cases hq with
      | goes hgoes =>
        cases hgoes with
        | job hm hid => exact Or.inr ⟨rfl, by simp [awaits], rfl⟩
        | _ => cases hr
      | copyJob job => exact Or.inl ⟨rfl, rfl⟩
      | setMining job => exact Or.inr ⟨rfl, by simp [awaits], rfl⟩
      | _ => cases hr
  · obtain ⟨old, hold, h⟩ := Option.bind_eq_some_iff.mp h
    obtain ⟨q, hq, heq⟩ := Option.map_eq_some_iff.mp h
    cases heq
    rcases GpuLoop.step_cases hq with ⟨hrun, p, hp, rfl⟩ | ⟨hset, rfl⟩ | ⟨pc', hpc, hkeep⟩
    · cases hrun
      cases miner with
      | cryptonoteCuda m | cryptonoteOcl m => cases hl
      | ethCuda m =>
        obtain ⟨v, hv, rfl⟩ := Option.map_eq_some_iff.mp hp
        cases EthCuda.step_cases hv with
        | goes hgoes => cases hgoes <;> cases hr
        | copyJob job gridSize blockSize hblob => exact Or.inl ⟨rfl, rfl⟩
        | _ => cases hr
      | ethOcl m =>
        obtain ⟨v, hv, rfl⟩ := Option.map_eq_some_iff.mp hp
        cases EthOcl.step_cases hv with
        | goes hgoes =>
          cases hgoes with
          | missed pc hpc => rcases hpc with rfl | rfl <;> cases hr
          | _ => cases hr
        | copyJob job hid => exact Or.inl ⟨rfl, rfl⟩
        | setExit returns job => cases returns <;> cases hr
        | _ => cases hr
    · cases miner <;> cases hr
    · cases miner <;> rcases hkeep with rfl | rfl <;> cases pc' <;>
        first | cases hr | exact absurd rfl hpc

end Step

theorem awaits_of_enter {m : Loop} (hl : l.HasDag m_state copy) (h : l.enter = some m) :
    m.awaits copy = false := by
  rcases l with c | ⟨pc, miner⟩
  · obtain ⟨hpc, h⟩ := Option.ite_none_right_eq_some.mp h
    cases h
    have hdue := hl.2
    rw [CpuLoop.HasDag, hpc] at hdue
    simp [awaits, hdue, CpuLoop.goto]
  · obtain ⟨-, h⟩ := Option.ite_none_right_eq_some.mp h
    cases h
    cases miner <;> rfl

end Loop

namespace DagMining

variable {m_fee : Bool} {hashing : Hashing} {s t : DagMining}

def HasDag (s : DagMining) : Prop := s.running.loop.HasDag s.running.worker.m_state s.copy

theorem HasDag.initial (backEnd : EthereumBackEnd) : (initial backEnd).HasDag := by
  cases backEnd with
  | cpu =>
    refine ⟨?_, rfl⟩
    intro hstopping
    cases hstopping
  | cuda gridSize blockSize | ocl =>
    intro hrun
    cases hrun

/-- What the main thread does to a worker stores no `Mining` and does not touch the DAG. -/
theorem HasDag.deliver {backend : Backend} {e : Delivery.Event} {running : RunningWorker}
    (hs : s.HasDag) (he : ∀ nonceCtl nonceFeeCtl inp, e ≠ .loop nonceCtl nonceFeeCtl inp)
    (h : Delivery.step backend s.running e = some running) :
    HasDag { s with running := running } := by
  cases e with
  | loop nonceCtl nonceFeeCtl inp => exact absurd rfl (he nonceCtl nonceFeeCtl inp)
  | checkState | storeJob job =>
    obtain ⟨-, h⟩ := Option.ite_none_right_eq_some.mp h
    cases h
    exact hs
  | storeFeeJob job =>
    cases h
    exact hs
  | setUpdateJob =>
    obtain ⟨-, h⟩ := Option.ite_none_right_eq_some.mp h
    cases h
    apply Loop.HasDag.of_state hs
    · intro hmining
      cases hmining
    · intro c hc hstopping
      cases hstopping
  | stop =>
    cases h
    refine Loop.HasDag.of_state hs ?_ fun c hc => ?_
    · simp only [RunningWorker.setState]
      split
      · intro hmining
        cases hmining
      · intro hmining
        cases hmining
    · have hloop : s.running.loop = .cpu c := hc
      simp [RunningWorker.setState, RunningWorker.isGpu, hloop]
  | startMining =>
    obtain ⟨loop, hloop, rfl⟩ := Option.map_eq_some_iff.mp h
    exact Loop.HasDag.enter hs hloop

structure KeepsDags (s : DagMining) (kept : Kept) : Prop where
  system : s.eth.OnePreparation
  keeps : s.eth.Keeps kept
  hasDag : s.HasDag
  noFee : s.running.worker.m_feeJob.job_id = []
  stored : kept.stored = true → BuiltFor s.eth.dagCtl.m_dag s.running.worker.m_job
  copied : kept.copied = true → s.running.loop.awaits s.copy = true →
    BuiltFor s.eth.dagCtl.m_dag s.running.loop.job

theorem KeepsDags.initial (backEnd : EthereumBackEnd) : (initial backEnd).KeepsDags .none :=
  ⟨.initial, .of_none, .initial backEnd, rfl, nofun, nofun⟩

theorem KeepsDags.eth {kept : Kept} {e : EthereumSystem.Event} {eth : EthereumSystem}
    (hs : s.KeepsDags kept) (hc : s.eth.KeepsApart e) (h : s.eth.step e = some eth) :
    KeepsDags { s with eth := eth } (s.eth.noteDag e kept) := by
  obtain ⟨hkeeps, hpasses⟩ := hs.keeps.step hs.system h
  refine ⟨hs.system.step hc h, hkeeps, hs.hasDag, hs.noFee, fun hstored => ?_, fun hcopied => ?_⟩
  · rcases hpasses with ⟨hlost, -⟩ | ⟨hdag, hsame, -⟩
    · cases hstored.symm.trans hlost
    · rw [hdag]
      exact hs.stored (hsame ▸ hstored)
  · rcases hpasses with ⟨-, hlost⟩ | ⟨hdag, -, hsame⟩
    · cases hcopied.symm.trans hlost
    · rw [hdag]
      exact hs.copied (hsame ▸ hcopied)

theorem KeepsDags.loop {kept : Kept} {nonceCtl nonceFeeCtl : NonceCtl} {inp : Input}
    (hs : s.KeepsDags kept) (hc : s.TakesInTime kept (.worker (.loop nonceCtl nonceFeeCtl inp)))
    (h : s.step (ethereumBackend m_fee hashing) (.worker (.loop nonceCtl nonceFeeCtl inp)) =
      some t) : t.KeepsDags (s.noteDag (.worker (.loop nonceCtl nonceFeeCtl inp)) kept) := by
  obtain ⟨⟨r, copy⟩, hr, rfl⟩ := Option.map_eq_some_iff.mp h
  obtain ⟨hfetches, hcompares⟩ := hc
  have hl : s.running.loop.HasDag
      (s.running.shared (ethereumBackend m_fee hashing) nonceCtl nonceFeeCtl).m_state s.copy :=
    hs.hasDag
  have hdag := hl.step hs.noFee hs.system.agrees (fun h => hs.stored (hcompares h))
    (fun h => hs.copied (hfetches h) (Loop.awaits_of_fetches h)) hr
  have hsame : (s.noteDag (.worker (.loop nonceCtl nonceFeeCtl inp)) kept).stored =
      kept.stored := by
    simp only [noteDag]
    split <;> rfl
  refine ⟨hs.system, ?_, hdag, hs.noFee, fun hstored => hs.stored (hsame ▸ hstored),
    fun hcopied hawaits => ?_⟩
  · refine ⟨fun p hp hactive => ?_, ?_, ?_⟩
    · cases hs.keeps.active p hp hactive
      simp [noteDag, Kept.none]
    · simp only [noteDag]
      split <;> exact hs.keeps.prepared
    · simp only [noteDag]
      split <;> exact hs.keeps.current
  · rcases Loop.awaits_step hl hr hawaits with ⟨hcopies, hjob⟩ | ⟨hcopies, hbefore, hjob⟩
    · simp only [noteDag, hcopies, if_true] at hcopied
      rw [hjob]
      exact hs.stored hcopied
    · simp only [noteDag, hcopies, Bool.false_eq_true, if_false] at hcopied
      rw [hjob]
      exact hs.copied hcopied hbefore

theorem KeepsDags.deliver {kept : Kept} {e : Delivery.Event} {running : RunningWorker}
    {backend : Backend} (hs : s.KeepsDags kept)
    (he : ∀ nonceCtl nonceFeeCtl inp, e ≠ .loop nonceCtl nonceFeeCtl inp)
    (hjob : ∀ job, e = .storeJob job → job = (s.eth.impls 0).m_currentJob)
    (hfee : ∀ job, e = .storeFeeJob job → job = .empty)
    (h : Delivery.step backend s.running e = some running) :
    KeepsDags { s with running := running } (s.noteDag (.worker e) kept) := by
  have hdag := hs.hasDag.deliver he h
  cases e with
  | loop nonceCtl nonceFeeCtl inp => exact absurd rfl (he nonceCtl nonceFeeCtl inp)
  | checkState | setUpdateJob =>
    obtain ⟨-, h⟩ := Option.ite_none_right_eq_some.mp h
    cases h
    exact ⟨hs.system, hs.keeps, hdag, hs.noFee, hs.stored, hs.copied⟩
  | storeJob job =>
    obtain ⟨-, h⟩ := Option.ite_none_right_eq_some.mp h
    cases h
    refine ⟨hs.system, ⟨fun p hp hactive => ?_, hs.keeps.prepared, hs.keeps.current⟩, hdag,
      hs.noFee, fun hstored => ?_, hs.copied⟩
    · cases hs.keeps.active p hp hactive
      rfl
    · rw [hjob job rfl]
      exact hs.keeps.current hstored
  | storeFeeJob job =>
    cases h
    refine ⟨hs.system, hs.keeps, hdag, ?_, hs.stored, hs.copied⟩
    rw [hfee job rfl]
    rfl
  | stop =>
    cases h
    exact ⟨hs.system, hs.keeps, hdag, hs.noFee, hs.stored, hs.copied⟩
  | startMining =>
    obtain ⟨loop, hloop, rfl⟩ := Option.map_eq_some_iff.mp h
    refine ⟨hs.system, hs.keeps, hdag, hs.noFee, hs.stored, fun _ hawaits => ?_⟩
    cases (Loop.awaits_of_enter hs.hasDag hloop).symm.trans hawaits

theorem KeepsDags.step {kept : Kept} {e : Event} (hs : s.KeepsDags kept)
    (hc : s.TakesInTime kept e) (h : s.step (ethereumBackend m_fee hashing) e = some t) :
    t.KeepsDags (s.noteDag e kept) := by
  cases e with
  | eth e =>
    obtain ⟨eth, heth, rfl⟩ := Option.map_eq_some_iff.mp h
    exact hs.eth hc heth
  | worker e =>
    cases e with
    | loop nonceCtl nonceFeeCtl inp => exact hs.loop hc h
    | storeJob job =>
      obtain ⟨hjob, h⟩ := Option.ite_none_right_eq_some.mp h
      obtain ⟨running, hr, rfl⟩ := Option.map_eq_some_iff.mp h
      exact hs.deliver (by simp) (fun _ heq => by cases heq; exact hjob) (by simp) hr
    | storeFeeJob job =>
      obtain ⟨hjob, h⟩ := Option.ite_none_right_eq_some.mp h
      obtain ⟨running, hr, rfl⟩ := Option.map_eq_some_iff.mp h
      exact hs.deliver (by simp) (by simp) (fun _ heq => by cases heq; exact hjob) hr
    | checkState | setUpdateJob | stop | startMining =>
      simp only [DagMining.step] at h
      obtain ⟨running, hr, rfl⟩ := Option.map_eq_some_iff.mp h
      exact hs.deliver (by simp) (by simp) (by simp) hr

/-- In every run in which the calls of `prepareDag` are kept apart and none is entered while a job
is on its way from its installation to the DAG that the loop takes for it, the loop searches with
the DAG of its job. -/
theorem searches_own_dag {backEnd : EthereumBackEnd} {es : List Event} {kept : Kept}
    (hrun : exec (watch (step (ethereumBackend m_fee hashing)) noteDag) (initial backEnd, .none)
      es = some (s, kept))
    (htakes : Along (watch (step (ethereumBackend m_fee hashing)) noteDag)
      (fun p e => p.1.TakesInTime p.2 e) (initial backEnd, .none) es) :
    ∀ j ∈ s.running.loop.searched, j.blob ≠ [] → s.copy.dag = some ⟨j.blob⟩ := by
  have hs : s.KeepsDags kept :=
    exec_invariant (I := fun p : DagMining × Kept => p.1.KeepsDags p.2)
      (fun _ _ _ hI hC h => by
        obtain ⟨hstep, hnote⟩ := watch_eq_some.mp h
        exact hnote ▸ hI.step hC hstep)
      (.initial backEnd) htakes hrun
  exact Loop.HasDag.searched hs.hasDag

def prepared (k : Nat) (job : MiningJob) : List Event :=
  [.eth (.newJob 0 job), .eth .main, .eth (.prepare k .next), .eth (.prepare k (.disk none)),
    .eth (.prepare k (.lookup true)), .eth (.prepare k .next)]

def installed (k : Nat) : List Event :=
  [.eth (.prepare k .next), .eth (.dagThreadFinished k)]

def loopSteps (k : Nat) : List Event :=
  List.replicate k (.worker (.loop .new .new ⟨false, .ok, 1, none, 0⟩))

def startedCpu (job : MiningJob) : List Event :=
  prepared 0 job ++ installed 0 ++ [.worker (.storeJob job), .worker .setUpdateJob,
    .worker .startMining] ++ loopSteps 5

def startedGpu (job : MiningJob) : List Event :=
  .worker .startMining :: loopSteps 3 ++ prepared 0 job ++ installed 0 ++
    [.worker .checkState, .worker (.storeJob job), .worker .setUpdateJob] ++ loopSteps 2

def exampleBackend : Backend := ethereumBackend false ⟨id, id, fun _ _ => none, fun _ _ => none⟩

theorem started_cpu_searches :
    ∃ s kept, exec (watch (step exampleBackend) noteDag) (initial .cpu, .none)
        (startedCpu ⟨[1], [7], []⟩ ++ loopSteps 3) = some (s, kept) ∧
      s.running.loop.searched = some ⟨[1], [7], []⟩ ∧
      ∀ j ∈ s.running.loop.searched, j.blob ≠ [] → s.copy.dag = some ⟨j.blob⟩ := by
  have h : (exec (watch (step exampleBackend) noteDag) (initial .cpu, .none)
      (startedCpu ⟨[1], [7], []⟩ ++ loopSteps 3)).map (·.1.running.loop.searched) =
        some (some ⟨[1], [7], []⟩) := by decide +kernel
  obtain ⟨⟨s, kept⟩, hs, hw⟩ := Option.map_eq_some_iff.mp h
  exact ⟨s, kept, hs, hw, searches_own_dag hs (by decide +kernel)⟩

/-- The next epoch's preparation starts before the CPU worker fetches the DAG, and is done before a
GPU miner does; each of them then searches with what it finds. -/
theorem next_epoch_overtakes :
    ¬ (∀ (es : List Event) (s : DagMining), exec (step exampleBackend) (initial .cpu) es = some s →
        ∀ j ∈ s.running.loop.searched, j.blob ≠ [] → s.copy.dag = some ⟨j.blob⟩) ∧
      ¬ (∀ (es : List Event) (s : DagMining),
        exec (step exampleBackend) (initial (.cuda 1 1)) es = some s →
        ∀ j ∈ s.running.loop.searched, j.blob ≠ [] → s.copy.dag = some ⟨j.blob⟩) ∧
      ¬ ∀ (es : List Event) (s : DagMining), exec (step exampleBackend) (initial .ocl) es = some s →
        ∀ j ∈ s.running.loop.searched, j.blob ≠ [] → s.copy.dag = some ⟨j.blob⟩ := by
  have hfail : ∀ (backEnd : EthereumBackEnd) (es : List Event) (dag : Option Dag),
      (exec (step exampleBackend) (initial backEnd) es).map
        (fun s => (s.running.loop.searched, s.copy.dag)) = some (some ⟨[1], [7], []⟩, dag) →
      dag ≠ some ⟨[7]⟩ →
      ¬ ∀ (es : List Event) (s : DagMining),
        exec (step exampleBackend) (initial backEnd) es = some s →
        ∀ j ∈ s.running.loop.searched, j.blob ≠ [] → s.copy.dag = some ⟨j.blob⟩ := by
    intro backEnd es dag hrun hdag h
    obtain ⟨s, hs, hw⟩ := Option.map_eq_some_iff.mp hrun
    simp only [Prod.mk.injEq] at hw
    exact hdag (hw.2.symm.trans (h es s hs _ hw.1 (by decide)))
  refine ⟨?_, ?_, ?_⟩
  · exact hfail .cpu
      (startedCpu ⟨[1], [7], []⟩ ++ (prepared 1 ⟨[2], [8], []⟩).take 3 ++ loopSteps 3) none (by decide +kernel) (by decide)
  · exact hfail (.cuda 1 1) (startedGpu ⟨[1], [7], []⟩ ++ prepared 1 ⟨[2], [8], []⟩ ++ loopSteps 6)
      (some ⟨[8]⟩) (by decide +kernel) (by decide)
  · exact hfail .ocl (startedGpu ⟨[1], [7], []⟩ ++ prepared 1 ⟨[2], [8], []⟩ ++ loopSteps 8)
      (some ⟨[8]⟩) (by decide +kernel) (by decide)

end DagMining
end MinerGate
