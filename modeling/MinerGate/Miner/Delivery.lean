import MinerGate.Lib.Mailbox
import MinerGate.Lib.Transition
import MinerGate.Miner.GpuWorker

/-!
# Delivery of jobs to a running loop

Any number of `updateJob` calls against one worker, whose loop takes its steps in between.
A call stores the job and then the state. Against all but one of the loops this is a mailbox
whose reader can raise its flag over a later message.
-/

namespace MinerGate

set_option autoImplicit false

open Transition Mailbox

namespace CpuLoop

def searching (l : CpuLoop) : Option MiningJob :=
  match l.pc with
  | .search none _ _ | .hash none _ _ => some l.m_currentJob
  | _ => none

/-- The loop has copied a job and has still to store `Mining` for it. -/
def copied (l : CpuLoop) : Bool := l.pc = .checkExit || l.pc = .setMining

theorem step_copied {l : CpuLoop} {search : Search} {sh : Shared} {inp : Input} {r : Result CpuLoop}
    (h : l.step search sh inp = some r) (hr : r.loop.copied = true) :
    (∀ j ∈ r.loop.view.main, j.Agrees sh.m_job) ∨
      l.copied = true ∧ r.loop.view.main = l.view.main := by
  cases step_cases h with
  | goes hgoes =>
    cases hgoes with
    | job => exact Or.inr ⟨rfl, rfl⟩
    | _ => cases hr
  | copyJob job =>
    refine Or.inl fun j hj => ?_
    cases hj
    exact .refl sh.m_job
  | _ => cases hr

end CpuLoop

namespace CryptonoteCuda

def copied (l : CryptonoteCuda) : Bool :=
  match l.pc with
  | .firstWait | .firstStopped | .firstReserve | .firstDone | .copyDevice | .copied | .setMining =>
    true
  | _ => false

theorem step_copied {l : CryptonoteCuda} {slowHash : QByteArray → QByteArray} {sh : Shared}
    {inp : Input} {r : Result CryptonoteCuda} (h : l.step slowHash sh inp = some r)
    (hr : r.loop.copied = true) : (∀ j ∈ r.loop.view.main, j.Agrees sh.m_job) ∨
      l.copied = true ∧ r.loop.view.main = l.view.main := by
  cases step_cases h with
  | goes hgoes =>
    cases hgoes with
    | firstValid | firstWait | firstStopped | firstAgain | first | copied | copiedGoes =>
      exact Or.inr ⟨rfl, rfl⟩
    | _ => cases hr
  | copyJob job hid =>
    refine Or.inl fun j hj => ?_
    cases hj
    exact MiningJob.agrees_setNonce sh.m_job 0
  | firstReserve job => exact Or.inr ⟨rfl, rfl⟩
  | _ => cases hr

end CryptonoteCuda

namespace EthCuda

def copied (l : EthCuda) : Bool := l.pc = .prepare || l.pc = .checkUpdate || l.pc = .setMining

theorem step_copied {l : EthCuda} {ethEval : MiningJob → Nat → Option QByteArray} {sh : Shared}
    {inp : Input} {r : Result EthCuda} (h : l.step ethEval sh inp = some r)
    (hr : r.loop.copied = true) : (∀ j ∈ r.loop.view.main, j.Agrees sh.m_job) ∨
      l.copied = true ∧ r.loop.view.main = l.view.main := by
  cases step_cases h with
  | goes hgoes =>
    cases hgoes with
    | prepared | checkUpdate => exact Or.inr ⟨rfl, rfl⟩
    | _ => cases hr
  | copyJob job gridSize blockSize hblob =>
    refine Or.inl fun j hj => ?_
    cases hj
    exact .refl sh.m_job
  | _ => cases hr

end EthCuda

namespace EthOcl

def copied (l : EthOcl) : Bool := l.pc = .prepare || l.pc = .checkUpdate || l.pc = .setMining

theorem step_copied {l : EthOcl} {ethEval : MiningJob → Nat → Option QByteArray} {sh : Shared}
    {inp : Input} {r : Result EthOcl} (h : l.step ethEval sh inp = some r)
    (hr : r.loop.copied = true) : (∀ j ∈ r.loop.view.main, j.Agrees sh.m_job) ∨
      l.copied = true ∧ r.loop.view.main = l.view.main := by
  cases step_cases h with
  | goes hgoes =>
    cases hgoes with
    | prepared | checkUpdate => exact Or.inr ⟨rfl, rfl⟩
    | missed pc hpc => rcases hpc with rfl | rfl <;> cases hr
    | _ => cases hr
  | copyJob job hid =>
    refine Or.inl fun j hj => ?_
    cases hj
    exact .refl sh.m_job
  | setExit returns job => cases returns <;> cases hr
  | _ => cases hr

end EthOcl

namespace CryptonoteOcl

/-- From the moment it has to update until it stores `Mining`, the loop holds no job. -/
def Forgets (l : CryptonoteOcl) : Prop :=
  l.pc = .checkUpdate ∨ l.pc = .setMining → l.lastJobKind = .KindUnknown

theorem step_forgets {l : CryptonoteOcl} {slowHash : QByteArray → QByteArray} {sh : Shared}
    {inp : Input} {r : Result CryptonoteOcl} (hl : l.Forgets)
    (h : l.step slowHash sh inp = some r) : r.loop.Forgets := by
  cases step_cases h with
  | goes hgoes =>
    cases hgoes with
    | checkUpdate => exact fun _ => hl (Or.inl rfl)
    | _ => simp [Forgets, Result.keep]
  | forget job kind hid => exact fun _ => rfl
  | _ => simp [Forgets, Result.keep, Result.act, Result.store]

theorem Forgets.held {l : CryptonoteOcl} (hl : l.Forgets) (h : l.view.storesMining = true) :
    l.view.main = none := by
  have hkind := hl (Or.inr (of_decide_eq_true h))
  simp [view, hkind]

end CryptonoteOcl

namespace GpuMiner

/-- The CryptoNight OpenCL loop copies its job after it has stored `Mining`. -/
def copied : GpuMiner → Bool
  | cryptonoteCuda l => l.copied
  | ethCuda l => l.copied
  | cryptonoteOcl _ => false
  | ethOcl l => l.copied

def Forgets : GpuMiner → Prop
  | cryptonoteOcl l => l.Forgets
  | _ => True

theorem start_forgets (m : GpuMiner) : m.start.Forgets := by
  cases m with
  | cryptonoteOcl l => simp [start, Forgets, CryptonoteOcl.Forgets, CryptonoteOcl.new]
  | _ => trivial

theorem start_copied (m : GpuMiner) : m.start.copied = false := by cases m <;> rfl

section Step
variable {hashing : Hashing} {sh : Shared} {inp : Input} {m : GpuMiner} {r : Result GpuMiner}

theorem step_forgets (hm : m.Forgets) (h : m.step hashing sh inp = some r) : r.loop.Forgets := by
  cases m with
  | cryptonoteOcl l =>
    obtain ⟨q, hq, rfl⟩ := Option.map_eq_some_iff.mp h
    exact CryptonoteOcl.step_forgets hm hq
  | cryptonoteCuda l | ethCuda l | ethOcl l =>
    obtain ⟨q, hq, rfl⟩ := Option.map_eq_some_iff.mp h
    trivial

theorem step_copied (h : m.step hashing sh inp = some r) (hr : r.loop.copied = true) :
    (∀ j ∈ r.loop.view.main, j.Agrees sh.m_job) ∨
      m.copied = true ∧ r.loop.view.main = m.view.main := by
  cases m <;> obtain ⟨q, hq, rfl⟩ := Option.map_eq_some_iff.mp h
  · exact CryptonoteCuda.step_copied hq hr
  · exact EthCuda.step_copied hq hr
  · cases hr
  · exact EthOcl.step_copied hq hr

theorem storesMining_copied (hm : m.Forgets) (h : m.view.storesMining = true) :
    m.copied = true ∨ m.view.main = none := by
  cases m with
  | cryptonoteCuda l | ethCuda l | ethOcl l =>
    cases l
    cases of_decide_eq_true h
    exact Or.inl rfl
  | cryptonoteOcl l => exact Or.inr (CryptonoteOcl.Forgets.held hm h)

end Step


def searching : GpuMiner → Option MiningJob
  | cryptonoteCuda l => if l.pc = .search then some l.job else none
  | ethCuda l =>
    match l.pc with
    | .batch _ _ _ | .launch _ _ | .report _ _ _ => some l.job
    | _ => none
  | cryptonoteOcl l =>
    if l.lastJobKind = .KindNormal ∧ (l.pc = .kernels ∨ l.pc = .checkStop ∨ l.pc = .report) then
      some l.job
    else none
  | ethOcl l =>
    if l.pc = .kernel ∨ l.pc = .checkStop ∨ l.pc = .report then some l.job else none

end GpuMiner

namespace Loop

def searching : Loop → Option MiningJob
  | cpu l => l.searching
  | gpu l => if l.pc = .run then l.m_gpuMiner.searching else none

theorem searching_held (l : Loop) : ∀ j ∈ l.searching, j ∈ l.view.main := by
  intro j hj
  cases l with
  | cpu l =>
    obtain ⟨pc, job⟩ := l
    cases pc with
    | search originJob nonce last | hash originJob nonce last =>
      cases originJob with
      | none => exact hj
      | some origin => cases hj
    | _ => cases hj
  | gpu l =>
    obtain ⟨pc, miner⟩ := l
    obtain ⟨rfl, hj⟩ := Option.ite_none_right_eq_some.mp hj
    cases miner with
    | cryptonoteCuda l => exact (Option.ite_none_right_eq_some.mp hj).2
    | ethCuda l =>
      simp only [GpuMiner.searching] at hj
      split at hj
      · exact hj
      · exact hj
      · exact hj
      · cases hj
    | cryptonoteOcl l =>
      obtain ⟨⟨hkind, -⟩, hj⟩ := Option.ite_none_right_eq_some.mp hj
      simpa [view, GpuLoop.view, GpuMiner.view, CryptonoteOcl.view, hkind] using hj
    | ethOcl l => exact (Option.ite_none_right_eq_some.mp hj).2

def copied : Loop → Bool
  | cpu l => l.copied
  | gpu l => l.pc = .run && l.m_gpuMiner.copied

def Forgets : Loop → Prop
  | cpu _ => True
  | gpu l => l.pc = .run → l.m_gpuMiner.Forgets

/-- `startMining` has not been called, or it has returned. -/
def isIdle : Loop → Bool
  | cpu l => l.pc = .idle
  | gpu l => l.pc = .idle

section Step
variable {backend : Backend} {sh : Shared} {inp : Input} {l m : Loop} {r : Result Loop}

theorem step_forgets (hl : l.Forgets) (h : l.step backend sh inp = some r) : r.loop.Forgets := by
  cases l <;> obtain ⟨q, hq, rfl⟩ := Option.map_eq_some_iff.mp h
  · trivial
  · rcases GpuLoop.step_cases hq with ⟨hrun, p, hp, rfl⟩ | ⟨-, rfl⟩ | ⟨pc, hpc, rfl | rfl⟩
    · exact fun _ => GpuMiner.step_forgets (hl hrun) hp
    · exact fun _ => GpuMiner.start_forgets _
    · exact fun hrun => absurd hrun hpc
    · exact fun hrun => absurd hrun hpc

theorem enter_forgets (h : l.enter = some m) : m.Forgets := by
  cases l <;> obtain ⟨-, h⟩ := Option.ite_none_right_eq_some.mp h <;> cases h
  · trivial
  · exact GpuPc.noConfusion

theorem enter_copied (h : l.enter = some m) : m.copied = false := by
  cases l <;> obtain ⟨-, h⟩ := Option.ite_none_right_eq_some.mp h <;> cases h <;> rfl

/-- A job is copied, or it is the one that was copied. -/
theorem step_copied (h : l.step backend sh inp = some r) (hr : r.loop.copied = true) :
    (∀ j ∈ r.loop.view.main, j.Agrees sh.m_job) ∨
      l.copied = true ∧ r.loop.view.main = l.view.main := by
  cases l <;> obtain ⟨q, hq, rfl⟩ := Option.map_eq_some_iff.mp h
  · exact CpuLoop.step_copied hq hr
  · obtain ⟨hpc, hcopied⟩ := Bool.and_eq_true_iff.mp hr
    rcases GpuLoop.step_cases hq with ⟨hrun, p, hp, rfl⟩ | ⟨-, rfl⟩ | ⟨pc, hpc', rfl | rfl⟩
    · simp only [copied, view, GpuLoop.view, hrun, decide_true, Bool.true_and, if_true,
        Result.map]
      exact GpuMiner.step_copied hp hcopied
    · exact absurd ((GpuMiner.start_copied _).symm.trans hcopied) Bool.false_ne_true
    · exact absurd (of_decide_eq_true hpc) hpc'
    · exact absurd (of_decide_eq_true hpc) hpc'

theorem storesMining_copied (hl : l.Forgets) (h : l.view.storesMining = true) :
    l.copied = true ∨ l.view.main = none := by
  cases l with
  | cpu l =>
    cases l
    cases of_decide_eq_true h
    exact Or.inl rfl
  | gpu l =>
    by_cases hrun : l.pc = .run
    · simp only [copied, view, GpuLoop.view, hrun, decide_true, Bool.true_and, if_true] at h ⊢
      exact GpuMiner.storesMining_copied (hl hrun) h
    · exact Or.inr (GpuLoop.view_of_ne hrun false)

end Step

end Loop

namespace Delivery

/-- A worker with its loop and the calls of `updateJob`: those a GPU worker has let through, and
those that have stored their job but not the state. One has come `late` when it stored its job
since the loop copied one, and the loop has still to store `Mining`. -/
structure RunningWorker where
  worker : Worker
  loop : Loop
  checked : Nat
  underway : Nat
  late : Bool
deriving DecidableEq, Repr

inductive Event where
  | checkState
  | storeJob (job : MiningJob)
  | setUpdateJob
  | storeFeeJob (job : MiningJob)
  | stop
  | startMining
  | loop (nonceCtl nonceFeeCtl : NonceCtl) (inp : Input)
deriving DecidableEq, Repr

def RunningWorker.isGpu (s : RunningWorker) : Bool :=
  match s.loop with
  | .cpu _ => false
  | .gpu _ => true

def RunningWorker.setState (s : RunningWorker) (m_state : MinerThreadState) : RunningWorker :=
  { s with worker := { s.worker with m_state := m_state } }

def RunningWorker.shared (backend : Backend) (s : RunningWorker)
    (nonceCtl nonceFeeCtl : NonceCtl) : Shared :=
  { s.worker with
    m_fee := backend.m_fee
    nonceCtl := fun fee => if fee then nonceFeeCtl else nonceCtl }

/-- `checkState` is the load by which `GPUMinerWorker::updateJob` goes on: it returns unless it
finds the worker mining or updating. -/
def step (backend : Backend) (s : RunningWorker) : Event → Option RunningWorker
  | .checkState =>
    if s.isGpu ∧ (s.worker.m_state = .Mining ∨ s.worker.m_state = .UpdateJob) then
      some { s with checked := s.checked + 1 }
    else none
  | .storeJob job =>
    if s.isGpu → 0 < s.checked then
      some { s with
        worker := { s.worker with m_job := job }
        checked := s.checked - 1
        underway := s.underway + 1
        late := s.late || s.loop.copied }
    else none
  | .setUpdateJob =>
    if 0 < s.underway then some { s.setState .UpdateJob with underway := s.underway - 1 } else none
  | .storeFeeJob job => some { s with worker := { s.worker with m_feeJob := job } }
  | .stop => some (s.setState (if s.isGpu then .Stopping else .Exit))
  | .startMining => s.loop.enter.map fun loop => { s with loop := loop }
  | .loop nonceCtl nonceFeeCtl inp =>
    (s.loop.step backend (s.shared backend nonceCtl nonceFeeCtl) inp).map fun r =>
      { s.setState r.m_state with loop := r.loop, late := s.late && s.loop.copied }

def initial (loop : Loop) : RunningWorker := ⟨.new, loop, 0, 0, false⟩

/-- The loop does not store `Mining` over the state of a late call: no job has been stored since it
copied one, or a call that will set the state again is under way. -/
def StoresInTime (s : RunningWorker) : Event → Prop
  | .loop _ _ _ => s.loop.view.storesMining = true → s.late = false ∨ 0 < s.underway
  | _ => True

instance (s : RunningWorker) (e : Event) : Decidable (StoresInTime s e) := by
  unfold StoresInTime
  split <;> infer_instance

/-- The mailbox of a worker: the loop works while the state is `Mining`, on the pool's job
it holds. -/
def RunningWorker.box (s : RunningWorker) : Box MiningJob where
  message := s.worker.m_job
  up := s.worker.m_state = .Mining
  underway := s.underway
  held := s.loop.view.main
  taken := s.loop.copied
  late := s.late

section Refinement
variable {backend : Backend} {s t : RunningWorker}

theorem box_storeJob {job : MiningJob} (h : step backend s (.storeJob job) = some t) :
    t.box = s.box.store job := by
  obtain ⟨-, h⟩ := Option.ite_none_right_eq_some.mp h
  cases h
  rfl

theorem box_setUpdateJob (h : step backend s .setUpdateJob = some t) : t.box = s.box.lower := by
  obtain ⟨-, h⟩ := Option.ite_none_right_eq_some.mp h
  cases h
  rfl

/-- A step of the loop reads the mailbox. -/
theorem box_loop {nonceCtl nonceFeeCtl : NonceCtl} {inp : Input} (hs : s.loop.Forgets)
    (h : step backend s (.loop nonceCtl nonceFeeCtl inp) = some t) :
    Box.Reads MiningJob.Agrees s.box t.box := by
  obtain ⟨r, hr, rfl⟩ := Option.map_eq_some_iff.mp h
  have hspec := Loop.step_spec hr
  refine ⟨rfl, rfl, rfl, fun j hj => ?_, Loop.step_copied hr, fun hup => ?_⟩
  · rcases hspec.held false j hj with hm | hk | ⟨-, hne⟩
    · exact Or.inl hm
    · exact Or.inr (Or.inl hk)
    · exact Or.inr (Or.inr (decide_eq_false hne))
  · rcases hspec.mining (of_decide_eq_true hup) with hmining | hst
    · exact Or.inl (decide_eq_true hmining)
    · exact Or.inr (Loop.storesMining_copied hs hst)

/-- What every run keeps. -/
structure Inv (s : RunningWorker) : Prop where
  forgets : s.loop.Forgets
  fresh : s.box.Fresh MiningJob.Agrees

theorem step_forgets {e : Event} (hs : s.loop.Forgets) (h : step backend s e = some t) :
    t.loop.Forgets := by
  cases e with
  | checkState | storeJob job | setUpdateJob =>
    obtain ⟨-, h⟩ := Option.ite_none_right_eq_some.mp h
    cases h
    exact hs
  | storeFeeJob job | stop =>
    cases h
    exact hs
  | startMining =>
    obtain ⟨loop, hloop, rfl⟩ := Option.map_eq_some_iff.mp h
    exact Loop.enter_forgets hloop
  | loop nonceCtl nonceFeeCtl inp =>
    obtain ⟨r, hr, rfl⟩ := Option.map_eq_some_iff.mp h
    exact Loop.step_forgets hs hr

theorem step_fresh {e : Event} (hs : Inv s) (hc : StoresInTime s e)
    (h : step backend s e = some t) : t.box.Fresh MiningJob.Agrees := by
  have hfresh := hs.fresh
  cases e with
  | checkState =>
    obtain ⟨-, h⟩ := Option.ite_none_right_eq_some.mp h
    cases h
    exact hfresh
  | storeJob job =>
    rw [box_storeJob h]
    exact Box.fresh_store s.box job
  | setUpdateJob =>
    rw [box_setUpdateJob h]
    exact hfresh.lower
  | storeFeeJob job =>
    cases h
    exact hfresh
  | stop =>
    cases h
    refine ⟨fun hup => ?_, hfresh.taken⟩
    simp only [RunningWorker.box, RunningWorker.setState] at hup
    split at hup <;> cases hup
  | startMining =>
    obtain ⟨loop, hloop, rfl⟩ := Option.map_eq_some_iff.mp h
    have hheld : loop.view.main = s.loop.view.main := Loop.enter_held hloop false
    refine ⟨fun hup hunder j hj => ?_, fun htaken => ?_⟩
    · have hj : j ∈ loop.view.main := hj
      exact hfresh.up hup hunder j (by rwa [hheld] at hj)
    · have htaken : loop.copied = true := htaken
      rw [Loop.enter_copied hloop] at htaken
      cases htaken
  | loop nonceCtl nonceFeeCtl inp =>
    refine (box_loop hs.forgets h).fresh (fun _ _ _ hxy hyz => hxy.trans hyz) hfresh ?_
    intro hdown hup
    obtain ⟨r, hr, rfl⟩ := Option.map_eq_some_iff.mp h
    refine hc (((Loop.step_spec hr).mining (of_decide_eq_true hup)).resolve_left ?_)
    exact of_decide_eq_false hdown

theorem Inv.step {e : Event} (hs : Inv s) (hc : StoresInTime s e) (h : step backend s e = some t) :
    Inv t :=
  ⟨step_forgets hs.forgets h, step_fresh hs hc h⟩

end Refinement

theorem initial_inv {loop : Loop} (hloop : loop.isIdle = true) : Inv (initial loop) := by
  cases loop with
  | cpu l =>
    cases l
    cases of_decide_eq_true hloop
    refine ⟨trivial, fun hup => ?_, fun htaken => ?_⟩
    · cases hup
    · cases htaken
  | gpu l =>
    cases l
    cases of_decide_eq_true hloop
    refine ⟨GpuPc.noConfusion, fun hup => ?_, fun htaken => ?_⟩
    · cases hup
    · cases htaken

theorem run_inv {backend : Backend} {loop : Loop} {es : List Event} {s : RunningWorker}
    (hloop : loop.isIdle = true) (hrun : exec (step backend) (initial loop) es = some s)
    (htime : Along (step backend) StoresInTime (initial loop) es) : Inv s :=
  exec_invariant (fun _ _ _ hI hC hs => Inv.step hI hC hs) (initial_inv hloop) htime hrun

theorem Inv.searching {s : RunningWorker} (hs : Inv s) (hmining : s.worker.m_state = .Mining)
    (hdone : s.underway = 0) : ∀ j ∈ s.loop.searching, j.Agrees s.worker.m_job :=
  fun j hj => hs.fresh.up (decide_eq_true hmining) hdone j (s.loop.searching_held j hj)

/-- In every run in which no call stores its job between the loop's copy and its store of `Mining`,
the loop searches for the last job delivered whenever it is mining and no call is half done. -/
theorem searching_last_delivered {backend : Backend} {loop : Loop} {es : List Event}
    {s : RunningWorker} (hloop : loop.isIdle = true)
    (hrun : exec (step backend) (initial loop) es = some s)
    (htime : Along (step backend) StoresInTime (initial loop) es)
    (hmining : s.worker.m_state = .Mining) (hdone : s.underway = 0) :
    ∀ j ∈ s.loop.searching, j.Agrees s.worker.m_job :=
  (run_inv hloop hrun htime).searching hmining hdone

def twoDeliveries (first second : MiningJob) : List Event :=
  let loop := .loop .new .new ⟨false, .ok, 1, none, 0⟩
  [.storeJob first, .setUpdateJob, .startMining, loop, loop, loop, loop, loop, loop, loop,
    .storeJob second, .setUpdateJob, loop, loop, loop, loop, loop, loop, loop]

theorem second_delivery_searched :
    ∃ s, exec (step ⟨false, cryptonoteSearch id, ⟨id, id, fun _ _ => none, fun _ _ => none⟩⟩)
        (initial (.cpu .new)) (twoDeliveries ⟨[1], [], []⟩ ⟨[2], [], []⟩) = some s ∧
      s.loop.searching = some ⟨[2], [], []⟩ ∧
      ∀ j ∈ s.loop.searching, j.Agrees s.worker.m_job := by
  have h : (exec (step ⟨false, cryptonoteSearch id, ⟨id, id, fun _ _ => none, fun _ _ => none⟩⟩)
      (initial (.cpu .new)) (twoDeliveries ⟨[1], [], []⟩ ⟨[2], [], []⟩)).map
        (fun s => (s.worker.m_state, s.underway, s.loop.searching)) =
      some (.Mining, 0, some ⟨[2], [], []⟩) := by decide +kernel
  obtain ⟨s, hs, hw⟩ := Option.map_eq_some_iff.mp h
  simp only [Prod.mk.injEq] at hw
  exact ⟨s, hs, hw.2.2, searching_last_delivered rfl hs (by decide +kernel) hw.1 hw.2.1⟩

/-- The CPU loop copies a job, a new one is delivered, and then the loop stores `Mining`. -/
def lateDelivery (first second : MiningJob) : List Event :=
  let loop := .loop .new .new ⟨false, .ok, 1, none, 0⟩
  [.storeJob first, .setUpdateJob, .startMining, loop, loop, loop, loop, .storeJob second,
    .setUpdateJob, loop, loop, loop]

/-- Whatever the jobs, the second one is lost: the loop mines the first. -/
theorem lateDelivery_searches_first (backend : Backend) (first second : MiningJob)
    (hfirst : first.job_id ≠ []) :
    ∃ s, exec (step backend) (initial (.cpu .new)) (lateDelivery first second) = some s ∧
      s.worker.m_state = .Mining ∧ s.underway = 0 ∧ s.loop.searching = some first ∧
      s.worker.m_job = second := by
  let loop : Event := .loop .new .new ⟨false, .ok, 1, none, 0⟩
  let copied : RunningWorker := ⟨⟨.UpdateJob, first, .empty⟩, .cpu ⟨.checkExit, first⟩, 0, 0, false⟩
  let passed : RunningWorker := { copied with loop := .cpu ⟨.setMining, first⟩ }
  let mining : RunningWorker := ⟨⟨.Mining, second, .empty⟩, .cpu ⟨.draw, first⟩, 0, 0, true⟩
  have hcopied : exec (step backend) (initial (.cpu .new))
      [.storeJob first, .setUpdateJob, .startMining, loop, loop, loop] = some copied := rfl
  have hpassed : step backend copied loop = some passed := by
    simp [step, loop, copied, passed, Loop.step, CpuLoop.step, RunningWorker.shared, hfirst,
      Result.map, Result.keep, RunningWorker.setState, CpuLoop.goto]
  have hmining : exec (step backend) passed [.storeJob second, .setUpdateJob, loop] =
      some mining := rfl
  have hdrawn : step backend mining loop =
      some { mining with loop := .cpu ⟨.reserve, first⟩, late := false } := by
    simp [step, loop, mining, Loop.copied, CpuLoop.copied, Loop.step, CpuLoop.step,
      RunningWorker.shared, Result.map, Result.keep, RunningWorker.setState, CpuLoop.goto]
  have hreserved : ∃ s, step backend { mining with
      loop := .cpu ⟨.reserve, first⟩, late := false } loop = some s ∧
      s.worker.m_state = .Mining ∧ s.underway = 0 ∧ s.loop.searching = some first ∧
      s.worker.m_job = second := ⟨_, rfl, rfl, rfl, rfl, rfl⟩
  obtain ⟨s, hs, hsearch⟩ := hreserved
  have hrun := exec_append.mpr ⟨_, hcopied, exec_cons.mpr ⟨_, hpassed, exec_append.mpr
    ⟨_, hmining, exec_cons.mpr ⟨_, hdrawn, exec_cons.mpr ⟨_, hs, exec_nil⟩⟩⟩⟩⟩
  exact ⟨s, hrun, hsearch⟩

/-- A job delivered between the copy and the store of `Mining` is lost. -/
theorem late_delivery_lost :
    ¬ ∀ (backend : Backend) (loop : Loop) (es : List Event) (s : RunningWorker),
      loop.isIdle = true → exec (step backend) (initial loop) es = some s →
        s.worker.m_state = .Mining → s.underway = 0 →
          ∀ j ∈ s.loop.searching, j.Agrees s.worker.m_job := by
  intro h
  obtain ⟨s, hrun, hmining, hdone, hsearch, hjob⟩ :=
    lateDelivery_searches_first
      ⟨false, cryptonoteSearch id, ⟨id, id, fun _ _ => none, fun _ _ => none⟩⟩
      ⟨[1], [], []⟩ ⟨[2], [], []⟩ (by decide)
  have hagrees := h _ _ _ s rfl hrun hmining hdone _ hsearch
  rw [hjob] at hagrees
  exact absurd hagrees (by decide)

/-- The worker is the CryptoNight OpenCL miner's, and no call has come late. -/
def RunsCryptonoteOcl (s : RunningWorker) : Prop :=
  s.late = false ∧ ∃ pc l, s.loop = .gpu ⟨pc, .cryptonoteOcl l⟩

theorem step_runsCryptonoteOcl {backend : Backend} {s t : RunningWorker} {e : Event}
    (hs : RunsCryptonoteOcl s) (h : step backend s e = some t) : RunsCryptonoteOcl t := by
  obtain ⟨hlate, pc, l, hloop⟩ := hs
  have hcopied : s.loop.copied = false := by
    rw [hloop]
    exact Bool.and_false _
  cases e with
  | checkState | setUpdateJob =>
    obtain ⟨-, h⟩ := Option.ite_none_right_eq_some.mp h
    cases h
    exact ⟨hlate, pc, l, hloop⟩
  | storeJob job =>
    obtain ⟨-, h⟩ := Option.ite_none_right_eq_some.mp h
    cases h
    exact ⟨by rw [hlate, hcopied]; rfl, pc, l, hloop⟩
  | storeFeeJob job | stop =>
    cases h
    exact ⟨hlate, pc, l, hloop⟩
  | startMining =>
    obtain ⟨loop, henter, rfl⟩ := Option.map_eq_some_iff.mp h
    rw [hloop] at henter
    obtain ⟨-, henter⟩ := Option.ite_none_right_eq_some.mp henter
    cases henter
    exact ⟨hlate, .entry, l, rfl⟩
  | loop nonceCtl nonceFeeCtl inp =>
    obtain ⟨r, hr, rfl⟩ := Option.map_eq_some_iff.mp h
    refine ⟨by rw [hlate]; rfl, ?_⟩
    rw [hloop] at hr
    obtain ⟨q, hq, rfl⟩ := Option.map_eq_some_iff.mp hr
    rcases GpuLoop.step_cases hq with ⟨-, p, hp, rfl⟩ | ⟨-, rfl⟩ | ⟨pc', -, rfl | rfl⟩
    · obtain ⟨m, -, rfl⟩ := Option.map_eq_some_iff.mp hp
      exact ⟨.run, m.loop, rfl⟩
    · exact ⟨.run, .new, rfl⟩
    · exact ⟨pc', l, rfl⟩
    · exact ⟨pc', l, rfl⟩

/-- The CryptoNight OpenCL loop copies its job after storing `Mining` and loses no delivery. -/
theorem cryptonoteOcl_searching_last_delivered {backend : Backend} {l : CryptonoteOcl}
    {es : List Event} {s : RunningWorker}
    (hrun : exec (step backend) (initial (.gpu ⟨.idle, .cryptonoteOcl l⟩)) es = some s)
    (hmining : s.worker.m_state = .Mining) (hdone : s.underway = 0) :
    ∀ j ∈ s.loop.searching, j.Agrees s.worker.m_job := by
  have hinit : RunsCryptonoteOcl (initial (.gpu ⟨.idle, .cryptonoteOcl l⟩)) := ⟨rfl, .idle, l, rfl⟩
  have htime : Along (step backend) StoresInTime
      (initial (.gpu ⟨.idle, .cryptonoteOcl l⟩)) es := by
    refine along_of_invariant (fun _ _ _ hI hs => step_runsCryptonoteOcl hI hs) ?_ hinit
    intro t e ht
    cases e with
    | loop _ _ _ => exact fun _ => Or.inl ht.1
    | _ => trivial
  exact (run_inv rfl hrun htime).searching hmining hdone

end Delivery
end MinerGate
