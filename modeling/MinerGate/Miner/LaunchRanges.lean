import MinerGate.Miner.Batches

/-!
# The ranges of the launches

Each GPU loop waits until the counter is valid and takes a range, unless the worker has to
stop or to update meanwhile; then it goes on without one. Whether the next launch searches
a range of its own depends on what the loop looks at after its wait.
-/

namespace MinerGate

set_option autoImplicit false

open Transition

/-- The launch covers the range of a call of `nextNonce` that no launch of the kind had before. -/
def Launch.Fresh (size : Nat) (launch : Launch) : Prop :=
  ∃ r ∈ launch.reserved,
    launch.threads = r.amount ∧ launch.startNonce = firstNonce size r.last r.amount

theorem firstNonce_mod {size : Nat} (hsize : 0 < size) (last threads : Nat) :
    firstNonce size (last % size) threads = firstNonce size last threads := by
  have hle : threads % size ≤ size := (Nat.mod_lt threads hsize).le
  rw [firstNonce, firstNonce, Nat.add_sub_assoc hle, Nat.add_sub_assoc hle, Nat.add_assoc,
    Nat.add_assoc, Nat.mod_add_mod]

namespace Batches

/-- A range has been reserved for a launch on the present threads. -/
def Holds (b : Batches) (fee : Bool) : Prop := ∃ r ∈ b.reserved fee, b.threads = r.amount

/-- The start nonce is that of a range reserved for a launch on the present threads. -/
def Ready (size : Nat) (b : Batches) (fee : Bool) : Prop :=
  ∃ r ∈ b.reserved fee,
    b.threads = r.amount ∧ b.startNonce fee = firstNonce size r.last r.amount

/-- The variable `finishNonce` keeps the value of the range last reserved, and every launch so far
had a range of its own. -/
structure Sound (size : Nat) (b : Batches) : Prop where
  keeps : ∀ fee, ∀ r ∈ b.reserved fee, b.finishNonce fee = r.last % size
  fresh : ∀ launch ∈ b.launches, launch.Fresh size

variable {size : Nat} {b : Batches} {fee : Bool}

theorem holds_reserve (ctl : NonceCtl) : (b.reserve fee size ctl).Holds fee :=
  ⟨⟨(ctl.nextNonce b.threads).2, b.threads⟩, by simp [reserve], rfl⟩

theorem ready_setStart (hsize : 0 < size) (hb : b.Sound size) (h : b.Holds fee) :
    (b.setStart fee size).Ready size fee := by
  obtain ⟨r, hr, hthreads⟩ := h
  refine ⟨r, hr, hthreads, ?_⟩
  simp only [setStart, Function.update_self]
  rw [hb.keeps fee r hr, hthreads]
  exact firstNonce_mod hsize r.last r.amount

theorem Ready.of_other {c : Batches} (h : b.Ready size fee)
    (hreserved : c.reserved fee = b.reserved fee) (hthreads : c.threads = b.threads)
    (hstart : c.startNonce fee = b.startNonce fee) : c.Ready size fee := by
  obtain ⟨r, hr, hamount, heq⟩ := h
  exact ⟨r, hreserved ▸ hr, hthreads.trans hamount, hstart.trans heq⟩

theorem sound_new (size threads : Nat) : (new threads).Sound size := by
  constructor
  · intro fee r hr
    cases hr
  · intro launch hlaunch
    cases hlaunch

theorem Sound.reserve (h : b.Sound size) (fee : Bool) (ctl : NonceCtl) :
    (b.reserve fee size ctl).Sound size := by
  refine ⟨fun kind r hr => ?_, h.fresh⟩
  by_cases hkind : kind = fee
  · subst hkind
    simp only [Batches.reserve, Function.update_self, Option.mem_some_iff] at hr ⊢
    rw [← hr]
  · simp only [Batches.reserve, Function.update_of_ne hkind] at hr ⊢
    exact h.keeps kind r hr

theorem Sound.setStart (h : b.Sound size) (fee : Bool) : (b.setStart fee size).Sound size :=
  ⟨h.keeps, h.fresh⟩

theorem Sound.launch (h : b.Sound size) (hready : b.Ready size fee) :
    (b.launch fee).Sound size := by
  constructor
  · intro kind r hr
    by_cases hkind : kind = fee
    · subst hkind
      simp [Batches.launch] at hr
    · simp only [Batches.launch, Function.update_of_ne hkind] at hr ⊢
      exact h.keeps kind r hr
  · intro launch hlaunch
    rcases List.mem_cons.mp hlaunch with rfl | hlaunch
    · exact hready
    · exact h.fresh launch hlaunch

theorem Sound.uploadOrReinit (h : b.Sound size) (inp : Input) (job : MiningJob) :
    (b.uploadOrReinit inp job).Sound size := by
  rw [Batches.uploadOrReinit]
  split <;> exact ⟨h.keeps, h.fresh⟩

end Batches

namespace CryptonoteCuda

open Batches

/-- The loop is at the look at the state behind a wait. -/
def afterWait (l : CryptonoteCuda) : Bool :=
  match l.pc with
  | .firstDone | .feeDone _ => true
  | _ => false

/-- A call that fails makes the loop set up the device in a turn for the fee. -/
def setsUpForFee (l : CryptonoteCuda) : Bool :=
  match l.pc with
  | .feeDevice _ | .feeSearch _ => true
  | _ => false

/-- When the loop goes on after a wait, its last look at the state there let it wait on; and a
set-up of the device in a turn for the fee gives it the threads it had, while the worker mines. -/
def WaitsOut (m_state : MinerThreadState) (inp : Input) (b : Batches) (l : CryptonoteCuda) : Prop :=
  (l.afterWait = true → m_state.stops = false → b.waited = true) ∧
    (l.setsUpForFee = true → inp.outcome = .fail → m_state = .Mining →
      inp.threads.toNat = b.threads)

/-- What the loop knows of the range of its next launches. -/
def Ranges (m_state : MinerThreadState) (b : Batches) (l : CryptonoteCuda) : Prop :=
  match l.pc with
  | .switch => m_state = .Mining → b.Ready quint32Modulus false
  | .copyJob => m_state ≠ .Mining
  | .firstDone => b.waited = true → b.Holds false
  | .copyDevice | .copied | .setMining | .draw | .copyFeeJob | .feeLoop _ | .feeWait _
  | .feeReserve _ | .search => b.Ready quint32Modulus false
  | .feeDone _ => b.Ready quint32Modulus false ∧ (b.waited = true → b.Holds true)
  | .feeDevice _ | .feeSearch _ => b.Ready quint32Modulus false ∧ b.Ready quint32Modulus true
  | .nextDone => m_state = .Mining → b.Holds false
  | _ => True

variable {l : CryptonoteCuda} {slowHash : QByteArray → QByteArray} {sh : Shared} {inp : Input}
  {r : Result CryptonoteCuda} {b : Batches}

theorem ready_uploadOrReinit {size : Nat} {fee : Bool} (h : b.Ready size fee) (job : MiningJob)
    (hthreads : inp.outcome = .fail → inp.threads.toNat = b.threads) :
    (b.uploadOrReinit inp job).Ready size fee := by
  rw [uploadOrReinit]
  split
  case isTrue hfail => exact h.of_other rfl (hthreads hfail) rfl
  case isFalse => exact h

theorem step_ranges (h : l.step slowHash sh inp = some r) (hb : b.Sound quint32Modulus)
    (hl : l.Ranges sh.m_state b) (hwaits : l.WaitsOut sh.m_state inp b) :
    r.loop.Ranges r.m_state (l.note sh inp b) := by
  have hpos : 0 < quint32Modulus := by decide
  have hmining : sh.m_state.stops = true → sh.m_state ≠ .Mining := by
    intro hstops hm
    rw [hm] at hstops
    cases hstops
  cases step_cases h with
  | goes hgoes =>
    cases hgoes with
    | update hm =>
      show sh.m_state ≠ .Mining
      rw [hm]
      exact MinerThreadState.noConfusion
    | mine hm => exact hl hm
    | firstStopped hstops =>
      intro hwaited
      simp [note, hstops] at hwaited
    | first hstops =>
      simp only [note, hstops, Bool.false_eq_true, if_false]
      exact ready_setStart hpos hb (hl (hwaits.1 rfl hstops))
    | feeLeft hm =>
      refine ⟨hl, fun hwaited => ?_⟩
      simp [note, hm] at hwaited
    | feeEnds hstops => exact fun hm => absurd hm (hmining hstops)
    | feeDone hstops =>
      simp only [note, hstops, Bool.false_eq_true, if_false]
      exact ⟨hl.1.of_other rfl rfl rfl, ready_setStart hpos hb (hl.2 (hwaits.1 rfl hstops))⟩
    | feeCopied hok =>
      have hthreads : inp.outcome = .fail → inp.threads.toNat = b.threads := by simp [hok]
      exact ⟨ready_uploadOrReinit hl.1 _ hthreads, ready_uploadOrReinit hl.2 _ hthreads⟩
    | feeCopyFails => exact fun hm => ready_uploadOrReinit hl.1 _ fun hfail => hwaits.2 rfl hfail hm
    | feeMissed =>
      intro hm
      have hlaunch : (b.launch true).Ready quint32Modulus false := hl.1.of_other rfl rfl rfl
      exact ready_uploadOrReinit hlaunch _ fun hfail => hwaits.2 rfl hfail hm
    | nextLeft hm => exact fun hmining => absurd hmining hm
    | next =>
      intro hm
      have hm : sh.m_state = .Mining := hm
      have hstops : sh.m_state.stops = false := by rw [hm]; rfl
      simp only [note, hstops, Bool.false_eq_true, if_false]
      exact ready_setStart hpos hb (hl hm)
    | firstEnds hstops => exact fun hm => absurd hm (hmining hstops)
    | copyAgain | copiedEnds | noFeeJob => exact fun _ => hl
    | copied | copiedGoes | drawFee | draw | feeJob | feeLoop | feeValid | feeWait => exact hl
    | _ => trivial
  | noJob job hid => exact fun hm => absurd hm hl
  | firstReserve job => exact fun _ => holds_reserve _
  | setMining job => exact fun _ => hl
  | feeReserve feeJob job => exact ⟨hl.of_other rfl rfl rfl, fun _ => holds_reserve _⟩
  | feeFound feeJob job hcheck =>
    intro hm
    have hlaunch : (b.launch true).Ready quint32Modulus false := hl.1.of_other rfl rfl rfl
    exact ready_uploadOrReinit hlaunch _ fun hfail => hwaits.2 rfl hfail hm
  | nextReserve job => exact fun _ => holds_reserve _
  | copyJob | found => trivial

theorem note_sound (hb : b.Sound quint32Modulus) (hl : l.Ranges sh.m_state b) :
    (l.note sh inp b).Sound quint32Modulus := by
  obtain ⟨pc, job⟩ := l
  cases pc with
  | copyJob | firstStopped | feeLoop feeJob => exact ⟨hb.keeps, hb.fresh⟩
  | firstReserve | feeReserve feeJob | nextReserve => exact hb.reserve _ _
  | firstDone | feeDone feeJob | nextDone =>
    simp only [note]
    split
    · exact hb
    · exact hb.setStart _
  | copyDevice => exact ⟨hb.keeps, hb.fresh⟩
  | feeDevice feeJob => exact hb.uploadOrReinit inp feeJob
  | feeSearch feeJob => exact (hb.launch hl.2).uploadOrReinit inp job
  | search => exact hb.launch hl
  | _ => exact hb

theorem Ranges.mono {m m' : MinerThreadState} (h : l.Ranges m b) (hm : m' = .Mining → m = .Mining) :
    l.Ranges m' b := by
  obtain ⟨pc, job⟩ := l
  cases pc with
  | switch | nextDone => exact fun hmining => h (hm hmining)
  | copyJob => exact fun hmining => h (hm hmining)
  | _ => exact h

end CryptonoteCuda

namespace CryptonoteOcl

open Batches

/-- `findShares` reserves a range unless it finds another state than `Mining`. -/
def WaitsOut (m_state : MinerThreadState) (l : CryptonoteOcl) : Prop :=
  l.pc = .findLoop → m_state = .Mining

def Ranges (b : Batches) (l : CryptonoteOcl) : Prop :=
  l.pc = .kernels → b.Ready nonceModulus l.isFee

variable {l : CryptonoteOcl} {slowHash : QByteArray → QByteArray} {sh : Shared} {inp : Input}
  {r : Result CryptonoteOcl} {b : Batches}

theorem ready_findReserve (hb : b.Sound nonceModulus) (fee : Bool) (ctl : NonceCtl) :
    ((b.reserve fee nonceModulus ctl).setStart fee nonceModulus).Ready nonceModulus fee :=
  ready_setStart (by decide) (hb.reserve fee ctl) (holds_reserve ctl)

theorem step_ranges (h : l.step slowHash sh inp = some r) (hb : b.Sound nonceModulus)
    (hwaits : l.WaitsOut sh.m_state) : r.loop.Ranges (l.note sh inp b) := by
  cases step_cases h with
  | goes hgoes => cases hgoes <;> exact fun hpc => by cases hpc
  | unreserved job kind finishNonce hm => exact absurd (hwaits rfl) hm
  | findReserve job kind => exact fun _ => ready_findReserve hb _ _
  | _ => exact fun hpc => by cases hpc

theorem note_sound (hb : b.Sound nonceModulus) (hl : l.Ranges b) :
    (l.note sh inp b).Sound nonceModulus := by
  obtain ⟨pc, job, lastJobKind⟩ := l
  cases pc with
  | checkEmpty | setKernelArgs | findLoop =>
    simp only [note]
    split
    · exact hb
    · exact ⟨hb.keeps, hb.fresh⟩
  | copyJob | findShares => exact ⟨hb.keeps, hb.fresh⟩
  | findReserve => exact (hb.reserve _ _).setStart _
  | kernels => exact hb.launch (hl rfl)
  | _ => exact hb

end CryptonoteOcl

namespace EthOcl

open Batches

/-- `findShares` looks at the state again before it launches. -/
def Ranges (m_state : MinerThreadState) (b : Batches) (l : EthOcl) : Prop :=
  match l.pc with
  | .findDone => m_state = .Mining → b.Ready nonceModulus false
  | .kernel => b.Ready nonceModulus false
  | _ => True

variable {l : EthOcl} {ethEval : MiningJob → Nat → Option QByteArray} {sh : Shared} {inp : Input}
  {r : Result EthOcl} {b : Batches}

theorem step_ranges (h : l.step ethEval sh inp = some r) (hb : b.Sound nonceModulus)
    (hl : l.Ranges sh.m_state b) : r.loop.Ranges r.m_state (l.note sh inp b) := by
  cases step_cases h with
  | goes hgoes =>
    cases hgoes with
    | findLeft hm => exact fun hmining => absurd hmining hm
    | findDone hm => exact hl hm
    | missed pc hpc => rcases hpc with rfl | rfl <;> trivial
    | _ => trivial
  | findReserve job => exact fun _ => CryptonoteOcl.ready_findReserve hb _ _
  | setExit returns job => cases returns <;> trivial
  | _ => trivial

theorem note_sound (hb : b.Sound nonceModulus) (hl : l.Ranges sh.m_state b) :
    (l.note sh inp b).Sound nonceModulus := by
  obtain ⟨pc, job⟩ := l
  cases pc with
  | switch | findLoop =>
    simp only [note]
    split
    all_goals exact ⟨hb.keeps, hb.fresh⟩
  | prepare => exact ⟨hb.keeps, hb.fresh⟩
  | findReserve => exact (hb.reserve _ _).setStart _
  | kernel => exact hb.launch hl
  | _ => exact hb

theorem Ranges.mono {m m' : MinerThreadState}
    (h : l.Ranges m b) (hm : m' = .Mining → m = .Mining) : l.Ranges m' b := by
  obtain ⟨pc, job⟩ := l
  cases pc with
  | findDone => exact fun hmining => h (hm hmining)
  | _ => exact h

end EthOcl

def BatchLoop.WaitsOut (m_state : MinerThreadState) (inp : Input) (b : Batches) :
    BatchLoop → Prop
  | .cryptonoteCuda l => l.WaitsOut m_state inp b
  | .cryptonoteOcl l => l.WaitsOut m_state
  | .cpu _ | .ethOcl _ => True

instance (m_state : MinerThreadState) (inp : Input) (b : Batches) :
    (loop : BatchLoop) → Decidable (loop.WaitsOut m_state inp b)
  | .cryptonoteCuda _ => inferInstanceAs (Decidable ((_ → _) ∧ (_ → _)))
  | .cryptonoteOcl _ => inferInstanceAs (Decidable (_ → _))
  | .cpu _ | .ethOcl _ => .isTrue trivial

namespace Session

def WaitsOut (s : Session) : Event → Prop
  | .loop _ _ inp => s.loop.WaitsOut s.worker.m_state inp s.batches
  | _ => True

instance (s : Session) : (e : Event) → Decidable (s.WaitsOut e)
  | .loop _ _ inp => inferInstanceAs (Decidable (s.loop.WaitsOut s.worker.m_state inp s.batches))
  | .store _ | .storeJob _ | .storeFeeJob _ => .isTrue trivial

/-- The invariant of the three GPU loops. -/
def Ranges (s : Session) : Prop :=
  s.loop.isGpu = true ∧ s.batches.Sound s.loop.nonceSize ∧
    match s.loop with
    | .cpu _ => True
    | .cryptonoteCuda l => l.Ranges s.worker.m_state s.batches
    | .cryptonoteOcl l => l.Ranges s.batches
    | .ethOcl l => l.Ranges s.worker.m_state s.batches

variable {backend : Backend} {s t : Session} {e : Event} {es : List Event}

theorem Initial.ranges (h : s.Initial) (hgpu : s.loop.isGpu = true) : s.Ranges := by
  obtain ⟨worker, loop, batches⟩ := s
  obtain ⟨threads, rfl⟩ := h.batches
  refine ⟨hgpu, Batches.sound_new _ threads, ?_⟩
  cases loop with
  | cpu l => trivial
  | cryptonoteCuda l =>
    cases h.loop
    exact fun hm => absurd hm h.state
  | cryptonoteOcl l =>
    cases h.loop
    exact fun hpc => by cases hpc
  | ethOcl l =>
    cases h.loop
    trivial

theorem Ranges.step (hs : s.Ranges) (hwaits : s.WaitsOut e)
    (h : Session.step backend s e = some t) : t.Ranges := by
  by_cases he : ∃ c d i, e = .loop c d i
  · obtain ⟨c, d, i, rfl⟩ := he
    obtain ⟨r, hr, rfl⟩ := stepWith_loop h
    obtain ⟨hgpu, hb, hl⟩ := hs
    obtain ⟨worker, loop, batches⟩ := s
    cases loop with
    | cpu l => cases hgpu
    | cryptonoteCuda l =>
      obtain ⟨q, hq, rfl⟩ := Option.map_eq_some_iff.mp hr
      exact ⟨rfl, CryptonoteCuda.note_sound hb hl, CryptonoteCuda.step_ranges hq hb hl hwaits⟩
    | cryptonoteOcl l =>
      obtain ⟨q, hq, rfl⟩ := Option.map_eq_some_iff.mp hr
      exact ⟨rfl, CryptonoteOcl.note_sound hb hl, CryptonoteOcl.step_ranges hq hb hwaits⟩
    | ethOcl l =>
      obtain ⟨q, hq, rfl⟩ := Option.map_eq_some_iff.mp hr
      exact ⟨rfl, EthOcl.note_sound hb hl, EthOcl.step_ranges hq hb hl⟩
  · obtain ⟨hloop, hbatches, hstate⟩ := stepWith_store (fun c d i heq => he ⟨c, d, i, heq⟩) h
    obtain ⟨hgpu, hb, hl⟩ := hs
    obtain ⟨worker, loop, batches⟩ := s
    obtain ⟨worker', loop', batches'⟩ := t
    subst hloop hbatches
    refine ⟨hgpu, hb, ?_⟩
    cases loop' with
    | cpu l => trivial
    | cryptonoteCuda l => exact CryptonoteCuda.Ranges.mono hl hstate
    | cryptonoteOcl l => exact hl
    | ethOcl l => exact EthOcl.Ranges.mono hl hstate

/-- In every run in which the loops leave no wait for a change of the state and go on, each launch
covers a range reserved after the launch of its kind before it. -/
theorem launches_fresh (h0 : s.Initial) (hgpu : s.loop.isGpu = true)
    (hrun : exec (Session.step backend) s es = some t)
    (hwaits : Along (Session.step backend) WaitsOut s es) :
    ∀ launch ∈ t.batches.launches, launch.Fresh t.loop.nonceSize := by
  have ht : t.Ranges :=
    exec_invariant (fun _ _ _ hI hC h => hI.step hC h) (h0.ranges hgpu) hwaits hrun
  exact ht.2.1.fresh

/-- A call of the OpenCL loop with a job to search. -/
def openCl : Session := ⟨⟨.UpdateJob, ⟨[1], [1], []⟩, .empty⟩, .cryptonoteOcl .new, .new 64⟩

theorem initial_openCl : openCl.Initial := ⟨rfl, by decide, 64, rfl⟩

/-- The loop comes to the wait of `findShares`, where its next step may find another state. -/
def toFindShares : List Event :=
  List.replicate 10 (.loop .new .new ⟨false, .ok, 64, none, 7⟩)

def toLaunch : List Event :=
  List.replicate 4 (.loop .new .new ⟨false, .ok, 64, none, 7⟩)

theorem openCl_launch_fresh :
    ∃ t, exec (Session.step ⟨false, cryptonoteSearch id,
        ⟨id, id, fun _ _ => none, fun _ _ => none⟩⟩) openCl (toFindShares ++ toLaunch) = some t ∧
      t.batches.launches.length = 1 ∧
        ∀ launch ∈ t.batches.launches, launch.Fresh t.loop.nonceSize := by
  have h : (exec (Session.step ⟨false, cryptonoteSearch id,
      ⟨id, id, fun _ _ => none, fun _ _ => none⟩⟩) openCl (toFindShares ++ toLaunch)).map
        (·.batches.launches.length) = some 1 := by decide +kernel
  obtain ⟨t, hrun, hlength⟩ := Option.map_eq_some_iff.mp h
  exact ⟨t, hrun, hlength, launches_fresh initial_openCl rfl hrun (by decide +kernel)⟩

/-- A job delivered before the wait of `findShares` makes the loop launch at a start nonce made from
an uninitialized variable. -/
theorem update_before_wait_not_fresh :
    ¬ ∀ (backend : Backend) (s t : Session) (es : List Event), s.Initial → s.loop.isGpu = true →
      exec (Session.step backend) s es = some t →
        ∀ launch ∈ t.batches.launches, launch.Fresh t.loop.nonceSize := by
  intro h
  have hlaunch : (exec (Session.step ⟨false, cryptonoteSearch id,
      ⟨id, id, fun _ _ => none, fun _ _ => none⟩⟩) openCl
        (toFindShares ++ .storeJob ⟨[2], [1], []⟩ :: .store .UpdateJob :: toLaunch.drop 2)).map
          (·.batches.launches) =
      some [⟨false, some ⟨[1], [1], []⟩, firstNonce nonceModulus 7 64, 64, none⟩] := by
    decide +kernel
  obtain ⟨t, hrun, hlaunches⟩ := Option.map_eq_some_iff.mp hlaunch
  obtain ⟨r, hr, -⟩ := h _ _ t _ initial_openCl rfl hrun _
    (by rw [hlaunches]; exact List.mem_singleton_self _)
  cases hr

end Session

end MinerGate
