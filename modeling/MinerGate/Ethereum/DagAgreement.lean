import MinerGate.Ethereum.DagController
import MinerGate.Lib.Exclusive

/-!
# The DAG and its seed hash

Two guards of `updateJob` keep the calls of `prepareDag` apart, and neither does it alone.
`m_progress` is 100 until the thread that was started enters `prepareDag`, and again from the last
call of the progress callback on; then only the miner's own flag keeps jobs away. As long as that
flag stays set then and no other miner gets a job, one call is active at most and the controller's
DAG is the one built from its seed hash.
-/

namespace MinerGate

set_option autoImplicit false

open Transition

namespace PreparePc

/-- The call is not over, and `m_progress` does not tell of it or is about not to: its thread has
not entered `prepareDag` yet, or the callback was called with 100. -/
def Exposed (d : DagController) (pc : PreparePc) : Prop :=
  pc.isDone = false ∧ (d.m_progress = 100 ∨ pc = .report 100)

instance (d : DagController) (pc : PreparePc) : Decidable (pc.Exposed d) :=
  inferInstanceAs (Decidable (_ ∧ _))

/-- The thread is in `EthashAux::full`, which calls the callback. -/
def callsBack : PreparePc → Bool
  | full _ | report _ => true
  | _ => false

theorem isDone_of_callsBack {pc : PreparePc} (h : pc.callsBack = true) : pc.isDone = false := by
  cases pc <;> first | rfl | cases h

theorem not_exposed_of_isDone {d : DagController} {pc : PreparePc} (h : pc.isDone = true) :
    ¬ pc.Exposed d := by
  intro hexposed
  rw [hexposed.1] at h
  cases h

end PreparePc

section Step
variable {seedHashData : QByteArray} {inProgress callbackFlag : Bool} {d d' : DagController}
  {pc pc' : PreparePc} {e : PrepareEvent}

/-- A call gets exposed by its callback only, which looks at the flag first. -/
theorem exposed_of_prepareDag
    (h : prepareDag seedHashData inProgress callbackFlag d pc e = some (d', pc'))
    (hexposed : pc'.Exposed d') :
    pc.Exposed d ∨ (pc.callsBack = true ∧ callbackFlag = true) := by
  obtain ⟨hdone, hexposed⟩ := hexposed
  cases pc <;> cases e <;> simp only [prepareDag, reduceCtorEq] at h
  case enter.next =>
    cases h
    rcases hexposed with hzero | hreport
    · cases hzero
    · cases hreport
  case full.callback last pc =>
    obtain ⟨-, h⟩ := Option.ite_none_right_eq_some.mp h
    split at h
    case isTrue hflag => exact Or.inr ⟨rfl, hflag⟩
    case isFalse =>
      cases h
      exact Or.inl ⟨rfl, hexposed.imp_right fun hreport => by cases hreport⟩
  case report.next last =>
    cases h
    refine Or.inl ⟨rfl, Or.inr ?_⟩
    rcases hexposed with hlast | hreport
    · exact congrArg PreparePc.report hlast
    · cases hreport
  case checkDisk.disk error =>
    cases error <;> cases h <;>
      exact Or.inl ⟨rfl, hexposed.imp_right fun hreport => by cases hreport⟩
  case lookup.lookup cached =>
    cases cached <;> cases h <;>
      exact Or.inl ⟨rfl, hexposed.imp_right fun hreport => by cases hreport⟩
  case full.built | full.notBuilt =>
    cases h
    exact Or.inl ⟨rfl, hexposed.imp_right fun hreport => by cases hreport⟩
  case failed.next | finish.next =>
    cases h
    cases hdone
  case returned.next aborted => cases aborted <;> cases h <;> cases hdone

theorem unchanged_of_isDone
    (h : prepareDag seedHashData inProgress callbackFlag d pc e = some (d', pc'))
    (hdone : pc.isDone = true) : d' = d ∧ e = .next := by
  cases pc with
  | returned aborted => cases e <;> cases aborted <;> cases h <;> exact ⟨rfl, rfl⟩
  | finished aborted | handled => cases e <;> cases h
  | _ => cases hdone

theorem callsBack_of_prepareDag
    (h : prepareDag seedHashData inProgress callbackFlag d pc e = some (d', pc'))
    (hback : pc'.callsBack = true) : pc.callsBack = true ∨ e = .lookup false := by
  cases pc <;> cases e <;> simp only [prepareDag, reduceCtorEq] at h
  case full.callback | report.next | full.built | full.notBuilt => exact Or.inl rfl
  case lookup.lookup cached =>
    cases cached
    · exact Or.inr rfl
    · cases h
      cases hback
  case checkDisk.disk error => cases error <;> cases h <;> cases hback
  case returned.next aborted => cases aborted <;> cases h <;> cases hback
  case enter.next | failed.next | finish.next =>
    cases h
    cases hback

end Step

namespace EthereumSystem

variable {s t : EthereumSystem} {es : List Event}

/-- No two calls of `prepareDag` are between their first and their last critical section. -/
def OneActive (s : EthereumSystem) : Prop :=
  Exclusive (fun p => p.pc.isActive = true) s.preparations

def AgreesWithSeed (s : EthereumSystem) : Prop :=
  ∀ dag ∈ s.dagCtl.m_dag, dag.seedHash = s.dagCtl.m_seedHashData

/-- While a preparation is exposed, its miner is not fully stopped and no earlier preparation of
that miner is handled; and while `m_progress` is 100 and a preparation is not over, no job comes to
another miner whose own flag is clear. -/
def KeepsApart (s : EthereumSystem) : Event → Prop
  | .newJob i job => job.blob ≠ [] → (s.impls i).m_preparingInProgress = false →
      ∀ p ∈ s.preparations, p.impl ≠ i → p.pc.isDone = false → s.dagCtl.m_progress ≠ 100
  | .stop i othersRunning => othersRunning = false →
      ∀ p ∈ s.preparations, p.impl = i → ¬ p.pc.Exposed s.dagCtl
  | .dagThreadFinished k => ∀ q ∈ s.preparations[k]?,
      ∀ p ∈ s.preparations, p.impl = q.impl → ¬ p.pc.Exposed s.dagCtl
  | _ => True

instance (s : EthereumSystem) : (e : Event) → Decidable (s.KeepsApart e)
  | .newJob _ _ => inferInstanceAs (Decidable (_ → _ → ∀ p ∈ s.preparations, _))
  | .stop _ _ => inferInstanceAs (Decidable (_ → ∀ p ∈ s.preparations, _))
  | .dagThreadFinished k => inferInstanceAs (Decidable (∀ q ∈ s.preparations[k]?, _))
  | .main | .prepare _ _ => .isTrue trivial

structure OnePreparation (s : EthereumSystem) : Prop where
  agrees : s.AgreesWithSeed
  seed : ∀ p ∈ s.preparations, p.pc.isActive = true → p.job.blob = s.dagCtl.m_seedHashData
  alone : Exclusive (fun p => p.pc.isDone = false) s.preparations
  flag : ∀ p ∈ s.preparations, p.pc.Exposed s.dagCtl →
    (s.impls p.impl).m_preparingInProgress = true
  callback : ∀ p ∈ s.preparations, p.pc.callsBack = true → s.s_dagCallback = p.impl
  update : ∀ u ∈ s.main, ∀ p ∈ s.preparations, p.pc.isDone = true
  checked : ∀ u ∈ s.main, u.pc = .checkDag → s.dagCtl.m_seedHashData = u.job.blob

theorem OnePreparation.initial : OnePreparation initial :=
  ⟨nofun, nofun, .nil, nofun, nofun, nofun, nofun⟩

theorem OnePreparation.oneActive (hs : OnePreparation s) : s.OneActive :=
  hs.alone.mono fun _ => PreparePc.isDone_of_isActive

theorem OnePreparation.of_frame (hs : OnePreparation s) (hdag : t.dagCtl = s.dagCtl)
    (hprep : t.preparations = s.preparations) (hcallback : t.s_dagCallback = s.s_dagCallback)
    (hflag : ∀ p ∈ s.preparations, p.pc.Exposed s.dagCtl →
      (t.impls p.impl).m_preparingInProgress = (s.impls p.impl).m_preparingInProgress)
    (hmain : ∀ u ∈ t.main, ∀ p ∈ s.preparations, p.pc.isDone = true)
    (hchecked : ∀ u ∈ t.main, u.pc = .checkDag → s.dagCtl.m_seedHashData = u.job.blob) :
    OnePreparation t := by
  refine ⟨?_, ?_, ?_, ?_, ?_, ?_, ?_⟩
  · rw [AgreesWithSeed, hdag]
    exact hs.agrees
  · rw [hdag, hprep]
    exact hs.seed
  · rw [hprep]
    exact hs.alone
  · rw [hdag, hprep]
    intro p hp hexposed
    rw [hflag p hp hexposed]
    exact hs.flag p hp hexposed
  · rw [hprep, hcallback]
    exact hs.callback
  · rw [hprep]
    exact hmain
  · rw [hdag]
    exact hchecked

/-- What the two guards are for: when they let a job pass, no call of `prepareDag` is unfinished. -/
theorem OnePreparation.guards (hs : OnePreparation s) {i : Nat} {job : MiningJob}
    (hc : s.KeepsApart (.newJob i job)) (hblob : job.blob ≠ [])
    (hflag : (s.impls i).m_preparingInProgress = false) (hprogress : s.dagCtl.m_progress = 100) :
    ∀ p ∈ s.preparations, p.pc.isDone = true := by
  intro p hp
  by_contra hnot
  have hdone : p.pc.isDone = false := by simpa using hnot
  have howner : p.impl = i := by
    by_contra hne
    exact hc hblob hflag p hp hne hdone hprogress
  have hset := hs.flag p hp ⟨hdone, Or.inl hprogress⟩
  rw [howner, hflag] at hset
  cases hset

theorem OnePreparation.newJob (hs : OnePreparation s) {i : Nat} {job : MiningJob}
    (hc : s.KeepsApart (.newJob i job)) : OnePreparation (s.newJob i job) := by
  rcases newJob_cases s i job with ⟨-, h⟩ | h | ⟨hblob, hflag, hprogress, h⟩ <;> rw [h]
  · refine hs.of_frame rfl rfl rfl (fun p _ _ => ?_) hs.update hs.checked
    by_cases hi : p.impl = i
    · rw [hi, updateImpl_self]
    · rw [updateImpl_of_ne hi]
  · exact hs
  · refine hs.of_frame rfl rfl rfl (fun _ _ _ => rfl)
      (fun _ _ => hs.guards hc hblob hflag hprogress) fun u hu hpc => ?_
    cases Option.mem_some_iff.mp hu
    cases hpc

theorem OnePreparation.stop (hs : OnePreparation s) {i : Nat} {othersRunning : Bool}
    (hc : s.KeepsApart (.stop i othersRunning)) : OnePreparation (s.stop i othersRunning) := by
  unfold EthereumSystem.stop
  split
  case isTrue => exact hs
  case isFalse hothers =>
    refine hs.of_frame rfl rfl rfl (fun p hp hexposed => ?_) hs.update hs.checked
    have hne : p.impl ≠ i := fun hi => hc (by simpa using hothers) p hp hi hexposed
    rw [updateImpl_of_ne hne]

theorem OnePreparation.start (hs : OnePreparation s) {u : Update} (hu : s.main = some u) :
    OnePreparation (s.startPreparation u.impl u.job) := by
  have hdone := hs.update u hu
  have hold : ∀ (P : PreparePc → Prop), (∀ pc : PreparePc, pc.isDone = true → ¬ P pc) →
      ∀ p ∈ (s.startPreparation u.impl u.job).preparations, P p.pc →
        p = ⟨u.impl, u.job, .enter⟩ := by
    intro P hP p hp hpc
    rcases List.mem_append.mp hp with hold | hnew
    · exact absurd hpc (hP p.pc (hdone p hold))
    · exact List.mem_singleton.mp hnew
  refine ⟨hs.agrees, fun p hp hactive => ?_, .concat (fun p hp hnot => ?_) _,
    fun p hp hexposed => ?_, fun p hp hback => ?_, nofun, nofun⟩
  · cases hold (·.isActive = true) (fun pc hpc h => by
      rw [PreparePc.isDone_of_isActive h] at hpc; cases hpc) p hp hactive
    cases hactive
  · rw [hdone p hp] at hnot
    cases hnot
  · cases hold (·.Exposed s.dagCtl) (fun _ => PreparePc.not_exposed_of_isDone) p hp hexposed
    simp only [startPreparation, updateImpl_self]
  · cases hold (·.callsBack = true) (fun pc hpc h => by
      rw [PreparePc.isDone_of_callsBack h] at hpc; cases hpc) p hp hback
    cases hback

theorem OnePreparation.runMain (hs : OnePreparation s) {u : Update} (hu : s.main = some u) :
    OnePreparation (s.runMain u) := by
  rcases runMain_cases hu with ⟨-, heq⟩ | ⟨-, hseed, heq⟩ | ⟨-, -, heq⟩ <;> rw [heq]
  · exact hs.start hu
  · refine hs.of_frame rfl rfl rfl (fun _ _ _ => rfl) (fun _ _ => hs.update u hu) fun v hv _ => ?_
    cases Option.mem_some_iff.mp hv
    exact hseed
  · refine hs.of_frame rfl rfl rfl (fun p _ _ => ?_) nofun nofun
    by_cases hi : p.impl = u.impl
    · simp only [hi, updateImpl_self]
    · simp only [updateImpl_of_ne hi]

theorem OnePreparation.agreement {k : Nat} {p : Preparation} {pc : PreparePc}
    (hs : OnePreparation s) (hp : s.preparations[k]? = some p)
    (hstep : PrepareStep p.job.blob s.dagCtl t.dagCtl p.pc pc)
    (hprep : t.preparations = s.preparations.set k { p with pc := pc }) :
    t.AgreesWithSeed ∧
      ∀ q ∈ t.preparations, q.pc.isActive = true → q.job.blob = t.dagCtl.m_seedHashData := by
  have hcases : ∀ q ∈ t.preparations, q = { p with pc := pc } ∨
      ∃ l, l ≠ k ∧ s.preparations[l]? = some q := by
    rw [hprep]
    exact fun q hq => Exclusive.mem_set_cases hp hq
  cases hstep with
  | enter hpc hd hactive =>
    refine ⟨by rw [AgreesWithSeed, hd]; exact nofun, fun q hq hqa => ?_⟩
    rw [hd]
    rcases hcases q hq with rfl | ⟨l, hne, hl⟩
    · rfl
    · exact absurd (PreparePc.isDone_of_isActive hqa)
        (hs.alone.others hp (by rw [hpc]; rfl) hl hne)
  | finish hpc hd hdone =>
    have hseed := hs.seed p (List.mem_of_getElem? hp) (by rw [hpc]; rfl)
    refine ⟨?_, fun q hq hqa => ?_⟩
    · rw [AgreesWithSeed, hd]
      intro dag hdag
      cases Option.mem_some_iff.mp hdag
      exact hseed
    · rw [hd]
      rcases hcases q hq with rfl | ⟨l, -, hl⟩
      · exact hseed
      · exact hs.seed q (List.mem_of_getElem? hl) hqa
  | keep _ _ hdag hseed hactive hdone =>
    refine ⟨?_, fun q hq hqa => ?_⟩
    · rw [AgreesWithSeed, hdag, hseed]
      exact hs.agrees
    · rw [hseed]
      rcases hcases q hq with rfl | ⟨l, -, hl⟩
      · exact hs.seed p (List.mem_of_getElem? hp) (hactive hqa)
      · exact hs.seed q (List.mem_of_getElem? hl) hqa

/-- `updateJob` installs a job without a preparation only when the controller's DAG is the job's. -/
theorem OnePreparation.installs (hs : OnePreparation s) {u : Update} (hu : s.main = some u)
    (hpc : u.pc = .checkDag) (hdag : s.dagCtl.m_dag ≠ none) :
    s.dagCtl.m_dag = some ⟨u.job.blob⟩ := by
  obtain ⟨dag, hsome⟩ := Option.ne_none_iff_exists'.mp hdag
  rw [hsome, ← hs.checked u hu hpc, ← hs.agrees dag hsome]

theorem OnePreparation.prepare (hs : OnePreparation s) {k : Nat} {e : PrepareEvent}
    (h : s.prepare k e = some t) : OnePreparation t := by
  obtain ⟨p, pc, hp, hr, ht⟩ := prepare_eq_some h
  have hprep : t.preparations = s.preparations.set k { p with pc := pc } := by rw [ht]
  have himpls : t.impls = s.impls := by rw [ht]
  have hmain : t.main = s.main := by rw [ht]
  have hcallback : t.s_dagCallback = s.setCallback p e := by rw [ht]
  have hmem := List.mem_of_getElem? hp
  have hback : pc.isDone = false → p.pc.isDone = false := by
    intro hpc
    by_contra hnot
    rw [(prepareDag_cases hr).isDone (by simpa using hnot)] at hpc
    cases hpc
  have hcases : ∀ q ∈ t.preparations, q = { p with pc := pc } ∨
      ∃ l, l ≠ k ∧ s.preparations[l]? = some q := by
    rw [hprep]
    exact fun q hq => Exclusive.mem_set_cases hp hq
  have hothers : ∀ q ∈ t.preparations, q.pc.isDone = false → q = { p with pc := pc } ∨
      q ∈ s.preparations ∧ t.dagCtl = s.dagCtl ∧ e = .next := by
    intro q hq hqd
    rcases hcases q hq with hqp | ⟨l, hne, hl⟩
    · exact Or.inl hqp
    · have hdone : p.pc.isDone = true := by
        by_contra hnot
        exact hs.alone.others hp (by simpa using hnot) hl hne hqd
      exact Or.inr ⟨List.mem_of_getElem? hl, unchanged_of_isDone hr hdone⟩
  have halone := hs.alone.set (b := { p with pc := pc }) hp hback
  rw [← hprep] at halone
  obtain ⟨hagrees, hseed⟩ := hs.agreement hp (prepareDag_cases hr) hprep
  refine ⟨hagrees, hseed, halone, fun q hq hexposed => ?_, fun q hq hqback => ?_, ?_, ?_⟩
  · rw [himpls]
    rcases hothers q hq hexposed.1 with rfl | ⟨hold, hd, -⟩
    · rcases exposed_of_prepareDag hr hexposed with hbefore | ⟨hpback, hflag⟩
      · exact hs.flag p hmem hbefore
      · rwa [hs.callback p hmem hpback] at hflag
    · rw [hd] at hexposed
      exact hs.flag q hold hexposed
  · rw [hcallback]
    rcases hothers q hq (PreparePc.isDone_of_callsBack hqback) with rfl | ⟨hold, -, rfl⟩
    · rcases callsBack_of_prepareDag hr hqback with hpback | rfl
      · unfold setCallback
        split
        · rfl
        · exact hs.callback p hmem hpback
      · rfl
    · exact hs.callback q hold hqback
  · rw [hmain]
    intro u hu q hq
    rcases hcases q hq with rfl | ⟨l, -, hl⟩
    · exact (prepareDag_cases hr).isDone (hs.update u hu p hmem)
    · exact hs.update u hu q (List.mem_of_getElem? hl)
  · rw [hmain]
    intro u hu hpc
    rw [(unchanged_of_isDone hr (hs.update u hu p hmem)).1]
    exact hs.checked u hu hpc

theorem OnePreparation.dagThreadFinished (hs : OnePreparation s) {k : Nat}
    (hc : s.KeepsApart (.dagThreadFinished k)) (h : s.dagThreadFinished k = some t) :
    OnePreparation t := by
  obtain ⟨q, aborted, hq, hqpc, hdag, hprep, himpls, hcallback, hmain⟩ := dagThreadFinished_cases h
  have hqdone : q.pc.isDone = true := by rw [hqpc]; rfl
  have hstep : PrepareStep q.job.blob s.dagCtl t.dagCtl q.pc .handled := by
    rw [hdag, hqpc]
    exact .keep nofun nofun rfl rfl nofun fun _ => rfl
  have hcases : ∀ p ∈ t.preparations, p = { q with pc := .handled } ∨ p ∈ s.preparations := by
    rw [hprep]
    exact fun p hp => (Exclusive.mem_set_cases hq hp).imp_right fun ⟨_, _, hl⟩ =>
      List.mem_of_getElem? hl
  have halone := hs.alone.set (b := { q with pc := .handled }) hq nofun
  rw [← hprep] at halone
  obtain ⟨hagrees, hseed⟩ := hs.agreement hq hstep hprep
  refine ⟨hagrees, hseed, halone, fun p hp hexposed => ?_, fun p hp hback => ?_, ?_, ?_⟩
  · rcases hcases p hp with rfl | hold
    · exact absurd hexposed (PreparePc.not_exposed_of_isDone rfl)
    · rw [hdag] at hexposed
      have hne : p.impl ≠ q.impl := fun hi => hc q hq p hold hi hexposed
      have hsame : t.impls p.impl = s.impls p.impl := by
        rw [himpls]
        cases aborted <;> simp [dagThreadFinishedHandler, updateImpl_of_ne hne]
      rw [hsame]
      exact hs.flag p hold hexposed
  · rw [hcallback]
    rcases hcases p hp with rfl | hold
    · cases hback
    · exact hs.callback p hold hback
  · rw [hmain]
    intro u hu p hp
    rcases hcases p hp with rfl | hold
    · rfl
    · exact hs.update u hu p hold
  · rw [hmain, hdag]
    exact hs.checked

theorem OnePreparation.step {e : Event} (hs : OnePreparation s) (hc : s.KeepsApart e)
    (h : s.step e = some t) : OnePreparation t := by
  cases e with
  | newJob i job =>
    obtain ⟨-, h⟩ := Option.ite_none_right_eq_some.mp h
    cases h
    exact hs.newJob hc
  | stop i othersRunning =>
    obtain ⟨-, h⟩ := Option.ite_none_right_eq_some.mp h
    cases h
    exact hs.stop hc
  | main =>
    obtain ⟨u, hu, rfl⟩ := Option.map_eq_some_iff.mp h
    exact hs.runMain hu
  | prepare k e => exact hs.prepare h
  | dagThreadFinished k =>
    obtain ⟨-, h⟩ := Option.ite_none_right_eq_some.mp h
    exact hs.dagThreadFinished hc h

/-- In every run that keeps to the two rules, the DAG is the one of the current seed hash and one
call of `prepareDag` at most is active. -/
theorem dag_of_current_seed (hrun : exec step initial es = some s)
    (hapart : Along step KeepsApart initial es) : s.AgreesWithSeed ∧ s.OneActive := by
  have hs : OnePreparation s :=
    exec_invariant (fun _ _ _ hI hC h => hI.step hC h) .initial hapart hrun
  exact ⟨hs.agrees, hs.oneActive⟩

/-- Two epochs of one miner. A job of another miner at 40 percent and one of its own after the last
report are dropped. -/
def twoEpochs (first second : MiningJob) : List Event :=
  [.newJob 0 first, .main, .prepare 0 .next, .prepare 0 (.disk none), .prepare 0 (.lookup false),
    .prepare 0 (.callback 40), .prepare 0 .next, .newJob 1 second, .prepare 0 (.callback 100),
    .prepare 0 .next, .newJob 0 second, .prepare 0 .built, .prepare 0 .next, .prepare 0 .next,
    .dagThreadFinished 0, .newJob 0 second, .main, .prepare 1 .next]

theorem twoEpochs_one_active :
    ∃ s, exec step initial (twoEpochs ⟨[1], [7], []⟩ ⟨[2], [8], []⟩) = some s ∧
      s.AgreesWithSeed ∧ s.OneActive := by
  have h : (exec step initial (twoEpochs ⟨[1], [7], []⟩ ⟨[2], [8], []⟩)).isSome = true := by
    decide +kernel
  obtain ⟨s, hs⟩ := Option.isSome_iff_exists.mp h
  exact ⟨s, hs, dag_of_current_seed hs (by decide +kernel)⟩

theorem prepare_enter {k i : Nat} {job : MiningJob}
    (hp : s.preparations[k]? = some ⟨i, job, .enter⟩) :
    ∃ t, s.step (.prepare k .next) = some t ∧
      t.preparations = s.preparations.set k ⟨i, job, .checkDisk⟩ := by
  refine ⟨{ s with
    dagCtl := ⟨none, job.blob, 0⟩
    preparations := s.preparations.set k ⟨i, job, .checkDisk⟩ }, ?_, rfl⟩
  simp [step, prepare, hp, prepareDag, setCallback]

/-- A preparation that is started beside an unfinished one can be overlapping it one or two steps
later. -/
theorem starts_beside_unfinished {u : Update} {k : Nat} {p : Preparation} (hstarts : s.Starts u)
    (hp : s.preparations[k]? = some p) (hpc : p.pc.isDone = false) :
    ∃ es t, exec step s (.main :: es) = some t ∧ ¬ t.OneActive := by
  have hmain : step s .main = some (s.startPreparation u.impl u.job) := by
    rw [step, hstarts.1, Option.map_some, runMain_of_starts hstarts]
  have hk : k < s.preparations.length := (List.getElem?_eq_some_iff.mp hp).1
  have hold : (s.startPreparation u.impl u.job).preparations[k]? = some p := by
    rw [startPreparation, List.getElem?_append_left hk, hp]
  have hnew : (s.startPreparation u.impl u.job).preparations[s.preparations.length]? =
      some ⟨u.impl, u.job, .enter⟩ := by
    rw [startPreparation, List.getElem?_concat_length]
  have henter : ∀ (v : EthereumSystem) (q : Preparation), v.preparations[k]? = some q →
      q.pc.isActive = true →
      v.preparations[s.preparations.length]? = some ⟨u.impl, u.job, .enter⟩ →
      ∃ w, v.step (.prepare s.preparations.length .next) = some w ∧ ¬ w.OneActive := by
    intro v q hq hqa hv
    obtain ⟨w, hw, hprep⟩ := prepare_enter hv
    refine ⟨w, hw, fun hone => ?_⟩
    refine Nat.ne_of_lt hk (hone k _ q ⟨u.impl, u.job, .checkDisk⟩ ?_ ?_ hqa rfl)
    · rw [hprep, List.getElem?_set_ne (Nat.ne_of_gt hk), hq]
    · rw [hprep, List.getElem?_set_self (List.getElem?_eq_some_iff.mp hv).1]
  by_cases hpe : p.pc = .enter
  · obtain ⟨i, job, pc⟩ := p
    subst hpe
    obtain ⟨v, hv, hprep⟩ := prepare_enter hold
    obtain ⟨w, hw, hnone⟩ := henter v ⟨i, job, .checkDisk⟩
      (by rw [hprep, List.getElem?_set_self (List.getElem?_eq_some_iff.mp hold).1]) rfl
      (by rw [hprep, List.getElem?_set_ne (Nat.ne_of_lt hk), hnew])
    exact ⟨[.prepare k .next, .prepare s.preparations.length .next], w,
      exec_cons.mpr ⟨_, hmain, exec_cons.mpr ⟨v, hv, exec_cons.mpr ⟨w, hw, rfl⟩⟩⟩, hnone⟩
  · have hactive := PreparePc.isActive_of_isDone hpe hpc
    obtain ⟨w, hw, hnone⟩ := henter _ p hold hactive hnew
    exact ⟨[.prepare s.preparations.length .next], w,
      exec_cons.mpr ⟨_, hmain, exec_cons.mpr ⟨w, hw, rfl⟩⟩, hnone⟩

/-- The rules are needed: while `m_progress` is 100 and a call is not over, any miner whose flag is
clear can be sent a job that leads to two active calls. -/
theorem job_beside_unfinished {i k : Nat} {job : MiningJob} {p : Preparation}
    (hmain : s.main = none) (hp : s.preparations[k]? = some p) (hpc : p.pc.isDone = false)
    (hprogress : s.dagCtl.m_progress = 100) (hflag : (s.impls i).m_preparingInProgress = false)
    (hblob : job.blob ≠ []) (hseed : s.dagCtl.m_seedHashData ≠ job.blob) :
    ∃ es t, exec step s (.newJob i job :: .main :: es) = some t ∧ ¬ t.OneActive := by
  have hjob : step s (.newJob i job) = some { s with main := some ⟨i, job, .checkSeed⟩ } := by
    rw [step, if_pos hmain, newJob, if_neg hblob, if_neg (by simp [hflag]),
      if_neg (by simp [hprogress])]
  have hstarts : Starts { s with main := some ⟨i, job, .checkSeed⟩ } ⟨i, job, .checkSeed⟩ :=
    ⟨rfl, hseed⟩
  obtain ⟨es, t, hrun, hnot⟩ := starts_beside_unfinished hstarts hp hpc
  exact ⟨es, t, exec_cons.mpr ⟨_, hjob, hrun⟩, hnot⟩

/-- Two miners get their first jobs. When the second job comes, the thread started for the first
one has not entered `prepareDag` yet, and `m_progress` is still 100. -/
def twoMiners (first second : MiningJob) : List Event :=
  [.newJob 0 first, .main, .newJob 1 second, .main, .prepare 0 .next, .prepare 1 .next]

/-- The callback has stored 100 when the miner is stopped and gets another job; the preparation for
the first one ends last. -/
def stoppedAtEnd (first second : MiningJob) : List Event :=
  [.newJob 0 first, .main, .prepare 0 .next, .prepare 0 (.disk none), .prepare 0 (.lookup false),
    .prepare 0 (.callback 100), .prepare 0 .next, .stop 0 false, .newJob 0 second, .main,
    .prepare 1 .next, .prepare 0 .built, .prepare 0 .next]

theorem guards_do_not_exclude :
    (¬ ∀ (es : List Event) (s : EthereumSystem), exec step initial es = some s → s.OneActive) ∧
      ¬ ∀ (es : List Event) (s : EthereumSystem),
        exec step initial es = some s → s.AgreesWithSeed := by
  constructor
  · intro h
    have hrun : (exec step initial (twoMiners ⟨[1], [7], []⟩ ⟨[2], [8], []⟩)).map
        (·.preparations) =
          some [⟨0, ⟨[1], [7], []⟩, .checkDisk⟩, ⟨1, ⟨[2], [8], []⟩, .checkDisk⟩] := by
      decide +kernel
    obtain ⟨s, hs, hp⟩ := Option.map_eq_some_iff.mp hrun
    have hone := h _ s hs 0 1 _ _ (by rw [hp]; rfl) (by rw [hp]; rfl) rfl rfl
    cases hone
  · intro h
    have hrun : (exec step initial (stoppedAtEnd ⟨[1], [7], []⟩ ⟨[2], [8], []⟩)).map (·.dagCtl) =
        some ⟨some ⟨[7]⟩, [8], 100⟩ := by decide +kernel
    obtain ⟨s, hs, hd⟩ := Option.map_eq_some_iff.mp hrun
    have hdag := h _ s hs ⟨[7]⟩ (by rw [hd]; rfl)
    rw [hd] at hdag
    cases hdag

end EthereumSystem
end MinerGate
