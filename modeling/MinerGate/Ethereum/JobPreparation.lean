import MinerGate.Ethereum.DagController
import MinerGate.Lib.Exclusive

/-!
# The job of a preparation

A preparation keeps the job that started it, and `dagThreadFinishedHandler` installs that job. Until
then the flag of the miner is set and `updateJob` drops what the pool sends. A full stop clears the
flag, but nothing looks at it after the last call of the progress callback.
-/

namespace MinerGate

set_option autoImplicit false

open Transition

namespace EthereumSystem

variable {s t : EthereumSystem} {es fs : List Event} {i k : Nat}

/-- What an event tells the miner `i`: a job to mine, or to mine none. -/
def arrival (i : Nat) : Event → Option (Option MiningJob)
  | .newJob j job => if j = i then some (if job.blob = [] then none else some job) else none
  | .stop j othersRunning => if j = i ∧ othersRunning = false then some none else none
  | _ => none

/-- The newest job of the miner `i` after the events, the oldest first; `none` after an empty job or
a full stop. -/
def newest (i : Nat) (job : MiningJob) (es : List Event) : Option MiningJob :=
  es.foldl (fun newest e => (arrival i e).getD newest) (some job)

def Installed (s : EthereumSystem) (i : Nat) : Option MiningJob → Prop
  | some job => (s.impls i).m_currentJob = job
  | none => (s.impls i).m_currentJob.blob = []

/-- No full stop comes while a preparation of the miner is under way. -/
def NoStop (i : Nat) (s : EthereumSystem) : Event → Prop
  | .stop j othersRunning => j = i → othersRunning = false →
      ∀ p ∈ s.preparations, p.impl = i → p.pc = .handled
  | _ => True

instance (s : EthereumSystem) (e : Event) : Decidable (NoStop i s e) := by
  unfold NoStop
  split <;> infer_instance

def NoEmptyJob (i : Nat) : Event → Prop
  | .newJob j job => j = i → job.blob ≠ []
  | _ => True

instance (e : Event) : Decidable (NoEmptyJob i e) := by
  unfold NoEmptyJob
  split <;> infer_instance

def Preparation.UnderWay (i : Nat) (p : Preparation) : Prop := p.impl = i ∧ p.pc ≠ .handled

/-- The flag of the miner is set while a preparation is under way, and there is one at most. -/
structure Guarded (i : Nat) (s : EthereumSystem) : Prop where
  flag : ∀ p ∈ s.preparations, Preparation.UnderWay i p →
    (s.impls i).m_preparingInProgress = true
  alone : Exclusive (Preparation.UnderWay i) s.preparations
  update : ∀ u ∈ s.main, u.impl = i → (s.impls i).m_preparingInProgress = false

theorem Guarded.initial : Guarded i initial := ⟨nofun, .nil, nofun⟩

theorem Guarded.of_frame (hs : Guarded i s) (hprep : t.preparations = s.preparations)
    (hflag : (t.impls i).m_preparingInProgress = (s.impls i).m_preparingInProgress)
    (hmain : ∀ u ∈ t.main, u.impl = i → (s.impls i).m_preparingInProgress = false) :
    Guarded i t := by
  refine ⟨?_, ?_, ?_⟩
  · rw [hprep, hflag]
    exact hs.flag
  · rw [hprep]
    exact hs.alone
  · rw [hflag]
    exact hmain

theorem Guarded.newJob (hs : Guarded i s) (hmain : s.main = none) (j : Nat) (job : MiningJob) :
    Guarded i (s.newJob j job) := by
  have hnone : ∀ u ∈ s.main, u.impl = i → (s.impls i).m_preparingInProgress = false := by
    rw [hmain]
    exact nofun
  rcases newJob_cases s j job with ⟨-, h⟩ | h | ⟨-, hflag, -, h⟩ <;> rw [h]
  · refine hs.of_frame rfl ?_ hnone
    by_cases hj : i = j
    · subst hj
      rw [updateImpl_self]
    · rw [updateImpl_of_ne hj]
  · exact hs
  · refine hs.of_frame rfl rfl fun u hu hui => ?_
    cases Option.mem_some_iff.mp hu
    exact hui ▸ hflag

theorem Guarded.stop (hs : Guarded i s) (hmain : s.main = none) {j : Nat} {othersRunning : Bool}
    (hstop : NoStop i s (.stop j othersRunning)) : Guarded i (s.stop j othersRunning) := by
  unfold EthereumSystem.stop
  split
  case isTrue => exact hs
  case isFalse hothers =>
    have hothers : othersRunning = false := by simpa using hothers
    refine ⟨fun p hp hu => ?_, hs.alone, ?_⟩
    · by_cases hj : i = j
      · exact absurd (hstop hj.symm hothers p hp hu.1) hu.2
      · rw [updateImpl_of_ne hj]
        exact hs.flag p hp hu
    · rw [updateImpl_main, hmain]
      exact nofun

theorem Guarded.start (hs : Guarded i s) {u : Update} (hu : s.main = some u) :
    Guarded i (s.startPreparation u.impl u.job) := by
  by_cases hi : u.impl = i
  · have hfree : ∀ p ∈ s.preparations, ¬ Preparation.UnderWay i p := by
      intro p hp hunder
      have hflag := hs.flag p hp hunder
      rw [hs.update u hu hi] at hflag
      cases hflag
    refine ⟨fun p _ _ => ?_, .concat hfree _, nofun⟩
    simp only [startPreparation, ← hi, updateImpl_self]
  · refine ⟨fun p hp hunder => ?_, hs.alone.concat_of_not fun h => hi h.1, nofun⟩
    have hne : i ≠ u.impl := fun h => hi h.symm
    simp only [startPreparation, updateImpl_of_ne hne]
    rcases List.mem_append.mp hp with hold | hnew
    · exact hs.flag p hold hunder
    · cases List.mem_singleton.mp hnew
      exact absurd hunder.1 hi

theorem Guarded.runMain (hs : Guarded i s) {u : Update} (hu : s.main = some u) :
    Guarded i (s.runMain u) := by
  rcases runMain_cases hu with ⟨-, heq⟩ | ⟨-, -, heq⟩ | ⟨-, -, heq⟩ <;> rw [heq]
  · exact hs.start hu
  · refine hs.of_frame rfl rfl fun v hv hvi => ?_
    cases Option.mem_some_iff.mp hv
    exact hs.update u hu hvi
  · refine hs.of_frame rfl ?_ nofun
    by_cases hi : i = u.impl
    · subst hi
      simp only [updateImpl_self]
    · simp only [updateImpl_of_ne hi]

theorem Guarded.advance {p : Preparation} {pc : PreparePc} (hs : Guarded i s)
    (hp : s.preparations[k]? = some p) (hpc : p.pc ≠ .handled)
    (hprep : t.preparations = s.preparations.set k { p with pc := pc })
    (hmain : t.main = s.main)
    (himpls : t.impls i = s.impls i ∨
      p.impl = i ∧ pc = .handled ∧ (t.impls i).m_preparingInProgress = false) : Guarded i t := by
  have hback : ∀ q, q = { p with pc := pc } → Preparation.UnderWay i q →
      Preparation.UnderWay i p := by
    rintro q rfl hq
    exact ⟨hq.1, hpc⟩
  refine ⟨fun q hq hunder => ?_, ?_, fun u hu hui => ?_⟩
  · rw [hprep] at hq
    obtain ⟨l, hl⟩ := List.getElem?_of_mem hq
    have hold : Preparation.UnderWay i p ∨ ∃ l', l' ≠ k ∧ s.preparations[l']? = some q := by
      rcases Exclusive.getElem?_set_cases hp hl with ⟨-, hqp⟩ | ⟨hne, hl⟩
      · exact Or.inl (hback q hqp hunder)
      · exact Or.inr ⟨l, hne, hl⟩
    rcases himpls with heq | ⟨hpi, rfl, hflag⟩
    · rw [heq]
      rcases hold with hpu | ⟨l', -, hl'⟩
      · exact hs.flag p (List.mem_of_getElem? hp) hpu
      · exact hs.flag q (List.mem_of_getElem? hl') hunder
    · rcases Exclusive.getElem?_set_cases hp hl with ⟨-, rfl⟩ | ⟨hne, hl⟩
      · exact absurd rfl hunder.2
      · exact absurd hunder (hs.alone.others hp ⟨hpi, hpc⟩ hl hne)
  · rw [hprep]
    exact hs.alone.set hp fun h => ⟨h.1, hpc⟩
  · rw [hmain] at hu
    rcases himpls with heq | ⟨-, -, hflag⟩
    · rw [heq]
      exact hs.update u hu hui
    · exact hflag

theorem Guarded.step {e : Event} (hs : Guarded i s) (hstop : NoStop i s e)
    (h : s.step e = some t) : Guarded i t := by
  cases e with
  | newJob j job =>
    obtain ⟨hmain, h⟩ := Option.ite_none_right_eq_some.mp h
    cases h
    exact hs.newJob hmain j job
  | stop j othersRunning =>
    obtain ⟨hmain, h⟩ := Option.ite_none_right_eq_some.mp h
    cases h
    exact hs.stop hmain hstop
  | main =>
    obtain ⟨u, hu, rfl⟩ := Option.map_eq_some_iff.mp h
    exact hs.runMain hu
  | prepare k e =>
    obtain ⟨p, pc, hp, hpc, -, hprep, himpls, hmain⟩ := prepare_cases h
    exact hs.advance hp hpc hprep hmain (Or.inl (congrFun himpls i))
  | dagThreadFinished k =>
    obtain ⟨-, h⟩ := Option.ite_none_right_eq_some.mp h
    obtain ⟨p, aborted, hp, hpc, -, hprep, himpls, -, hmain⟩ := dagThreadFinished_cases h
    refine hs.advance hp (by rw [hpc]; nofun) hprep hmain ?_
    rw [himpls]
    by_cases hi : p.impl = i
    · subst hi
      exact Or.inr ⟨rfl, rfl, by cases aborted <;> simp [dagThreadFinishedHandler]⟩
    · have hne : i ≠ p.impl := fun h => hi h.symm
      exact Or.inl (by cases aborted <;> simp [dagThreadFinishedHandler, updateImpl_of_ne hne])

/-- A preparation keeps its miner and its job, and is handled once. -/
theorem step_preparation {e : Event} {p : Preparation} (h : s.step e = some t)
    (hp : s.preparations[k]? = some p) :
    ∃ pc, t.preparations[k]? = some { p with pc := pc } ∧ (p.pc = .handled → pc = .handled) := by
  have hset : ∀ {l : Nat} {q : Preparation} {pc : PreparePc}, s.preparations[l]? = some q →
      q.pc ≠ .handled → t.preparations = s.preparations.set l { q with pc := pc } →
      ∃ pc, t.preparations[k]? = some { p with pc := pc } ∧ (p.pc = .handled → pc = .handled) := by
    intro l q pc hq hqpc hprep
    rw [hprep]
    by_cases hl : l = k
    · subst hl
      cases hp.symm.trans hq
      rw [List.getElem?_set_self (List.getElem?_eq_some_iff.mp hp).1]
      exact ⟨pc, rfl, fun hpc => absurd hpc hqpc⟩
    · rw [List.getElem?_set_ne hl]
      exact ⟨p.pc, hp, id⟩
  cases e with
  | newJob j job =>
    obtain ⟨-, h⟩ := Option.ite_none_right_eq_some.mp h
    cases h
    rw [(newJob_frame s j job).2]
    exact ⟨p.pc, hp, id⟩
  | stop j othersRunning =>
    obtain ⟨-, h⟩ := Option.ite_none_right_eq_some.mp h
    cases h
    rw [(stop_frame s j othersRunning).2]
    exact ⟨p.pc, hp, id⟩
  | main =>
    obtain ⟨u, hu, rfl⟩ := Option.map_eq_some_iff.mp h
    rcases runMain_cases hu with ⟨-, heq⟩ | ⟨-, -, heq⟩ | ⟨-, -, heq⟩ <;> rw [heq]
    · refine ⟨p.pc, ?_, id⟩
      rw [startPreparation, List.getElem?_append_left (List.getElem?_eq_some_iff.mp hp).1, hp]
    · exact ⟨p.pc, hp, id⟩
    · exact ⟨p.pc, hp, id⟩
  | prepare l e =>
    obtain ⟨q, pc, hq, hqpc, -, hprep, -⟩ := prepare_cases h
    exact hset hq hqpc hprep
  | dagThreadFinished l =>
    obtain ⟨-, h⟩ := Option.ite_none_right_eq_some.mp h
    obtain ⟨q, aborted, hq, hqpc, -, hprep, -⟩ := dagThreadFinished_cases h
    exact hset hq (by rw [hqpc]; nofun) hprep

/-- While a preparation is under way, only its own handler changes the miner's job. -/
theorem step_currentJob {e : Event} {p : Preparation} (hs : Guarded i s) (hstop : NoStop i s e)
    (hempty : NoEmptyJob i e) (h : s.step e = some t) (hp : s.preparations[k]? = some p)
    (hunder : Preparation.UnderWay i p) :
    (t.impls i).m_currentJob = (s.impls i).m_currentJob ∨ e = .dagThreadFinished k := by
  have hflag := hs.flag p (List.mem_of_getElem? hp) hunder
  cases e with
  | newJob j job =>
    obtain ⟨-, h⟩ := Option.ite_none_right_eq_some.mp h
    cases h
    by_cases hj : i = j
    · subst hj
      rcases newJob_cases s i job with ⟨hblob, -⟩ | heq | ⟨-, hfree, -, -⟩
      · exact absurd hblob (hempty rfl)
      · exact Or.inl (by rw [heq])
      · rw [hflag] at hfree
        cases hfree
    · rcases newJob_cases s j job with ⟨-, heq⟩ | heq | ⟨-, -, -, heq⟩ <;> rw [heq]
      · exact Or.inl (by rw [updateImpl_of_ne hj])
      · exact Or.inl rfl
      · exact Or.inl rfl
  | stop j othersRunning =>
    obtain ⟨-, h⟩ := Option.ite_none_right_eq_some.mp h
    cases h
    unfold EthereumSystem.stop
    split
    case isTrue => exact Or.inl rfl
    case isFalse hothers =>
      by_cases hj : i = j
      · exact absurd (hstop hj.symm (by simpa using hothers) p (List.mem_of_getElem? hp) hunder.1)
          hunder.2
      · exact Or.inl (by rw [updateImpl_of_ne hj])
  | main =>
    obtain ⟨u, hu, rfl⟩ := Option.map_eq_some_iff.mp h
    have hne : i ≠ u.impl := by
      intro hi
      have hfree := hs.update u hu hi.symm
      rw [hflag] at hfree
      cases hfree
    rcases runMain_cases hu with ⟨-, heq⟩ | ⟨-, -, heq⟩ | ⟨-, -, heq⟩ <;> rw [heq]
    · exact Or.inl (by simp only [startPreparation, updateImpl_of_ne hne])
    · exact Or.inl rfl
    · exact Or.inl (by simp only [updateImpl_of_ne hne])
  | prepare l e =>
    obtain ⟨q, pc, -, -, -, -, himpls, -⟩ := prepare_cases h
    exact Or.inl (by rw [himpls])
  | dagThreadFinished l =>
    obtain ⟨-, h⟩ := Option.ite_none_right_eq_some.mp h
    obtain ⟨q, aborted, hq, hqpc, -, -, himpls, -⟩ := dagThreadFinished_cases h
    by_cases hl : l = k
    · exact Or.inr (by rw [hl])
    · have hne : i ≠ q.impl := fun hi =>
        hs.alone.others hp hunder hq hl ⟨hi.symm, by rw [hqpc]; nofun⟩
      rw [himpls]
      exact Or.inl (by cases aborted <;> simp [dagThreadFinishedHandler, updateImpl_of_ne hne])

structure Waits (p : Preparation) (k : Nat) (job : MiningJob) (s : EthereumSystem) : Prop where
  guarded : Guarded p.impl s
  job : ∃ pc, s.preparations[k]? = some { p with pc := pc } ∧
    (pc = .handled ∨ (s.impls p.impl).m_currentJob = job)

theorem Waits.step {e : Event} {p : Preparation} {job : MiningJob} (hs : Waits p k job s)
    (hc : NoStop p.impl s e ∧ NoEmptyJob p.impl e) (h : s.step e = some t) : Waits p k job t := by
  obtain ⟨hstop, hempty⟩ := hc
  obtain ⟨hg, pc, hp, hjob⟩ := hs
  obtain ⟨pc', hp', hhandled⟩ := step_preparation h hp
  refine ⟨hg.step hstop h, pc', hp', ?_⟩
  by_cases hpc : pc = .handled
  · exact Or.inl (hhandled hpc)
  · rcases step_currentJob hg hstop hempty h hp ⟨rfl, hpc⟩ with hcur | rfl
    · exact Or.inr (hcur.trans (hjob.resolve_left hpc))
    · obtain ⟨-, h⟩ := Option.ite_none_right_eq_some.mp h
      obtain ⟨q, aborted, hq, -, -, hprep, -⟩ := dagThreadFinished_cases h
      rw [hprep, List.getElem?_set_self (List.getElem?_eq_some_iff.mp hq).1,
        Option.some.injEq] at hp'
      exact Or.inl (congrArg Preparation.pc hp').symm

theorem handler_installs {p : Preparation} (hp : s.preparations[k]? = some p)
    (hpc : p.pc = .finished none) (h : s.step (.dagThreadFinished k) = some t) :
    t.impls p.impl = ⟨p.job, false, true⟩ := by
  obtain ⟨-, h⟩ := Option.ite_none_right_eq_some.mp h
  obtain ⟨q, aborted, hq, hqpc, -, -, himpls, -⟩ := dagThreadFinished_cases h
  cases hp.symm.trans hq
  cases hpc.symm.trans hqpc
  rw [himpls, dagThreadFinishedHandler, updateImpl_self]

theorem starts_preparation {u : Update} (hstarts : s.Starts u) (h : s.step .main = some t) :
    t = s.startPreparation u.impl u.job ∧
      t.preparations[s.preparations.length]? = some ⟨u.impl, u.job, .enter⟩ := by
  obtain ⟨v, hv, rfl⟩ := Option.map_eq_some_iff.mp h
  cases hstarts.1.symm.trans hv
  rw [runMain_of_starts hstarts]
  exact ⟨rfl, by rw [startPreparation, List.getElem?_concat_length]⟩

/-- As long as no full stop comes while a preparation is under way: a preparation that succeeds
installs the job that started it, unless an empty job came since then, and until its handler runs
the miner's job stays as it was. -/
theorem starting_job_installed {u : Update} {p : Preparation} {v : EthereumSystem}
    (hrun : exec step initial es = some s) (hstop : Along step (NoStop u.impl) initial es)
    (hstarts : s.Starts u) (hfs : exec step s (.main :: fs) = some t)
    (hquiet : Along step (fun s e => NoStop u.impl s e ∧ NoEmptyJob u.impl e) s (.main :: fs))
    (hp : t.preparations[s.preparations.length]? = some p) (hpc : p.pc = .finished none)
    (hv : t.step (.dagThreadFinished s.preparations.length) = some v) :
    (t.impls u.impl).m_currentJob = (s.impls u.impl).m_currentJob ∧
      v.impls u.impl = ⟨u.job, false, true⟩ := by
  have hs : Guarded u.impl s :=
    exec_invariant (fun _ _ _ hI hC h => hI.step hC h) .initial hstop hrun
  obtain ⟨r, hr, hfs⟩ := exec_cons.mp hfs
  obtain ⟨hc, hquiet⟩ := (along_cons hr).mp hquiet
  obtain ⟨rfl, hget⟩ := starts_preparation hstarts hr
  have hwaits : Waits ⟨u.impl, u.job, .enter⟩ s.preparations.length
      (s.impls u.impl).m_currentJob (s.startPreparation u.impl u.job) :=
    ⟨hs.step hc.1 hr, .enter, hget, Or.inr (by simp only [startPreparation, updateImpl_self])⟩
  obtain ⟨-, pc, hp', hjob⟩ := exec_invariant (fun _ _ _ hI hC h => hI.step hC h) hwaits hquiet hfs
  cases hp'.symm.trans hp
  simp only at hpc
  subst hpc
  exact ⟨hjob.resolve_left nofun, handler_installs hp rfl hv⟩

theorem step_main_blob {e : Event} (hs : ∀ u ∈ s.main, u.job.blob ≠ []) (h : s.step e = some t) :
    ∀ u ∈ t.main, u.job.blob ≠ [] := by
  cases e with
  | newJob j job =>
    obtain ⟨-, h⟩ := Option.ite_none_right_eq_some.mp h
    cases h
    rcases newJob_cases s j job with ⟨-, heq⟩ | heq | ⟨hblob, -, -, heq⟩ <;> rw [heq]
    · exact hs
    · exact hs
    · intro u hu
      cases Option.mem_some_iff.mp hu
      exact hblob
  | stop j othersRunning =>
    obtain ⟨-, h⟩ := Option.ite_none_right_eq_some.mp h
    cases h
    unfold EthereumSystem.stop
    split <;> exact hs
  | main =>
    obtain ⟨u, hu, rfl⟩ := Option.map_eq_some_iff.mp h
    rcases runMain_cases hu with ⟨-, heq⟩ | ⟨-, -, heq⟩ | ⟨-, -, heq⟩ <;> rw [heq]
    · exact nofun
    · intro v hv
      cases Option.mem_some_iff.mp hv
      exact hs u hu
    · exact nofun
  | prepare k e =>
    obtain ⟨p, pc, -, -, -, -, -, hmain⟩ := prepare_cases h
    rw [hmain]
    exact hs
  | dagThreadFinished k =>
    obtain ⟨-, h⟩ := Option.ite_none_right_eq_some.mp h
    obtain ⟨p, aborted, -, -, -, -, -, -, hmain⟩ := dagThreadFinished_cases h
    rw [hmain]
    exact hs

/-- In any run, what a successful preparation installs is the newest job exactly when the newest job
is the one that started it. -/
theorem installs_newest_iff {u : Update} {p : Preparation} {v : EthereumSystem}
    (hrun : exec step initial es = some s) (hstarts : s.Starts u)
    (hfs : exec step s (.main :: fs) = some t)
    (hp : t.preparations[s.preparations.length]? = some p) (hpc : p.pc = .finished none)
    (hv : t.step (.dagThreadFinished s.preparations.length) = some v) :
    v.Installed u.impl (newest u.impl u.job fs) ↔ newest u.impl u.job fs = some u.job := by
  have hblob : u.job.blob ≠ [] :=
    exec_invariant_of_step (I := fun s => ∀ u ∈ s.main, u.job.blob ≠ [])
      (fun _ _ _ hI h => step_main_blob hI h) nofun hrun u hstarts.1
  obtain ⟨r, hr, hfs⟩ := exec_cons.mp hfs
  obtain ⟨rfl, hget⟩ := starts_preparation hstarts hr
  obtain ⟨pc, hp'⟩ : ∃ pc, t.preparations[s.preparations.length]? = some ⟨u.impl, u.job, pc⟩ :=
    exec_invariant_of_step
      (I := fun r => ∃ pc, r.preparations[s.preparations.length]? = some ⟨u.impl, u.job, pc⟩)
      (fun _ _ _ ⟨_, hI⟩ h => (step_preparation h hI).imp fun _ h => h.1) ⟨.enter, hget⟩ hfs
  cases hp'.symm.trans hp
  have hjob := congrArg EthereumMinerImpl.m_currentJob (handler_installs hp hpc hv)
  simp only at hjob
  cases hnew : newest u.impl u.job fs with
  | some job =>
    rw [Installed, hjob, Option.some.injEq]
    exact eq_comm
  | none =>
    rw [Installed, hjob]
    exact ⟨fun h => absurd h hblob, nofun⟩

def firstJob (job : MiningJob) : EthereumSystem :=
  { initial with main := some ⟨0, job, .checkSeed⟩ }

def jobMeanwhile (job : MiningJob) : List Event :=
  [.main, .prepare 0 .next, .prepare 0 (.disk none), .prepare 0 (.lookup false), .newJob 0 job,
    .prepare 0 (.callback 100), .prepare 0 .next, .prepare 0 .built, .prepare 0 .next,
    .prepare 0 .next]

theorem handler_runs {p : Preparation} {aborted : Option PreparingError} (hmain : s.main = none)
    (hp : s.preparations[k]? = some p) (hpc : p.pc = .finished aborted) :
    ∃ t, s.step (.dagThreadFinished k) = some t := by
  refine ⟨{ s.dagThreadFinishedHandler p aborted with
    preparations := s.preparations.set k { p with pc := .handled } }, ?_⟩
  rw [step, if_pos hmain, dagThreadFinished, hp, Option.bind_some, hpc]

theorem jobMeanwhile_finished : ∃ t,
    exec step (firstJob ⟨[1], [7], []⟩) (jobMeanwhile ⟨[2], [7], []⟩) = some t ∧ t.main = none ∧
      t.preparations = [⟨0, ⟨[1], [7], []⟩, .finished none⟩] := by
  have h : (exec step (firstJob ⟨[1], [7], []⟩) (jobMeanwhile ⟨[2], [7], []⟩)).map
      (fun t => (t.main, t.preparations)) =
        some (none, [⟨0, ⟨[1], [7], []⟩, .finished none⟩]) := by decide +kernel
  obtain ⟨t, ht, hw⟩ := Option.map_eq_some_iff.mp h
  cases t
  cases hw
  exact ⟨_, ht, rfl, rfl⟩

theorem first_job_installed : ∃ t v,
    exec step (firstJob ⟨[1], [7], []⟩) (jobMeanwhile ⟨[2], [7], []⟩) = some t ∧
      t.step (.dagThreadFinished 0) = some v ∧
      (t.impls 0).m_currentJob = .empty ∧ v.impls 0 = ⟨⟨[1], [7], []⟩, false, true⟩ := by
  obtain ⟨t, ht, hmain, hp⟩ := jobMeanwhile_finished
  have hget : t.preparations[0]? = some ⟨0, ⟨[1], [7], []⟩, .finished none⟩ := by rw [hp]; rfl
  obtain ⟨v, hv⟩ := handler_runs hmain hget rfl
  have hfirst : exec step initial [.newJob 0 ⟨[1], [7], []⟩] = some (firstJob ⟨[1], [7], []⟩) := rfl
  exact ⟨t, v, ht, hv, starting_job_installed (u := ⟨0, ⟨[1], [7], []⟩, .checkSeed⟩) hfirst
    (by decide +kernel) (by decide +kernel) ht (by decide +kernel) hget rfl hv⟩

/-- A job that comes while the DAG is prepared is lost: the older one is installed. -/
theorem job_meanwhile_lost :
    ¬ ∀ (es fs : List Event) (s t v : EthereumSystem) (u : Update) (p : Preparation),
      exec step initial es = some s → s.Starts u → exec step s (.main :: fs) = some t →
        t.preparations[s.preparations.length]? = some p → p.pc = .finished none →
          t.step (.dagThreadFinished s.preparations.length) = some v →
            v.Installed u.impl (newest u.impl u.job fs) := by
  intro h
  obtain ⟨t, ht, hmain, hp⟩ := jobMeanwhile_finished
  have hget : t.preparations[0]? = some ⟨0, ⟨[1], [7], []⟩, .finished none⟩ := by rw [hp]; rfl
  obtain ⟨v, hv⟩ := handler_runs hmain hget rfl
  have hinst := h [.newJob 0 ⟨[1], [7], []⟩] _ (firstJob ⟨[1], [7], []⟩) t v
    ⟨0, ⟨[1], [7], []⟩, .checkSeed⟩ _ rfl (by decide +kernel) ht hget rfl hv
  have hcur : (v.impls 0).m_currentJob = ⟨[2], [7], []⟩ := hinst
  rw [handler_installs hget rfl hv] at hcur
  cases hcur

end EthereumSystem
end MinerGate
