import MinerGate.Ethereum.DagAgreement

/-!
# The DAG of the installed job

`updateJob` and `dagThreadFinishedHandler` install a job when the controller has its DAG. It stays
there until the next thread enters `prepareDag`; until then whoever has got the job can count on
the DAG.
-/

namespace MinerGate

set_option autoImplicit false

open Transition

def BuiltFor (dag : Option Dag) (job : MiningJob) : Prop := job.blob ≠ [] → dag = some ⟨job.blob⟩

instance (dag : Option Dag) (job : MiningJob) : Decidable (BuiltFor dag job) :=
  inferInstanceAs (Decidable (_ → _))

theorem builtFor_nil {dag : Option Dag} {job : MiningJob} (h : job.blob = []) : BuiltFor dag job :=
  fun hne => absurd h hne

/-- A record of a run, no part of the program: who has a job of the miner 0 whose DAG has been in
the controller ever since. These are preparations that have stored their DAG, the miner, its worker
and the worker's loop. -/
structure Kept where
  prepared : List Nat
  current : Bool
  stored : Bool
  copied : Bool
deriving DecidableEq, Repr

def Kept.none : Kept := ⟨[], false, false, false⟩

/-- A thread that enters `prepareDag` resets the DAG. Otherwise the job passes to the miner from its
preparation or from `updateJob`. -/
def EthereumSystem.noteDag (s : EthereumSystem) (e : Event) (kept : Kept) : Kept :=
  match e with
  | .prepare k .next =>
    match s.preparations[k]?.map Preparation.pc with
    | some PreparePc.enter => .none
    | some PreparePc.finish => { kept with prepared := k :: kept.prepared }
    | _ => kept
  | .main =>
    if ∃ u ∈ s.main, u.impl = 0 ∧ u.pc = .checkDag ∧ s.dagCtl.m_dag ≠ none then
      { kept with current := true }
    else kept
  | .dagThreadFinished k =>
    if ∃ p ∈ s.preparations[k]?, p.impl = 0 ∧ p.pc = .finished none then
      { kept with current := k ∈ kept.prepared }
    else kept
  | _ => kept

namespace EthereumSystem
variable {s t : EthereumSystem} {kept : Kept}

/-- Who has kept a job has its DAG in the controller. No one has while a call is active. -/
structure Keeps (s : EthereumSystem) (kept : Kept) : Prop where
  active : ∀ p ∈ s.preparations, p.pc.isActive = true → kept = .none
  prepared : ∀ k ∈ kept.prepared, ∃ p, s.preparations[k]? = some p ∧ p.pc.isDone = true ∧
    s.dagCtl.m_dag = some ⟨p.job.blob⟩
  current : kept.current = true → BuiltFor s.dagCtl.m_dag (s.impls 0).m_currentJob

theorem Keeps.of_none : s.Keeps .none := ⟨fun _ _ _ => rfl, nofun, nofun⟩

theorem Keeps.of_frame (hs : s.Keeps kept) (hdag : t.dagCtl = s.dagCtl)
    (hprep : t.preparations = s.preparations)
    (hjob : (t.impls 0).m_currentJob.blob = [] ∨
      (t.impls 0).m_currentJob = (s.impls 0).m_currentJob) : t.Keeps kept := by
  refine ⟨?_, ?_, fun hcurrent => ?_⟩
  · rw [hprep]
    exact hs.active
  · rw [hdag, hprep]
    exact hs.prepared
  · rw [hdag]
    rcases hjob with hblob | hsame
    · exact builtFor_nil hblob
    · rw [hsame]
      exact hs.current hcurrent

/-- Those after the miner keep a DAG that stays, or they have kept none. -/
def Passes (s t : EthereumSystem) (kept kept' : Kept) : Prop :=
  (kept'.stored = false ∧ kept'.copied = false) ∨
    (t.dagCtl.m_dag = s.dagCtl.m_dag ∧ kept'.stored = kept.stored ∧ kept'.copied = kept.copied)

theorem Keeps.newJob (hs : s.Keeps kept) (i : Nat) (job : MiningJob) :
    (s.newJob i job).Keeps kept := by
  refine hs.of_frame (newJob_frame s i job).1 (newJob_frame s i job).2 ?_
  rcases newJob_cases s i job with ⟨hblob, h⟩ | h | ⟨-, -, -, h⟩ <;> rw [h]
  · by_cases hi : 0 = i
    · subst hi
      exact Or.inl (by rw [updateImpl_self]; exact hblob)
    · exact Or.inr (by rw [updateImpl_of_ne hi])
  · exact Or.inr rfl
  · exact Or.inr rfl

theorem Keeps.stop (hs : s.Keeps kept) (i : Nat) (othersRunning : Bool) :
    (s.stop i othersRunning).Keeps kept := by
  refine hs.of_frame (stop_frame s i othersRunning).1 (stop_frame s i othersRunning).2 ?_
  unfold EthereumSystem.stop
  split
  case isTrue => exact Or.inr rfl
  case isFalse =>
    by_cases hi : 0 = i
    · subst hi
      exact Or.inl (by rw [updateImpl_self]; rfl)
    · exact Or.inr (by rw [updateImpl_of_ne hi])

theorem Keeps.start (hs : s.Keeps kept) (i : Nat) (job : MiningJob) :
    (s.startPreparation i job).Keeps kept := by
  refine ⟨fun p hp hactive => ?_, fun k hk => ?_, fun hcurrent => ?_⟩
  · rcases List.mem_append.mp hp with hold | hnew
    · exact hs.active p hold hactive
    · cases List.mem_singleton.mp hnew
      cases hactive
  · obtain ⟨p, hp, hdone, hdag⟩ := hs.prepared k hk
    refine ⟨p, ?_, hdone, hdag⟩
    rw [startPreparation, List.getElem?_append_left (List.getElem?_eq_some_iff.mp hp).1, hp]
  · have hjob : ((s.startPreparation i job).impls 0).m_currentJob = (s.impls 0).m_currentJob := by
      by_cases hi : 0 = i
      · simp only [startPreparation, ← hi, updateImpl_self]
      · simp only [startPreparation, updateImpl_of_ne hi]
    rw [hjob]
    exact hs.current hcurrent

theorem noteDag_main {u : Update} (hu : s.main = some u)
    (h : ¬ (u.impl = 0 ∧ u.pc = .checkDag ∧ s.dagCtl.m_dag ≠ none)) :
    s.noteDag .main kept = kept := by
  refine if_neg fun ⟨v, hv, hinstalls⟩ => h ?_
  cases hu.symm.trans hv
  exact hinstalls

theorem Keeps.runMain (hone : s.OnePreparation) (hs : s.Keeps kept) {u : Update}
    (hu : s.main = some u) : (s.runMain u).Keeps (s.noteDag .main kept) ∧
      s.Passes (s.runMain u) kept (s.noteDag .main kept) := by
  rcases runMain_cases hu with ⟨hstarts, heq⟩ | ⟨hpc, -, heq⟩ | ⟨hpc, hdag, heq⟩ <;> rw [heq]
  · have hnote : s.noteDag .main kept = kept := by
      refine noteDag_main hu fun h => h.2.2 ?_
      have hstarts := hstarts.2
      rwa [h.2.1] at hstarts
    rw [hnote]
    exact ⟨hs.start u.impl u.job, Or.inr ⟨rfl, rfl, rfl⟩⟩
  · have hnote : s.noteDag .main kept = kept := by
      refine noteDag_main hu fun h => ?_
      rw [hpc] at h
      cases h.2.1
    rw [hnote]
    exact ⟨hs.of_frame rfl rfl (Or.inr rfl), Or.inr ⟨rfl, rfl, rfl⟩⟩
  · by_cases hi : u.impl = 0
    · have hnote : s.noteDag .main kept = { kept with current := true } :=
        if_pos ⟨u, hu, hi, hpc, hdag⟩
      rw [hnote]
      refine ⟨⟨fun p hp hactive => ?_, hs.prepared, fun _ => ?_⟩, Or.inr ⟨rfl, rfl, rfl⟩⟩
      · have hdone := hone.update u hu p hp
        rw [PreparePc.isDone_of_isActive hactive] at hdone
        cases hdone
      · simp only [hi, updateImpl_self]
        exact fun _ => hone.installs hu hpc hdag
    · rw [noteDag_main hu fun h => hi h.1]
      refine ⟨hs.of_frame rfl rfl (Or.inr ?_), Or.inr ⟨rfl, rfl, rfl⟩⟩
      simp only [updateImpl_of_ne (fun h => hi h.symm : (0 : Nat) ≠ u.impl)]

theorem noteDag_prepare {k : Nat} {e : PrepareEvent} {p : Preparation}
    (hp : s.preparations[k]? = some p) (henter : p.pc ≠ .enter) (hfinish : p.pc ≠ .finish) :
    s.noteDag (.prepare k e) kept = kept := by
  cases e with
  | next =>
    simp only [noteDag, hp, Option.map_some]
    split
    case h_1 h => exact absurd (Option.some.inj h) henter
    case h_2 h => exact absurd (Option.some.inj h) hfinish
    case h_3 => rfl
  | _ => rfl

theorem Keeps.prepare (hone : s.OnePreparation) (hs : s.Keeps kept) {k : Nat} {e : PrepareEvent}
    (h : s.prepare k e = some t) : t.Keeps (s.noteDag (.prepare k e) kept) ∧
      s.Passes t kept (s.noteDag (.prepare k e) kept) := by
  obtain ⟨p, pc, hp, hr, ht⟩ := prepare_eq_some h
  have hprep : t.preparations = s.preparations.set k { p with pc := pc } := by rw [ht]
  have himpls : t.impls = s.impls := by rw [ht]
  have hk := (List.getElem?_eq_some_iff.mp hp).1
  have hcases : ∀ q ∈ t.preparations, q = { p with pc := pc } ∨
      ∃ l, l ≠ k ∧ s.preparations[l]? = some q := by
    rw [hprep]
    exact fun q hq => Exclusive.mem_set_cases hp hq
  by_cases henter : p.pc = .enter
  · rw [henter] at hr
    cases e <;> simp only [prepareDag, reduceCtorEq] at hr
    have hnote : s.noteDag (.prepare k .next) kept = .none := by simp [noteDag, hp, henter]
    rw [hnote]
    exact ⟨.of_none, Or.inl ⟨rfl, rfl⟩⟩
  by_cases hfinish : p.pc = .finish
  · have hnone : kept = .none := hs.active p (List.mem_of_getElem? hp) (by rw [hfinish]; rfl)
    have hundone : p.pc.isDone = false := by rw [hfinish]; rfl
    rw [hfinish] at hr
    cases e <;> simp only [prepareDag, reduceCtorEq, Option.some.injEq, Prod.mk.injEq] at hr
    obtain ⟨hd, rfl⟩ := hr
    have hnote : s.noteDag (.prepare k .next) kept = ⟨[k], false, false, false⟩ := by
      simp [noteDag, hp, hfinish, hnone, Kept.none]
    rw [hnote]
    refine ⟨⟨fun q hq hactive => ?_, fun l hl => ?_, Bool.noConfusion⟩, Or.inl ⟨rfl, rfl⟩⟩
    · rcases hcases q hq with rfl | ⟨l, hne, hl⟩
      · cases hactive
      · exact absurd (PreparePc.isDone_of_isActive hactive)
          (hone.alone.others hp hundone hl hne)
    · cases List.mem_singleton.mp hl
      refine ⟨{ p with pc := .returned none }, ?_, rfl, by rw [← hd]⟩
      rw [hprep, List.getElem?_set_self hk]
  · rw [noteDag_prepare hp henter hfinish]
    cases prepareDag_cases hr with
    | enter hpc => exact absurd hpc henter
    | finish hpc => exact absurd hpc hfinish
    | keep _ _ hdag _ hactive hdone =>
      refine ⟨⟨fun q hq hqa => ?_, fun l hl => ?_, fun hcurrent => ?_⟩, Or.inr ⟨hdag, rfl, rfl⟩⟩
      · rcases hcases q hq with rfl | ⟨l, -, hl⟩
        · exact hs.active p (List.mem_of_getElem? hp) (hactive hqa)
        · exact hs.active q (List.mem_of_getElem? hl) hqa
      · obtain ⟨q, hq, hqd, hbuilt⟩ := hs.prepared l hl
        rw [hprep, hdag]
        by_cases hlk : k = l
        · subst hlk
          cases hp.symm.trans hq
          exact ⟨_, List.getElem?_set_self hk, hdone hqd, hbuilt⟩
        · exact ⟨q, by rw [List.getElem?_set_ne hlk, hq], hqd, hbuilt⟩
      · rw [hdag, himpls]
        exact hs.current hcurrent

theorem Keeps.dagThreadFinished (hs : s.Keeps kept) {k : Nat}
    (h : s.dagThreadFinished k = some t) : t.Keeps (s.noteDag (.dagThreadFinished k) kept) ∧
      s.Passes t kept (s.noteDag (.dagThreadFinished k) kept) := by
  obtain ⟨p, aborted, hp, hpc, hdag, hprep, himpls, -, -⟩ := dagThreadFinished_cases h
  have hk := (List.getElem?_eq_some_iff.mp hp).1
  have hactive : ∀ q ∈ t.preparations, q.pc.isActive = true → kept = .none := by
    intro q hq hqa
    rw [hprep] at hq
    rcases Exclusive.mem_set_cases hp hq with rfl | ⟨l, -, hl⟩
    · cases hqa
    · exact hs.active q (List.mem_of_getElem? hl) hqa
  have hprepared : ∀ l ∈ kept.prepared, ∃ q, t.preparations[l]? = some q ∧
      q.pc.isDone = true ∧ t.dagCtl.m_dag = some ⟨q.job.blob⟩ := by
    intro l hl
    obtain ⟨q, hq, hqd, hbuilt⟩ := hs.prepared l hl
    rw [hprep, hdag]
    by_cases hlk : k = l
    · subst hlk
      cases hp.symm.trans hq
      exact ⟨_, List.getElem?_set_self hk, rfl, hbuilt⟩
    · exact ⟨q, by rw [List.getElem?_set_ne hlk, hq], hqd, hbuilt⟩
  by_cases hinstalls : p.impl = 0 ∧ aborted = none
  · obtain ⟨hi, rfl⟩ := hinstalls
    have hnote : s.noteDag (.dagThreadFinished k) kept =
        { kept with current := k ∈ kept.prepared } := if_pos ⟨p, hp, hi, hpc⟩
    rw [hnote]
    refine ⟨⟨fun q hq hqa => ?_, hprepared, fun hcurrent => ?_⟩, Or.inr ⟨by rw [hdag], rfl, rfl⟩⟩
    · rw [hactive q hq hqa]
      rfl
    · obtain ⟨q, hq, -, hbuilt⟩ := hs.prepared k (of_decide_eq_true hcurrent)
      cases hp.symm.trans hq
      rw [hdag, himpls, dagThreadFinishedHandler, ← hi, updateImpl_self]
      exact fun _ => hbuilt
  · have hnote : s.noteDag (.dagThreadFinished k) kept = kept := by
      refine if_neg fun hcond => hinstalls ?_
      obtain ⟨q, hq, hi, hqpc⟩ := hcond
      cases hp.symm.trans hq
      exact ⟨hi, PreparePc.finished.inj (hpc.symm.trans hqpc)⟩
    rw [hnote]
    refine ⟨⟨hactive, hprepared, fun hcurrent => ?_⟩, Or.inr ⟨by rw [hdag], rfl, rfl⟩⟩
    have hjob : (t.impls 0).m_currentJob = (s.impls 0).m_currentJob := by
      rw [himpls]
      by_cases hi : 0 = p.impl
      · cases aborted with
        | none => exact absurd ⟨hi.symm, rfl⟩ hinstalls
        | some error => simp only [dagThreadFinishedHandler, ← hi, updateImpl_self]
      · cases aborted <;> simp [dagThreadFinishedHandler, updateImpl_of_ne hi]
    rw [hdag, hjob]
    exact hs.current hcurrent

theorem Keeps.step (hone : s.OnePreparation) (hs : s.Keeps kept) {e : Event}
    (h : s.step e = some t) :
    t.Keeps (s.noteDag e kept) ∧ s.Passes t kept (s.noteDag e kept) := by
  cases e with
  | newJob i job =>
    obtain ⟨-, h⟩ := Option.ite_none_right_eq_some.mp h
    cases h
    exact ⟨hs.newJob i job, Or.inr ⟨by rw [(newJob_frame s i job).1], rfl, rfl⟩⟩
  | stop i othersRunning =>
    obtain ⟨-, h⟩ := Option.ite_none_right_eq_some.mp h
    cases h
    exact ⟨hs.stop i othersRunning, Or.inr ⟨by rw [(stop_frame s i othersRunning).1], rfl, rfl⟩⟩
  | main =>
    obtain ⟨u, hu, rfl⟩ := Option.map_eq_some_iff.mp h
    exact hs.runMain hone hu
  | prepare k e => exact hs.prepare hone h
  | dagThreadFinished k =>
    obtain ⟨-, h⟩ := Option.ite_none_right_eq_some.mp h
    exact hs.dagThreadFinished h

end EthereumSystem

end MinerGate
