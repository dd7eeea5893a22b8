import Mathlib.Logic.Function.Basic
import MinerGate.Lib.Transition
import MinerGate.Miner.Job

/-!
# The DAG controller

`DagController` is one object for all Ethereum miners of the process. Every miner that gets
a job for another seed hash starts a thread which calls `prepareDag`, and only the guards of
`EthereumMinerImpl::updateJob` keep two such calls apart. Here is the system of the
controller, any number of miners, whose handlers run one at a time on the main thread, and
the preparation threads.
-/

namespace MinerGate

set_option autoImplicit false

open Transition

/-- A DAG, known by the seed hash it was built from. -/
structure Dag where
  seedHash : QByteArray
deriving DecidableEq, Repr

/-- The fields of `DagControllerPrivate` that `m_mutex` guards. -/
structure DagController where
  m_dag : Option Dag
  m_seedHashData : QByteArray
  m_progress : Nat
deriving DecidableEq, Repr

def DagController.new : DagController := ⟨none, [], 100⟩

inductive PreparingError where
  | NoError
  | Unknown
  | NoEnoughSpace
  | NoMemory
deriving DecidableEq, Repr

def PreparingError.message : PreparingError → Option String
  | .NoError => none
  | .NoEnoughSpace => some "Low disk space"
  | .NoMemory => some "No free memory"
  | .Unknown => some "Unknow error"

/-- Where a preparation thread stands. `full` and `report` are inside `EthashAux::full`, the latter
with a percentage that the callback is about to store; `returned` and `finished` are after
`prepareDag`, with the error when it was aborted. -/
inductive PreparePc where
  | enter
  | checkDisk
  | lookup
  | full (last : Nat)
  | report (pc : Nat)
  | failed (error : PreparingError)
  | finish
  | returned (aborted : Option PreparingError)
  | finished (aborted : Option PreparingError)
  | handled
deriving DecidableEq, Repr

namespace PreparePc

/-- The call of `prepareDag` is over. -/
def isDone : PreparePc → Bool
  | returned _ | finished _ | handled => true
  | _ => false

/-- The call of `prepareDag` has entered its first critical section and is not over. -/
def isActive : PreparePc → Bool
  | enter | returned _ | finished _ | handled => false
  | _ => true

theorem isDone_of_isActive {pc : PreparePc} (h : pc.isActive = true) : pc.isDone = false := by
  cases pc <;> first | rfl | cases h

theorem isActive_of_isDone {pc : PreparePc} (hne : pc ≠ .enter) (h : pc.isDone = false) :
    pc.isActive = true := by
  cases pc <;> first | rfl | exact absurd rfl hne | cases h

end PreparePc

/-- What a step of a preparation thread takes from outside: the check of the disk, whether
`EthashAux` still has the DAG, a call of the progress callback, and how `EthashAux::full` ends; it
returns null (`NoError`) or throws. -/
inductive PrepareEvent where
  | next
  | disk (error : Option PreparingError)
  | lookup (cached : Bool)
  | callback (pc : Nat)
  | built
  | notBuilt (error : PreparingError)
deriving DecidableEq, Repr

/-- `prepareDag` for one seed hash and what its thread does afterwards. `inProgress` is the flag of
the thread's miner, `callbackFlag` the one that the callback reads. -/
def prepareDag (seedHashData : QByteArray) (inProgress callbackFlag : Bool) (d : DagController) :
    PreparePc → PrepareEvent → Option (DagController × PreparePc)
  | .enter, .next => some (⟨none, seedHashData, 0⟩, .checkDisk)
  | .checkDisk, .disk none => some (d, .lookup)
  | .checkDisk, .disk (some error) => some (d, .failed error)
  | .lookup, .lookup true => some (d, .finish)
  | .lookup, .lookup false => some (d, .full 0)
  | .full last, .callback pc =>
    if last ≤ pc ∧ pc ≤ 100 then
      if callbackFlag then some (d, .report pc) else some (d, .failed .Unknown)
    else none
  | .report pc, .next => some ({ d with m_progress := pc }, .full pc)
  | .full _, .built => some (d, .finish)
  | .full _, .notBuilt error => some (d, .failed error)
  | .failed error, .next => some ({ d with m_progress := 100 }, .returned (some error))
  | .finish, .next =>
    some ({ d with m_dag := some ⟨seedHashData⟩, m_progress := 100 }, .returned none)
  | .returned none, .next => some (d, .finished none)
  | .returned (some error), .next =>
    some (d, .finished (some (if inProgress then error else .NoError)))
  | _, _ => none

inductive PrepareStep (seedHashData : QByteArray) (d d' : DagController) (pc pc' : PreparePc) :
    Prop where
  | enter (hpc : pc = .enter) (hd : d' = ⟨none, seedHashData, 0⟩) (hpc' : pc'.isActive = true)
  | finish (hpc : pc = .finish)
    (hd : d' = { d with m_dag := some ⟨seedHashData⟩, m_progress := 100 })
    (hpc' : pc'.isDone = true)
  | keep (henter : pc ≠ .enter) (hfinish : pc ≠ .finish) (hdag : d'.m_dag = d.m_dag)
    (hseed : d'.m_seedHashData = d.m_seedHashData)
    (hactive : pc'.isActive = true → pc.isActive = true)
    (hdone : pc.isDone = true → pc'.isDone = true)

theorem prepareDag_cases {seedHashData : QByteArray} {inProgress callbackFlag : Bool}
    {d d' : DagController} {pc pc' : PreparePc} {e : PrepareEvent}
    (h : prepareDag seedHashData inProgress callbackFlag d pc e = some (d', pc')) :
    PrepareStep seedHashData d d' pc pc' := by
  cases pc <;> cases e <;> simp only [prepareDag, reduceCtorEq] at h
  case enter.next =>
    cases h
    exact .enter rfl rfl rfl
  case finish.next =>
    cases h
    exact .finish rfl rfl rfl
  case full.callback =>
    obtain ⟨-, h⟩ := Option.ite_none_right_eq_some.mp h
    split at h <;> cases h <;> exact .keep nofun nofun rfl rfl (fun _ => rfl) nofun
  case checkDisk.disk error =>
    cases error <;> cases h <;> exact .keep nofun nofun rfl rfl (fun _ => rfl) nofun
  case lookup.lookup cached =>
    cases cached <;> cases h <;> exact .keep nofun nofun rfl rfl (fun _ => rfl) nofun
  case returned.next aborted =>
    cases aborted <;> cases h <;> exact .keep nofun nofun rfl rfl nofun fun _ => rfl
  case report.next | full.built | full.notBuilt | failed.next =>
    cases h
    exact .keep nofun nofun rfl rfl (fun _ => rfl) nofun

theorem PrepareStep.isDone {seedHashData : QByteArray} {d d' : DagController}
    {pc pc' : PreparePc} (h : PrepareStep seedHashData d d' pc pc') (hpc : pc.isDone = true) :
    pc'.isDone = true := by
  cases h with
  | enter henter => rw [henter] at hpc; cases hpc
  | finish hfinish => rw [hfinish] at hpc; cases hpc
  | keep _ _ _ _ _ hdone => exact hdone hpc

structure EthereumMinerImpl where
  m_currentJob : MiningJob
  m_preparingInProgress : Bool
  m_isReady : Bool
deriving DecidableEq, Repr

def EthereumMinerImpl.new : EthereumMinerImpl := ⟨.empty, false, false⟩

structure Preparation where
  impl : Nat
  job : MiningJob
  pc : PreparePc
deriving DecidableEq, Repr

/-- Where `updateJob` stands when it is past `m_preparingInProgress` and `dagProgress`. -/
inductive UpdatePc where
  | checkSeed
  | checkDag
deriving DecidableEq, Repr

structure Update where
  impl : Nat
  job : MiningJob
  pc : UpdatePc
deriving DecidableEq, Repr

/-- `main` is the call of `updateJob` that the main thread is in. `s_dagCallback`, a static variable
of `EthashAux`, holds the callback of the last thread that set it, here the miner whose flag it
reads. -/
structure EthereumSystem where
  dagCtl : DagController
  impls : Nat → EthereumMinerImpl
  preparations : List Preparation
  main : Option Update
  s_dagCallback : Nat
  preparingErrors : List (Nat × String)

namespace EthereumSystem

def initial : EthereumSystem := ⟨.new, fun _ => .new, [], none, 0, []⟩

inductive Event where
  | newJob (i : Nat) (job : MiningJob)
  | stop (i : Nat) (othersRunning : Bool)
  | main
  | prepare (k : Nat) (e : PrepareEvent)
  | dagThreadFinished (k : Nat)
deriving DecidableEq, Repr

def updateImpl (s : EthereumSystem) (i : Nat) (f : EthereumMinerImpl → EthereumMinerImpl) :
    EthereumSystem :=
  { s with impls := Function.update s.impls i (f (s.impls i)) }

/-- `EthereumMinerImpl::updateJob` up to its look at the controller's seed hash. -/
def newJob (s : EthereumSystem) (i : Nat) (job : MiningJob) : EthereumSystem :=
  if job.blob = [] then s.updateImpl i ({ · with m_isReady := false, m_currentJob := job })
  else if (s.impls i).m_preparingInProgress then s
  else if s.dagCtl.m_progress ≠ 100 then s
  else { s with main := some ⟨i, job, .checkSeed⟩ }

def startPreparation (s : EthereumSystem) (i : Nat) (job : MiningJob) : EthereumSystem :=
  { s.updateImpl i ({ · with m_preparingInProgress := true }) with
    main := none
    preparations := s.preparations ++ [⟨i, job, .enter⟩] }

def runMain (s : EthereumSystem) (u : Update) : EthereumSystem :=
  match u.pc with
  | .checkSeed =>
    if s.dagCtl.m_seedHashData ≠ u.job.blob then s.startPreparation u.impl u.job
    else { s with main := some { u with pc := .checkDag } }
  | .checkDag =>
    if s.dagCtl.m_dag = none then s.startPreparation u.impl u.job
    else
      { s.updateImpl u.impl ({ · with m_isReady := true, m_currentJob := u.job }) with
        main := none }

/-- `stopCpu` or `stopGpu`; with workers of the other kind still running they leave the job. -/
def stop (s : EthereumSystem) (i : Nat) (othersRunning : Bool) : EthereumSystem :=
  if othersRunning then s
  else
    s.updateImpl i fun _ => ⟨.empty, false, false⟩

def setCallback (s : EthereumSystem) (p : Preparation) : PrepareEvent → Nat
  | .lookup false => p.impl
  | _ => s.s_dagCallback

def prepare (s : EthereumSystem) (k : Nat) (e : PrepareEvent) : Option EthereumSystem :=
  s.preparations[k]?.bind fun p =>
    (prepareDag p.job.blob (s.impls p.impl).m_preparingInProgress
        (s.impls s.s_dagCallback).m_preparingInProgress s.dagCtl p.pc e).map fun r =>
      { s with
        dagCtl := r.1
        preparations := s.preparations.set k { p with pc := r.2 }
        s_dagCallback := s.setCallback p e }

def dagThreadFinishedHandler (s : EthereumSystem) (p : Preparation) :
    Option PreparingError → EthereumSystem
  | none => s.updateImpl p.impl fun _ => ⟨p.job, false, true⟩
  | some error =>
    { s.updateImpl p.impl ({ · with m_preparingInProgress := false }) with
      preparingErrors := s.preparingErrors ++ error.message.toList.map (p.impl, ·) }

def dagThreadFinished (s : EthereumSystem) (k : Nat) : Option EthereumSystem :=
  s.preparations[k]?.bind fun p =>
    match p.pc with
    | .finished aborted =>
      some { s.dagThreadFinishedHandler p aborted with
        preparations := s.preparations.set k { p with pc := .handled } }
    | _ => none

/-- One step of the main thread or of a preparation thread. The main thread takes its next event
when no call of `updateJob` is under way. -/
def step (s : EthereumSystem) : Event → Option EthereumSystem
  | .newJob i job => if s.main = none then some (s.newJob i job) else none
  | .stop i othersRunning => if s.main = none then some (s.stop i othersRunning) else none
  | .main => s.main.map s.runMain
  | .prepare k e => s.prepare k e
  | .dagThreadFinished k => if s.main = none then s.dagThreadFinished k else none

def Starts (s : EthereumSystem) (u : Update) : Prop :=
  s.main = some u ∧
    match u.pc with
    | .checkSeed => s.dagCtl.m_seedHashData ≠ u.job.blob
    | .checkDag => s.dagCtl.m_dag = none

instance (s : EthereumSystem) (u : Update) : Decidable (s.Starts u) := by
  unfold Starts
  cases u.pc <;> infer_instance

section Fields
variable (s : EthereumSystem) (i j : Nat) (f : EthereumMinerImpl → EthereumMinerImpl)
  (job : MiningJob)

@[simp] theorem updateImpl_self : (s.updateImpl i f).impls i = f (s.impls i) := by
  simp [updateImpl]

theorem updateImpl_of_ne {s : EthereumSystem} {i j : Nat}
    {f : EthereumMinerImpl → EthereumMinerImpl} (h : j ≠ i) :
    (s.updateImpl i f).impls j = s.impls j := by
  simp [updateImpl, h]

@[simp] theorem updateImpl_main : (s.updateImpl i f).main = s.main := rfl

theorem newJob_cases : (job.blob = [] ∧ s.newJob i job =
      s.updateImpl i ({ · with m_isReady := false, m_currentJob := job })) ∨
    s.newJob i job = s ∨
    (job.blob ≠ [] ∧ (s.impls i).m_preparingInProgress = false ∧ s.dagCtl.m_progress = 100 ∧
      s.newJob i job = { s with main := some ⟨i, job, .checkSeed⟩ }) := by
  unfold newJob
  split
  case isTrue hblob => exact Or.inl ⟨hblob, rfl⟩
  case isFalse hblob =>
    split
    case isTrue => exact Or.inr (Or.inl rfl)
    case isFalse hflag =>
      split
      case isTrue => exact Or.inr (Or.inl rfl)
      case isFalse hprogress =>
        exact Or.inr (Or.inr ⟨hblob, by simpa using hflag, by simpa using hprogress, rfl⟩)

theorem newJob_frame : (s.newJob i job).dagCtl = s.dagCtl ∧
    (s.newJob i job).preparations = s.preparations := by
  rcases newJob_cases s i job with ⟨-, h⟩ | h | ⟨-, -, -, h⟩ <;> rw [h] <;> exact ⟨rfl, rfl⟩

theorem stop_frame (othersRunning : Bool) : (s.stop i othersRunning).dagCtl = s.dagCtl ∧
    (s.stop i othersRunning).preparations = s.preparations := by
  unfold stop
  split <;> exact ⟨rfl, rfl⟩

end Fields

variable {s t : EthereumSystem}

theorem runMain_of_starts {u : Update} (h : s.Starts u) :
    s.runMain u = s.startPreparation u.impl u.job := by
  obtain ⟨i, job, pc⟩ := u
  cases pc
  · exact if_pos h.2
  · exact if_pos h.2

theorem runMain_cases {u : Update} (hmain : s.main = some u) :
    (s.Starts u ∧ s.runMain u = s.startPreparation u.impl u.job) ∨
      (u.pc = .checkSeed ∧ s.dagCtl.m_seedHashData = u.job.blob ∧
        s.runMain u = { s with main := some { u with pc := .checkDag } }) ∨
      (u.pc = .checkDag ∧ s.dagCtl.m_dag ≠ none ∧
        s.runMain u =
          { s.updateImpl u.impl ({ · with m_isReady := true, m_currentJob := u.job }) with
            main := none }) := by
  by_cases hstarts : s.Starts u
  · exact Or.inl ⟨hstarts, runMain_of_starts hstarts⟩
  · obtain ⟨i, job, pc⟩ := u
    cases pc with
    | checkSeed =>
      have hseed : ¬ s.dagCtl.m_seedHashData ≠ job.blob := fun hne => hstarts ⟨hmain, hne⟩
      exact Or.inr (Or.inl ⟨rfl, not_not.mp hseed, if_neg hseed⟩)
    | checkDag =>
      have hdag : s.dagCtl.m_dag ≠ none := fun hnone => hstarts ⟨hmain, hnone⟩
      exact Or.inr (Or.inr ⟨rfl, hdag, if_neg hdag⟩)

theorem prepare_eq_some {k : Nat} {e : PrepareEvent} (h : s.prepare k e = some t) :
    ∃ p pc, s.preparations[k]? = some p ∧
      prepareDag p.job.blob (s.impls p.impl).m_preparingInProgress
        (s.impls s.s_dagCallback).m_preparingInProgress s.dagCtl p.pc e = some (t.dagCtl, pc) ∧
      t = { s with
        dagCtl := t.dagCtl
        preparations := s.preparations.set k { p with pc := pc }
        s_dagCallback := s.setCallback p e } := by
  obtain ⟨p, hp, h⟩ := Option.bind_eq_some_iff.mp h
  obtain ⟨⟨d, pc⟩, hr, rfl⟩ := Option.map_eq_some_iff.mp h
  exact ⟨p, pc, hp, hr, rfl⟩

theorem prepare_cases {k : Nat} {e : PrepareEvent} (h : s.prepare k e = some t) :
    ∃ p pc, s.preparations[k]? = some p ∧ p.pc ≠ .handled ∧
      PrepareStep p.job.blob s.dagCtl t.dagCtl p.pc pc ∧
      t.preparations = s.preparations.set k { p with pc := pc } ∧ t.impls = s.impls ∧
      t.main = s.main := by
  obtain ⟨p, pc, hp, hr, ht⟩ := prepare_eq_some h
  refine ⟨p, pc, hp, fun hpc => ?_, prepareDag_cases hr, by rw [ht], by rw [ht], by rw [ht]⟩
  rw [hpc] at hr
  cases e <;> cases hr

theorem dagThreadFinished_cases {k : Nat} (h : s.dagThreadFinished k = some t) :
    ∃ p aborted, s.preparations[k]? = some p ∧ p.pc = .finished aborted ∧
      t.dagCtl = s.dagCtl ∧ t.preparations = s.preparations.set k { p with pc := .handled } ∧
      t.impls = (s.dagThreadFinishedHandler p aborted).impls ∧
      t.s_dagCallback = s.s_dagCallback ∧ t.main = s.main := by
  obtain ⟨p, hp, h⟩ := Option.bind_eq_some_iff.mp h
  split at h
  case h_1 aborted hpc =>
    cases h
    cases aborted <;> exact ⟨p, _, hp, hpc, rfl, rfl, rfl, rfl, rfl⟩
  case h_2 => cases h

end EthereumSystem
end MinerGate
