import Mathlib.Data.List.Forall2
import MinerGate.Miner.Impl
import MinerGate.Pool.StratumClient

/-!
# CryptoNote shares

`CryptonoteMinerImpl` from the jobs of its two pools to the shares it submits. The GPU miners are
shared by the coins, and what one of them finds reaches every coin that has a worker on it. Every
loop searches its own copy of a job and writes nonces into it, so the invariant speaks of jobs up to
these bytes.
-/

namespace MinerGate

set_option autoImplicit false

open Transition QByteArray

/-- A hash that the check of `hash` against the target lets through. -/
structure Found (hash : QByteArray → QByteArray) (job : MiningJob) (share : ShareEvent) : Prop where
  job_id : share.job_id = job.job_id
  result : share.hash = hash (setNonce job.blob share.nonce)
  target : hashWord7 share.hash ≤ arrayToQuint32 job.target
  nonempty : ¬ job.Agrees .empty

theorem Found.of_agrees {hash : QByteArray → QByteArray} {j k : MiningJob} {share : ShareEvent}
    (h : Found hash j share) (hjk : j.Agrees k) : Found hash k share where
  job_id := h.job_id.trans hjk.1
  result := by rw [h.result, hjk.setNonce_eq]
  target := by rw [← hjk.2.1]; exact h.target
  nonempty hk := h.nonempty (hjk.trans hk)

theorem checkCryptonote_eq_some {slowHash : QByteArray → QByteArray} {job : MiningJob} {nonce : Nat}
    {hash : QByteArray} (h : checkCryptonote slowHash job nonce = some hash) :
    hash = slowHash (setNonce job.blob nonce) ∧ hashWord7 hash ≤ arrayToQuint32 job.target := by
  obtain ⟨hle, heq⟩ := Option.ite_none_right_eq_some.mp h
  cases heq
  exact ⟨rfl, hle⟩

section Loops
variable {sh : Shared} {inp : Input} {slowHash : QByteArray → QByteArray} {share : ShareEvent}

/-- A hash below a target is not one for the empty job, whose target is 0. -/
theorem CpuLoop.step_found {l : CpuLoop} {r : Result CpuLoop}
    (h : l.step (cryptonoteSearch slowHash) sh inp = some r) (hact : r.action = .postEvent share) :
    ∃ j ∈ l.view.held share.fee, Found slowHash j share := by
  have haction := step_action h
  rw [hact] at haction
  obtain ⟨j, hj, hid, hcheck⟩ := haction.report
  obtain ⟨hlt, heq⟩ := Option.ite_none_right_eq_some.mp hcheck
  refine ⟨j, reports_held (fun _ => rfl) hj, hid, ?_, ?_, fun hempty => ?_⟩
  · exact (Option.some.inj heq).symm
  · exact Option.some.inj heq ▸ Nat.le_of_lt hlt
  · have htarget : (j.setNonce share.nonce).target = [] := hempty.2.1
    rw [htarget] at hlt
    exact absurd hlt (Nat.not_lt_zero _)

/-- The loop holds a job of the pool where it is mining, and wherever it does not look at the state
before it searches. -/
def CryptonoteCuda.Live (l : CryptonoteCuda) (m_state : MinerThreadState) : Prop :=
  match l.pc with
  | .returned => True
  | .switch => m_state = .Mining → l.job.job_id ≠ []
  | .copyJob => m_state ≠ .Mining
  | .feeLoop feeJob | .feeWait feeJob | .feeReserve feeJob | .feeDone feeJob
  | .feeDevice feeJob | .feeSearch feeJob => l.job.job_id ≠ [] ∧ feeJob.job_id ≠ []
  | _ => l.job.job_id ≠ []

theorem CryptonoteCuda.Live.mono {l : CryptonoteCuda} {m m' : MinerThreadState} (h : l.Live m)
    (hm : m' = m ∨ m' ≠ .Mining) : l.Live m' := by
  rcases hm with rfl | hm
  · exact h
  · obtain ⟨pc, job⟩ := l
    cases pc with
    | switch => exact fun hmining => absurd hmining hm
    | copyJob => exact hm
    | _ => exact h

theorem CryptonoteCuda.step_live {l : CryptonoteCuda} {r : Result CryptonoteCuda}
    (hl : l.Live sh.m_state) (h : l.step slowHash sh inp = some r) : r.loop.Live r.m_state := by
  cases step_cases h with
  | goes hgoes =>
    cases hgoes with
    | update hm =>
      show sh.m_state ≠ .Mining
      rw [hm]
      exact MinerThreadState.noConfusion
    | mine hm => exact hl hm
    | stop | copyFails => trivial
    | feeJob hid => exact ⟨hl, hid⟩
    | noFeeJob | firstEnds | copyAgain | copiedEnds | next => exact fun _ => hl
    | feeEnds | feeCopyFails | feeMissed => exact fun _ => hl.1
    | _ => exact hl
  | noJob job hid => exact fun hm => absurd hm hl
  | copyJob job hid => exact hid
  | setMining job => exact fun _ => hl
  | feeFound feeJob job hcheck => exact fun _ => hl.1
  | _ => exact hl

theorem CryptonoteCuda.step_found {l : CryptonoteCuda} {r : Result CryptonoteCuda}
    (hl : l.Live sh.m_state) (h : l.step slowHash sh inp = some r)
    (hact : r.action = .postEvent share) : ∃ j ∈ l.view.held share.fee, Found slowHash j share := by
  have haction := step_action h
  rw [hact] at haction
  obtain ⟨j, hj, hid, hcheck⟩ := haction.report
  obtain ⟨heq, hle⟩ := checkCryptonote_eq_some hcheck
  have hne : j.job_id ≠ [] := by
    obtain ⟨pc, job⟩ := l
    cases pc with
    | search =>
      obtain ⟨-, hj⟩ := Option.ite_none_left_eq_some.mp hj
      cases hj
      exact hl
    | feeSearch feeJob =>
      obtain ⟨-, hj⟩ := Option.ite_none_right_eq_some.mp hj
      cases hj
      exact hl.2
    | _ => cases hj
  exact ⟨j, reports_held hj, hid, heq, hle, fun hempty => hne hempty.1⟩

/-- From `setKernelArgs` on the loop holds a job of a known kind, and later one with a blob. -/
def CryptonoteOcl.Live (l : CryptonoteOcl) : Prop :=
  match l.pc with
  | .setKernelArgs => l.lastJobKind ≠ .KindUnknown
  | .findShares | .findLoop | .findWait | .findReserve | .kernels | .checkStop | .report =>
    l.lastJobKind ≠ .KindUnknown ∧ l.job.blob ≠ []
  | _ => True

theorem CryptonoteOcl.step_live {l : CryptonoteOcl} {r : Result CryptonoteOcl}
    (hl : l.Live) (h : l.step slowHash sh inp = some r) : r.loop.Live := by
  cases step_cases h with
  | goes hgoes =>
    cases hgoes with
    | cached hkind => exact hkind
    | setKernelArgs hblob => exact ⟨hl, hblob⟩
    | findShares | findLoop | findValid | findWait | kernels | report | missed => exact hl
    | _ => trivial
  | copyFeeJob job kind | copyJob job kind => exact JobKind.noConfusion
  | unreserved | findReserve | found => exact hl
  | _ => trivial

theorem CryptonoteOcl.step_found {l : CryptonoteOcl} {r : Result CryptonoteOcl}
    (hl : l.Live) (h : l.step slowHash sh inp = some r) (hact : r.action = .postEvent share) :
    ∃ j ∈ l.view.held share.fee, Found slowHash j share := by
  have haction := step_action h
  rw [hact] at haction
  obtain ⟨j, hj, hid, hcheck⟩ := haction.report
  obtain ⟨heq, hle⟩ := checkCryptonote_eq_some hcheck
  obtain ⟨pc, job, kind⟩ := l
  cases pc with
  | report =>
    obtain ⟨hfee, hj⟩ := Option.ite_none_right_eq_some.mp hj
    cases hj
    refine ⟨job, ?_, hid, heq, hle, fun hempty => hl.2 (hempty.blob_nil.mpr rfl)⟩
    rw [← hfee]
    cases kind with
    | KindUnknown => exact absurd rfl hl.1
    | KindNormal | KindFee => rfl
  | _ => cases hj

def GpuMiner.Live (m_state : MinerThreadState) : GpuMiner → Prop
  | cryptonoteCuda l => l.Live m_state
  | cryptonoteOcl l => l.Live
  | _ => False

def GpuLoop.Live (m_state : MinerThreadState) (l : GpuLoop) : Prop :=
  l.m_gpuMiner.start.Live .UpdateJob ∧ (l.pc = .run → l.m_gpuMiner.Live m_state)

theorem GpuMiner.step_live {hashing : Hashing} {m : GpuMiner} {r : Result GpuMiner}
    (hm : m.Live sh.m_state) (h : m.step hashing sh inp = some r) : r.loop.Live r.m_state := by
  cases m with
  | cryptonoteCuda l =>
    obtain ⟨q, hq, rfl⟩ := Option.map_eq_some_iff.mp h
    exact CryptonoteCuda.step_live hm hq
  | cryptonoteOcl l =>
    obtain ⟨q, hq, rfl⟩ := Option.map_eq_some_iff.mp h
    exact CryptonoteOcl.step_live hm hq
  | ethCuda l | ethOcl l => exact hm.elim

theorem GpuMiner.step_found {hashing : Hashing} {m : GpuMiner} {r : Result GpuMiner}
    (hm : m.Live sh.m_state) (h : m.step hashing sh inp = some r)
    (hact : r.action = .postEvent share) :
    ∃ j ∈ m.view.held share.fee, Found hashing.slowHash j share := by
  cases m with
  | cryptonoteCuda l =>
    obtain ⟨q, hq, rfl⟩ := Option.map_eq_some_iff.mp h
    exact CryptonoteCuda.step_found hm hq hact
  | cryptonoteOcl l =>
    obtain ⟨q, hq, rfl⟩ := Option.map_eq_some_iff.mp h
    exact CryptonoteOcl.step_found hm hq hact
  | ethCuda l | ethOcl l => exact hm.elim

theorem GpuMiner.start_live {m : GpuMiner} {m_state : MinerThreadState} (h : m.Live m_state) :
    m.start.Live .UpdateJob := by
  cases m with
  | cryptonoteCuda l => exact MinerThreadState.noConfusion
  | cryptonoteOcl l => trivial
  | ethCuda l | ethOcl l => exact h.elim

theorem GpuMiner.Live.mono {m : GpuMiner} {a b : MinerThreadState} (h : m.Live a)
    (hab : b = a ∨ b ≠ .Mining) : m.Live b := by
  cases m with
  | cryptonoteCuda l => exact CryptonoteCuda.Live.mono h hab
  | _ => exact h

theorem GpuLoop.step_live {hashing : Hashing} {l : GpuLoop} {r : Result GpuLoop}
    (hl : l.Live sh.m_state) (h : l.step hashing sh inp = some r) : r.loop.Live r.m_state := by
  rcases step_cases h with ⟨hrun, q, hq, rfl⟩ | ⟨-, rfl⟩ | ⟨pc, hpc, rfl | rfl⟩
  · have hlive := GpuMiner.step_live (hl.2 hrun) hq
    exact ⟨GpuMiner.start_live hlive, fun _ => hlive⟩
  · exact ⟨GpuMiner.start_live hl.1, fun _ => hl.1⟩
  · exact ⟨hl.1, fun hrun => absurd hrun hpc⟩
  · exact ⟨hl.1, fun hrun => absurd hrun hpc⟩

theorem GpuLoop.step_found {hashing : Hashing} {l : GpuLoop} {r : Result GpuLoop}
    (hl : l.Live sh.m_state) (h : l.step hashing sh inp = some r)
    (hact : r.action = .postEvent share) :
    ∃ j ∈ l.view.held share.fee, Found hashing.slowHash j share := by
  rcases step_cases h with ⟨hrun, q, hq, rfl⟩ | ⟨-, rfl⟩ | ⟨pc, -, rfl | rfl⟩
  · rw [view, if_pos hrun]
    exact GpuMiner.step_found (hl.2 hrun) hq hact
  · cases hact
  · cases hact
  · cases hact

def Loop.Live (m_state : MinerThreadState) : Loop → Prop
  | cpu _ => True
  | gpu l => l.Live m_state

theorem Loop.Live.mono {l : Loop} {a b : MinerThreadState} (h : l.Live a)
    (hab : b = a ∨ b ≠ .Mining) : l.Live b := by
  cases l with
  | cpu l => trivial
  | gpu l => exact ⟨h.1, fun hpc => (h.2 hpc).mono hab⟩

theorem Loop.step_live {l : Loop} {backend : Backend} {sh : Shared} {inp : Input} {r : Result Loop}
    (hl : l.Live sh.m_state) (h : l.step backend sh inp = some r) : r.loop.Live r.m_state := by
  cases l with
  | cpu l =>
    obtain ⟨q, -, rfl⟩ := Option.map_eq_some_iff.mp h
    trivial
  | gpu l =>
    obtain ⟨q, hq, rfl⟩ := Option.map_eq_some_iff.mp h
    exact GpuLoop.step_live hl hq

theorem Loop.enter_live {l m : Loop} {m_state : MinerThreadState} (hl : l.Live m_state)
    (h : l.enter = some m) : m.Live m_state := by
  cases l with
  | cpu l =>
    obtain ⟨-, h⟩ := Option.ite_none_right_eq_some.mp h
    cases h
    trivial
  | gpu l =>
    obtain ⟨-, h⟩ := Option.ite_none_right_eq_some.mp h
    cases h
    exact ⟨hl.1, GpuPc.noConfusion⟩

end Loops

namespace CryptonoteMinerImpl

open AbstractMinerImpl
open Pool (Client)

/-- Which library the GPUs of the miner are driven with. -/
inductive ImplType where
  | CUDA
  | OpenCL
deriving DecidableEq, Repr

def ImplType.gpuMiner : ImplType → GpuMiner
  | CUDA => .cryptonoteCuda .new
  | OpenCL => .cryptonoteOcl .new

structure Coin where
  cpus : Nat
  gpus : Nat
  gpuMiners : Nat → ImplType
  m_fee : Bool
  m_lite : Bool
  slowHash : QByteArray → QByteArray
  slowHashLite : QByteArray → QByteArray

namespace Coin
variable (coin : Coin)

def cpuHash : QByteArray → QByteArray := if coin.m_lite then coin.slowHashLite else coin.slowHash

/-- The hash function of a worker; the devices have the one variant only. -/
def hash : WorkerId → QByteArray → QByteArray
  | .cpu _ => coin.cpuHash
  | .gpu _ => coin.slowHash

def config : MinerConfig where
  cpus := coin.cpus
  gpus := coin.gpus
  backend := ⟨coin.m_fee, cryptonoteSearch coin.cpuHash,
    ⟨coin.slowHash, coin.slowHashLite, fun _ _ => none, fun _ _ => none⟩⟩
  m_startNonceIsRandom := false

def new : AbstractMinerImpl := AbstractMinerImpl.new fun i => (coin.gpuMiners i).gpuMiner

end Coin

/-- The client of the pool is `clients false`, that of the pool for the fee `clients true`. -/
def onShareEvent (s : AbstractMinerImpl) (clients : Bool → Client) (event : ShareEvent) :
    Bool → Client :=
  if event.fee = false ∧ event.job_id = s.m_currentJob.job_id then
    Function.update clients false (Pool.StratumClient.submitShare (clients false) event.job_id
      (event.nonce % quint32Modulus) event.hash)
  else if event.fee = true ∧ event.job_id = s.m_feeJob.job_id then
    Function.update clients true (Pool.StratumClient.submitShare (clients true) event.job_id
      (event.nonce % quint32Modulus) event.hash)
  else clients

theorem onShareEvent_cases (s : AbstractMinerImpl) (clients : Bool → Client) (event : ShareEvent)
    (fee : Bool) : onShareEvent s clients event fee = clients fee ∨
      event.fee = fee ∧ event.job_id = (s.implJob event.fee).job_id ∧
        onShareEvent s clients event fee = Pool.StratumClient.submitShare (clients fee) event.job_id
          (event.nonce % quint32Modulus) event.hash := by
  unfold onShareEvent
  split
  case isTrue h =>
    obtain ⟨hfee, hid⟩ := h
    cases fee with
    | false => exact Or.inr ⟨hfee, by rw [hfee]; exact hid, Function.update_self ..⟩
    | true => exact Or.inl (Function.update_of_ne (by decide) ..)
  case isFalse =>
    split
    case isTrue h =>
      obtain ⟨hfee, hid⟩ := h
      cases fee with
      | false => exact Or.inl (Function.update_of_ne (by decide) ..)
      | true => exact Or.inr ⟨hfee, by rw [hfee]; exact hid, Function.update_self ..⟩
    case isFalse => exact Or.inl rfl

/-- The jobs that came from the two pools, newest first, and the workers that posted the share
events still in the queue. -/
structure Log where
  delivered : Bool → List MiningJob
  producers : List WorkerId

def Log.new : Log := ⟨fun _ => [], []⟩

def Log.deliver (g : Log) (fee : Bool) (job : MiningJob) : Log :=
  { g with delivered := Function.update g.delivered fee (job :: g.delivered fee) }

/-- What a step of a loop posts. -/
def shareFound (cfg : MinerConfig) (s : AbstractMinerImpl) (id : WorkerId) (inp : Input) :
    List ShareEvent :=
  match (s.loop id).step cfg.backend (s.shared cfg id) inp with
  | some r => r.action.shares
  | none => []

def noteShares (cfg : MinerConfig) (s : AbstractMinerImpl) (e : Event) (g : Log) : Log :=
  match e with
  | .main =>
    match s.pendingJob with
    | some (fee, job) => g.deliver fee job
    | none => g
  | .loop id inp =>
    { g with producers := g.producers ++ (shareFound cfg s id inp).map fun _ => id }
  | .share => { g with producers := g.producers.tail }
  | _ => g

/-- A job that came from the pool, or the empty one. -/
def Known (g : Log) (fee : Bool) (job : MiningJob) : Prop :=
  job = .empty ∨ job ∈ g.delivered fee

/-- The event holds a hash of the worker for a job that came from the pool it is for. -/
def Earned (coin : Coin) (g : Log) (id : WorkerId) (event : ShareEvent) : Prop :=
  ∃ job ∈ g.delivered event.fee, Found (coin.hash id) job event

structure Inv (coin : Coin) (s : AbstractMinerImpl) (g : Log) : Prop where
  implJob : ∀ fee, Known g fee (s.implJob fee)
  worker : ∀ id fee, Known g fee ((s.threads id).worker.job fee)
  held : ∀ id fee, ∀ j ∈ (s.loop id).view.held fee, ∃ k, Known g fee k ∧ j.Agrees k
  live : ∀ id, (s.loop id).Live (s.getState id)

section Steps
variable {coin : Coin} {s t : AbstractMinerImpl} {g : Log}

theorem new_inv (coin : Coin) : Inv coin coin.new .new := by
  refine ⟨fun fee => Or.inl ?_, fun _ fee => Or.inl ?_, fun id fee j hj => ?_, fun id => ?_⟩
  · cases fee <;> rfl
  · cases fee <;> rfl
  · cases id with
    | cpu i =>
      cases fee with
      | false =>
        cases hj
        exact ⟨.empty, Or.inl rfl, .refl _⟩
      | true => cases hj
    | gpu i => cases fee <;> cases hj
  · cases id with
    | cpu i => trivial
    | gpu i =>
      refine ⟨?_, GpuPc.noConfusion⟩
      show ((coin.gpuMiners i).gpuMiner.start).Live .UpdateJob
      cases coin.gpuMiners i with
      | CUDA => exact MinerThreadState.noConfusion
      | OpenCL => trivial

theorem Inv.frame (hs : Inv coin s g)
    (hheld : ∀ id fee, (t.loop id).view.held fee = (s.loop id).view.held fee)
    (hlive : ∀ id, (t.loop id).Live (t.getState id))
    (himpl : ∀ fee, t.implJob fee = s.implJob fee ∨ t.implJob fee = .empty)
    (hworker : ∀ id fee, (t.threads id).worker.job fee = (s.threads id).worker.job fee ∨
      (t.threads id).worker.job fee = s.implJob fee) : Inv coin t g where
  implJob fee := by
    rcases himpl fee with h | h
    · rw [h]
      exact hs.implJob fee
    · exact Or.inl h
  worker id fee := by
    rcases hworker id fee with h | h
    · rw [h]
      exact hs.worker id fee
    · rw [h]
      exact hs.implJob fee
  held id fee j hj := hs.held id fee j (hheld id fee ▸ hj)
  live := hlive

theorem Log.mem_deliver {fee b : Bool} {j job : MiningJob} :
    j ∈ (g.deliver fee job).delivered b ↔ b = fee ∧ j = job ∨ j ∈ g.delivered b := by
  by_cases hb : b = fee
  · subst hb
    simp [Log.deliver]
  · simp [Log.deliver, hb]

theorem Known.deliver {b : Bool} {j : MiningJob} (h : Known g b j) (fee : Bool) (job : MiningJob) :
    Known (g.deliver fee job) b j :=
  h.imp_right fun hj => Log.mem_deliver.mpr (Or.inr hj)

theorem Inv.deliver {fee : Bool} {job : MiningJob} (hs : Inv coin s g)
    (hjob : t.implJob fee = job) (hother : t.implJob (!fee) = s.implJob (!fee))
    (hloops : t.cpuLoops = s.cpuLoops ∧ t.gpuLoops = s.gpuLoops)
    (hthreads : t.threads = s.threads) : Inv coin t (g.deliver fee job) := by
  have hloop : ∀ id, t.loop id = s.loop id := by
    intro id
    cases id <;> simp [loop, hloops]
  refine ⟨fun b => ?_, fun id b => ?_, fun id b j hj => ?_, fun id => ?_⟩
  · by_cases hb : b = fee
    · subst hb
      rw [hjob]
      exact Or.inr (Log.mem_deliver.mpr (Or.inl ⟨rfl, rfl⟩))
    · rw [Bool.eq_not.mpr hb, hother]
      exact (hs.implJob _).deliver fee job
  · rw [hthreads]
    exact (hs.worker id b).deliver fee job
  · obtain ⟨k, hk, hjk⟩ := hs.held id b j (hloop id ▸ hj)
    exact ⟨k, hk.deliver fee job, hjk⟩
  · rw [hloop, getState, hthreads]
    exact hs.live id

theorem MainStep.inv (hs : Inv coin s g) (h : MainStep s t) : Inv coin t g := by
  have hloop : ∀ id, t.loop id = s.loop id := by
    intro id
    cases id <;> simp [loop, h.loops]
  refine hs.frame (fun id fee => by rw [hloop]) (fun id => ?_) h.implJob h.worker
  rw [hloop]
  exact (hs.live id).mono (h.state id)

theorem runMain_inv (hs : Inv coin s g) (ht : s.runMain coin.config = some t) :
    Inv coin t (noteShares coin.config s .main g) := by
  have hcases := runMain_cases ht
  simp only [noteShares]
  split
  case h_1 fee job hpending =>
    rw [hpending] at hcases
    cases fee with
    | false =>
      subst hcases
      exact hs.deliver rfl rfl ⟨rfl, rfl⟩ rfl
    | true =>
      subst hcases
      exact hs.deliver rfl rfl ⟨rfl, rfl⟩ rfl
  case h_2 hpending =>
    rw [hpending] at hcases
    exact MainStep.inv hs hcases

theorem Loop.step_found {id : WorkerId} {sh : Shared} {inp : Input} {r : Result Loop}
    {event : ShareEvent} (hl : (s.loop id).Live sh.m_state)
    (h : (s.loop id).step coin.config.backend sh inp = some r)
    (hact : r.action = .postEvent event) :
    ∃ j ∈ (s.loop id).view.held event.fee, Found (coin.hash id) j event := by
  cases id with
  | cpu i =>
    obtain ⟨q, hq, rfl⟩ := Option.map_eq_some_iff.mp h
    exact CpuLoop.step_found hq hact
  | gpu i =>
    obtain ⟨q, hq, rfl⟩ := Option.map_eq_some_iff.mp h
    exact GpuLoop.step_found hl hq hact

/-- What a loop posts is a hash for a job that came from the pool. -/
theorem shareFound_earned {id : WorkerId} {inp : Input} {event : ShareEvent} (hs : Inv coin s g)
    (hevent : event ∈ shareFound coin.config s id inp) : Earned coin g id event := by
  rw [shareFound] at hevent
  split at hevent
  case h_1 r hr =>
    cases hact : r.action with
    | postEvent share =>
      rw [hact] at hevent
      cases List.mem_singleton.mp hevent
      obtain ⟨j, hj, hfound⟩ := Loop.step_found (hs.live id) hr hact
      obtain ⟨k, hk, hjk⟩ := hs.held id event.fee j hj
      rcases hk with rfl | hk
      · exact absurd hjk hfound.nonempty
      · exact ⟨k, hk, hfound.of_agrees hjk⟩
    | none | reserve fee amount | unreserved fee amount finishNonce =>
      rw [hact] at hevent
      cases hevent
  case h_2 => cases hevent

theorem runLoop_inv {id : WorkerId} {inp : Input} (hs : Inv coin s g)
    (ht : s.runLoop coin.config inp id = some t) :
    Inv coin t (noteShares coin.config s (.loop id inp) g) := by
  obtain ⟨r, hr, hstep⟩ := runLoop_cases ht
  have hspec := Loop.step_spec hr
  have hothers : ∀ j, j ≠ id → t.threads j = s.threads j := by
    intro j hj
    rw [hstep.threads, setState, updateThread_of_ne hj]
  have hself : t.threads id = (s.threads id).setState r.m_state := by
    rw [hstep.threads, setState, updateThread_self]
  refine ⟨fun fee => ?_, fun j fee => ?_, fun j fee i hi => ?_, fun j => ?_⟩
  · have himpl : t.implJob fee = s.implJob fee := by
      rw [AbstractMinerImpl.implJob, AbstractMinerImpl.implJob, hstep.jobs.1, hstep.jobs.2]
    rw [himpl]
    exact hs.implJob fee
  · by_cases hj : j = id
    · subst hj
      rw [hself]
      exact hs.worker j fee
    · rw [hothers j hj]
      exact hs.worker j fee
  · by_cases hj : j = id
    · subst hj
      rw [hstep.loop] at hi
      rcases hspec.held fee i hi with h | ⟨k, hk, hik⟩ | ⟨rfl, -⟩
      · exact ⟨_, hs.worker j fee, h⟩
      · obtain ⟨k', hk', hkk'⟩ := hs.held j fee k hk
        exact ⟨k', hk', hik.trans hkk'⟩
      · exact ⟨.empty, Or.inl rfl, .refl _⟩
    · rw [hstep.others j hj] at hi
      exact hs.held j fee i hi
  · by_cases hj : j = id
    · subst hj
      rw [hstep.loop, getState, hself]
      exact Loop.step_live (hs.live j) hr
    · rw [hstep.others j hj, getState, hothers j hj]
      exact hs.live j

theorem Inv.enter (hs : Inv coin s g)
    (hloop : ∀ id, t.loop id = s.loop id ∨ (s.loop id).enter = some (t.loop id))
    (hworker : ∀ id, (t.threads id).worker = (s.threads id).worker)
    (hjobs : t.m_currentJob = s.m_currentJob ∧ t.m_feeJob = s.m_feeJob) : Inv coin t g := by
  refine hs.frame (fun id fee => ?_) (fun id => ?_) (fun fee => Or.inl ?_) (fun id fee => ?_)
  · rcases hloop id with h | h
    · rw [h]
    · exact Loop.enter_held h fee
  · rw [getState, hworker]
    have hlive := hs.live id
    rcases hloop id with h | h
    · rw [h]
      exact hlive
    · exact Loop.enter_live hlive h
  · rw [AbstractMinerImpl.implJob, hjobs.1, hjobs.2]
    rfl
  · rw [hworker]
    exact Or.inl rfl

theorem step_inv {e : Event} (hs : Inv coin s g) (ht : s.step coin.config e = some t) :
    Inv coin t (noteShares coin.config s e g) := by
  cases e with
  | main => exact runMain_inv hs ht
  | loop id inp => exact runLoop_inv hs ht
  | call c =>
    obtain ⟨-, ht⟩ := Option.ite_none_right_eq_some.mp ht
    cases ht
    exact ⟨hs.implJob, hs.worker, hs.held, hs.live⟩
  | exitThread id =>
    obtain ⟨-, ht⟩ := Option.ite_none_right_eq_some.mp ht
    cases ht
    refine hs.enter (fun j => Or.inl (by cases j <;> rfl)) (fun j => ?_) ⟨rfl, rfl⟩
    by_cases hj : j = id
    · subst hj
      rw [updateThread_self]
    · rw [updateThread_of_ne hj]
  | deliverStart id =>
    obtain ⟨hloop, hworker, hjobs, -⟩ := deliverStart_cases ht
    exact hs.enter hloop hworker hjobs
  | share =>
    obtain ⟨-, ht⟩ := Option.ite_none_right_eq_some.mp ht
    cases ht
    exact ⟨hs.implJob, hs.worker, hs.held, hs.live⟩

/-- A step leaves the queue as it is, takes its first event off, or puts new shares at its end. -/
theorem step_shares {e : Event} (ht : s.step coin.config e = some t) :
    t.shares = match e with
      | .loop id inp => s.shares ++ shareFound coin.config s id inp
      | .share => s.shares.tail
      | _ => s.shares := by
  cases e with
  | main =>
    have hcases := runMain_cases ht
    split at hcases
    case h_1 | h_2 =>
      subst hcases
      rfl
    case h_3 => exact hcases.shares
  | loop id inp =>
    obtain ⟨r, hr, hstep⟩ := runLoop_cases ht
    simp only [shareFound, hr]
    exact hstep.shares
  | call c | exitThread id | share =>
    obtain ⟨-, ht⟩ := Option.ite_none_right_eq_some.mp ht
    cases ht
    rfl
  | deliverStart id =>
    obtain ⟨-, -, -, hshares⟩ := deliverStart_cases ht
    exact hshares

/-- Whatever holds of the events in the queue and of every new share holds after a step, too. -/
theorem step_producers {e : Event} {P : WorkerId → ShareEvent → Prop}
    (hnew : ∀ id event, Earned coin g id event → P id event) (hs : Inv coin s g)
    (ht : s.step coin.config e = some t) (hqueue : List.Forall₂ P g.producers s.shares) :
    List.Forall₂ P (noteShares coin.config s e g).producers t.shares := by
  rw [step_shares ht]
  cases e with
  | main =>
    simp only [noteShares]
    split <;> exact hqueue
  | loop id inp =>
    refine List.rel_append hqueue (List.forall₂_map_left_iff.mpr (List.forall₂_same.mpr ?_))
    exact fun event hevent => hnew id event (shareFound_earned hs hevent)
  | share =>
    rw [noteShares, ← List.drop_one, ← List.drop_one]
    exact List.forall₂_drop 1 hqueue
  | _ => exact hqueue

theorem subset_noteShares (cfg : MinerConfig) (s : AbstractMinerImpl) (e : Event) (g : Log)
    (fee : Bool) : g.delivered fee ⊆ (noteShares cfg s e g).delivered fee := by
  cases e with
  | main =>
    simp only [noteShares]
    split
    · exact fun _ hj => Log.mem_deliver.mpr (Or.inr hj)
    · exact List.Subset.refl _
  | _ => exact List.Subset.refl _

end Steps

/-- The coins that share the GPU miners: the GPU manager has one for each device. -/
structure Coins (κ : Type) where
  cpus : Nat
  gpus : κ → Nat
  gpuMiners : Nat → ImplType
  m_fee : κ → Bool
  m_lite : κ → Bool
  slowHash : QByteArray → QByteArray
  slowHashLite : QByteArray → QByteArray

def Coins.coin {κ : Type} (coins : Coins κ) (k : κ) : Coin :=
  ⟨coins.cpus, coins.gpus k, coins.gpuMiners, coins.m_fee k, coins.m_lite k, coins.slowHash,
    coins.slowHashLite⟩

/-- The miners of the coins. A share that the GPU miner of a device finds for one coin is sent to
the GPU workers of all: `found` holds those that wait for the thread of another coin's worker,
oldest first. -/
structure Miners (κ : Type) where
  impls : κ → AbstractMinerImpl
  found : κ → Nat → List ShareEvent

inductive CoinEvent (κ : Type) where
  | miner (k : κ) (event : Event)
  | shareFound (k : κ) (i : Nat)
deriving DecidableEq, Repr

namespace Coins
variable {κ : Type} (coins : Coins κ)

def new : Miners κ := ⟨fun k => (coins.coin k).new, fun _ _ => []⟩

/-- What a step of the coin `k` sends to the other coins' workers for the device `i`. -/
def sent (m : Miners κ) (k : κ) (event : Event) (i : Nat) : List ShareEvent :=
  match event with
  | .loop id inp =>
    if id = .gpu i then CryptonoteMinerImpl.shareFound (coins.coin k).config (m.impls k) id inp
    else []
  | _ => []

/-- The thread of the GPU worker is in its event loop, or `startMining` runs the queued events. -/
def takesEvents (s : AbstractMinerImpl) (i : Nat) : Bool :=
  !(s.threads (.gpu i)).isFinished && ((s.gpuLoops i).pc = .idle || (s.gpuLoops i).pc = .drain)

/-- The event holds a hash of a worker of the coin for a job that came from a pool of any coin. -/
def Earned (g : κ → Log) (k : κ) (id : WorkerId) (event : ShareEvent) : Prop :=
  ∃ l, CryptonoteMinerImpl.Earned (coins.coin k) (g l) id event

structure Inv (m : Miners κ) (g : κ → Log) : Prop where
  impls : ∀ k, CryptonoteMinerImpl.Inv (coins.coin k) (m.impls k) (g k)
  shares : ∀ k, List.Forall₂ (coins.Earned g k) (g k).producers (m.impls k).shares
  found : ∀ k i, ∀ event ∈ m.found k i, coins.Earned g k (.gpu i) event

theorem new_inv : coins.Inv coins.new fun _ => .new :=
  ⟨fun k => CryptonoteMinerImpl.new_inv (coins.coin k), fun _ => .nil, fun _ _ _ h => nomatch h⟩

variable {coins}

theorem Earned.mono {g g' : κ → Log} {k : κ} {id : WorkerId} {event : ShareEvent}
    (h : coins.Earned g k id event) (hg : ∀ l fee, (g l).delivered fee ⊆ (g' l).delivered fee) :
    coins.Earned g' k id event := by
  obtain ⟨l, job, hjob, hfound⟩ := h
  exact ⟨l, job, hg l event.fee hjob, hfound⟩

/-- The devices have one hash function, whichever coin they work for. -/
theorem sent_earned {m : Miners κ} {g : Log} {k l : κ} {e : Event} {i : Nat} {event : ShareEvent}
    (hs : CryptonoteMinerImpl.Inv (coins.coin k) (m.impls k) g)
    (h : event ∈ coins.sent m k e i) :
    CryptonoteMinerImpl.Earned (coins.coin l) g (.gpu i) event := by
  cases e with
  | loop id inp =>
    rw [sent] at h
    split at h
    case isTrue hid =>
      subst hid
      have hearned : CryptonoteMinerImpl.Earned (coins.coin k) g (.gpu i) event :=
        shareFound_earned hs h
      exact hearned
    case isFalse => cases h
  | _ => cases h

variable [DecidableEq κ] (coins)

def step (m : Miners κ) : CoinEvent κ → Option (Miners κ)
  | .miner k event =>
    ((m.impls k).step (coins.coin k).config event).map fun s =>
      ⟨Function.update m.impls k s,
        fun l i => m.found l i ++ if l = k then [] else coins.sent m k event i⟩
  | .shareFound k i =>
    match m.found k i with
    | [] => none
    | share :: rest =>
      if i < coins.gpus k ∧ takesEvents (m.impls k) i then
        some ⟨Function.update m.impls k
            { m.impls k with shares := (m.impls k).shares ++ [share] },
          Function.update m.found k (Function.update (m.found k) i rest)⟩
      else none

def noteCoin (m : Miners κ) (e : CoinEvent κ) (g : κ → Log) : κ → Log :=
  match e with
  | .miner k event =>
    Function.update g k (noteShares (coins.coin k).config (m.impls k) event (g k))
  | .shareFound k i =>
    Function.update g k { g k with producers := (g k).producers ++ [.gpu i] }

variable {coins} {m n : Miners κ} {g : κ → Log}

theorem subset_noteCoin (m : Miners κ) (e : CoinEvent κ) (g : κ → Log) (l : κ) (fee : Bool) :
    (g l).delivered fee ⊆ (coins.noteCoin m e g l).delivered fee := by
  cases e with
  | miner k event =>
    by_cases hl : l = k
    · subst hl
      rw [noteCoin, Function.update_self]
      exact subset_noteShares ..
    · rw [noteCoin, Function.update_of_ne hl]
      exact List.Subset.refl _
  | shareFound k i =>
    by_cases hl : l = k
    · subst hl
      rw [noteCoin, Function.update_self]
      exact List.Subset.refl _
    · rw [noteCoin, Function.update_of_ne hl]
      exact List.Subset.refl _

theorem Inv.miner {k : κ} {event : Event} (hm : coins.Inv m g)
    (hn : coins.step m (.miner k event) = some n) :
    coins.Inv n (coins.noteCoin m (.miner k event) g) := by
  obtain ⟨t, ht, rfl⟩ := Option.map_eq_some_iff.mp hn
  have hmono : ∀ l fee,
      (g l).delivered fee ⊆ (coins.noteCoin m (.miner k event) g l).delivered fee :=
    subset_noteCoin m _ g
  refine ⟨fun l => ?_, fun l => ?_, fun l i share hshare => ?_⟩
  · by_cases hl : l = k
    · subst hl
      simp only [noteCoin, Function.update_self]
      exact step_inv (hm.impls l) ht
    · simp only [noteCoin, Function.update_of_ne hl]
      exact hm.impls l
  · have hqueue := (hm.shares l).imp fun _ _ h => h.mono hmono
    by_cases hl : l = k
    · subst hl
      simp only [noteCoin, Function.update_self] at hqueue ⊢
      refine step_producers (fun id share h => ?_) (hm.impls l) ht hqueue
      exact Earned.mono ⟨l, h⟩ hmono
    · simp only [noteCoin, Function.update_of_ne hl] at hqueue ⊢
      exact hqueue
  · rcases List.mem_append.mp hshare with hshare | hshare
    · exact (hm.found l i share hshare).mono hmono
    · split at hshare
      case isTrue => cases hshare
      case isFalse => exact Earned.mono ⟨k, sent_earned (hm.impls k) hshare⟩ hmono

theorem Inv.shareFound {k : κ} {i : Nat} (hm : coins.Inv m g)
    (hn : coins.step m (.shareFound k i) = some n) :
    coins.Inv n (coins.noteCoin m (.shareFound k i) g) := by
  rw [step] at hn
  split at hn
  case h_1 => cases hn
  case h_2 share rest hfound =>
    obtain ⟨-, hn⟩ := Option.ite_none_right_eq_some.mp hn
    cases hn
    have hmono : ∀ l fee,
        (g l).delivered fee ⊆ (coins.noteCoin m (.shareFound k i) g l).delivered fee :=
      subset_noteCoin m _ g
    have hk := hm.found k i
    rw [hfound] at hk
    refine ⟨fun l => ?_, fun l => ?_, fun l j event hevent => ?_⟩
    · have hl := hm.impls l
      by_cases hlk : l = k
      · subst hlk
        simp only [noteCoin, Function.update_self]
        exact ⟨hl.implJob, hl.worker, hl.held, hl.live⟩
      · simp only [noteCoin, Function.update_of_ne hlk]
        exact hl
    · have hqueue := (hm.shares l).imp fun _ _ h => h.mono hmono
      by_cases hlk : l = k
      · subst hlk
        simp only [noteCoin, Function.update_self] at hqueue ⊢
        exact List.rel_append hqueue (.cons ((hk share List.mem_cons_self).mono hmono) .nil)
      · simp only [noteCoin, Function.update_of_ne hlk] at hqueue ⊢
        exact hqueue
    · refine Earned.mono ?_ hmono
      by_cases hlk : l = k
      · subst hlk
        by_cases hji : j = i
        · subst hji
          simp only [Function.update_self] at hevent
          exact hk event (List.mem_cons_of_mem _ hevent)
        · simp only [Function.update_self, Function.update_of_ne hji] at hevent
          exact hm.found l j event hevent
      · simp only [Function.update_of_ne hlk] at hevent
        exact hm.found l j event hevent

theorem Inv.step {e : CoinEvent κ} (hm : coins.Inv m g) (hn : coins.step m e = some n) :
    coins.Inv n (coins.noteCoin m e g) := by
  cases e with
  | miner k event => exact hm.miner hn
  | shareFound k i => exact hm.shareFound hn

end Coins

/-- The arguments of a submit request for the job that the miner has now, from the pool or for the
fee: the bytes of the nonce, put into the blob of the job with this id, give the result. -/
def ValidSubmit (coin : Coin) (s : AbstractMinerImpl) (g : Log) (fee : Bool) (session : String)
    (args : Json) : Prop :=
  ∃ nonce result producer,
    args = .obj [("id", .str session), ("job_id", .str (fromUtf8 (s.implJob fee).job_id)),
      ("nonce", .str nonce), ("result", .str result)] ∧
    s.implJob fee ∈ g.delivered fee ∧ g.producers.head? = some producer ∧
    ∀ job ∈ g.delivered fee, job.job_id = (s.implJob fee).job_id →
      ∃ b, fromHex nonce = b ∧ b.length = 4 ∧
        fromHex result = coin.hash producer (job.blob.take 39 ++ b ++ job.blob.drop 43) ∧
        hashWord7 (fromHex result) ≤ arrayToQuint32 job.target

theorem Coins.Earned.validSubmit {κ : Type} {coins : Coins κ} {s : AbstractMinerImpl}
    {g : κ → Log} {k : κ} {event : ShareEvent} {producer : WorkerId}
    (hs : CryptonoteMinerImpl.Inv (coins.coin k) s (g k))
    (hjobs : ∀ l, ∀ j ∈ (g l).delivered event.fee, j = .empty ∨ j.job_id ≠ [] ∧ 43 ≤ j.blob.length)
    (hids : ∀ l, ∀ i ∈ (g k).delivered event.fee, ∀ j ∈ (g l).delivered event.fee,
      i.job_id = j.job_id → i = j)
    (hearned : coins.Earned g k producer event) (hhead : (g k).producers.head? = some producer)
    (hid : event.job_id = (s.implJob event.fee).job_id) (session : String) :
    ValidSubmit (coins.coin k) s (g k) event.fee session
      (Pool.StratumClient.submitParams session event.job_id (event.nonce % quint32Modulus)
        event.hash) := by
  obtain ⟨l, job, hjob, hfound⟩ := hearned
  have hne : job ≠ .empty := by
    rintro rfl
    exact hfound.nonempty (.refl _)
  obtain ⟨hidne, hlen⟩ := (hjobs l job hjob).resolve_left hne
  have hnonce : littleEndian 4 (event.nonce % quint32Modulus) = littleEndian 4 event.nonce :=
    littleEndian_mod 4 event.nonce
  have hcurrent : s.implJob event.fee ∈ (g k).delivered event.fee := by
    rcases hs.implJob event.fee with h | h
    · rw [hfound.job_id, h] at hid
      exact absurd hid hidne
    · exact h
  refine ⟨toHex (littleEndian 4 (event.nonce % quint32Modulus)), toHex event.hash, producer, ?_,
    hcurrent, hhead, fun i hi hiid => ⟨_, fromHex_toHex _, length_littleEndian 4 _, ?_, ?_⟩⟩
  · rw [Pool.StratumClient.submitParams, hid]
  · have hijob : i = job := hids l i hi job hjob (by rw [hiid, ← hid, hfound.job_id])
    subst hijob
    rw [fromHex_toHex, hfound.result, setNonce, if_pos hlen, hnonce]
  · have hijob : i = job := hids l i hi job hjob (by rw [hiid, ← hid, hfound.job_id])
    subst hijob
    rw [fromHex_toHex]
    exact hfound.target

section Runs
variable {κ : Type} [DecidableEq κ] {coins : Coins κ} {es : List (CoinEvent κ)} {m : Miners κ}
  {g : κ → Log}

/-- In every run, the request that a share event leads to is valid, and goes to the pool that the
job is from. The pools of all coins give no id twice and no job without one. -/
theorem submitted_share_valid {k : κ} {event : ShareEvent} {rest : List ShareEvent}
    (hrun : exec (watch coins.step coins.noteCoin) (coins.new, fun _ => .new) es = some (m, g))
    (hjobs : ∀ k fee, ∀ j ∈ (g k).delivered fee, j = .empty ∨ j.job_id ≠ [] ∧ 43 ≤ j.blob.length)
    (hids : ∀ fee k l, ∀ i ∈ (g k).delivered fee, ∀ j ∈ (g l).delivered fee,
      i.job_id = j.job_id → i = j)
    (hshare : (m.impls k).shares = event :: rest) (clients : Bool → Client) (fee : Bool) :
    onShareEvent (m.impls k) clients event fee = clients fee ∨
      ∃ session args, (clients fee).session = some session ∧
        ValidSubmit (coins.coin k) (m.impls k) (g k) fee session args ∧
        onShareEvent (m.impls k) clients event fee = (clients fee).request "submit" args := by
  have hm : coins.Inv m g := by
    refine exec_invariant_of_step (I := fun p => coins.Inv p.1 p.2) ?_ coins.new_inv hrun
    rintro ⟨m, g⟩ e ⟨n, g'⟩ hm hn
    obtain ⟨hstep, rfl⟩ := watch_eq_some.mp hn
    exact hm.step hstep
  have hearned := hm.shares k
  rw [hshare, List.forall₂_cons_right_iff] at hearned
  obtain ⟨producer, producers, hearned, -, hproducers⟩ := hearned
  have hvalid := Coins.Earned.validSubmit (hm.impls k) (fun l => hjobs l _) (hids _ k) hearned
    (by rw [hproducers]; rfl)
  rcases onShareEvent_cases (m.impls k) clients event fee with h | ⟨rfl, hid, h⟩
  · exact Or.inl h
  · rw [h, Pool.StratumClient.submitShare]
    split
    case isTrue => exact Or.inl rfl
    case isFalse hsession =>
      cases hclient : (clients event.fee).session with
      | none =>
        rw [hclient] at hsession
        exact absurd rfl hsession
      | some session => exact Or.inr ⟨session, _, rfl, hvalid hid session, rfl⟩

end Runs

/-- Two coins and one card. -/
def oneCard : Coins Bool where
  cpus := 0
  gpus _ := 1
  gpuMiners _ := .OpenCL
  m_fee _ := false
  m_lite _ := false
  slowHash blob := (blob.drop 39).take 4 ++ List.replicate 28 0
  slowHashLite := id

def blankJob : MiningJob := ⟨[97], List.replicate 43 0, [1, 0, 0, 0]⟩

/-- The first coin mines on the card, and its share reaches both. -/
def firstShare : List (CoinEvent Bool) :=
  let loop := .miner false (.loop (.gpu 0) ⟨false, .ok, 1, some 7, 0⟩)
  .miner false (.call (.startGpu [0])) :: List.replicate 5 (.miner false .main) ++
    .miner false (.deliverStart (.gpu 0)) :: List.replicate 2 loop ++
      .miner false (.call (.updateJob blankJob 0)) :: List.replicate 8 (.miner false .main) ++
        List.replicate 16 loop ++ [.shareFound true 0]

def sharedEvent : ShareEvent := ⟨[97], 7, [7, 0, 0, 0] ++ List.replicate 28 0, false⟩

theorem first_share_submitted :
    ∃ m g event, exec (watch oneCard.step oneCard.noteCoin) (oneCard.new, fun _ => .new)
        firstShare = some (m, g) ∧ (∀ k, (m.impls k).shares = [event]) ∧
      ∀ k clients fee, onShareEvent (m.impls k) clients event fee = clients fee ∨
        ∃ session args, (clients fee).session = some session ∧
          ValidSubmit (oneCard.coin k) (m.impls k) (g k) fee session args ∧
            onShareEvent (m.impls k) clients event fee = (clients fee).request "submit" args := by
  have hmap : (exec (watch oneCard.step oneCard.noteCoin) (oneCard.new, fun _ => .new)
      firstShare).map (fun p => ([(p.1.impls false).shares, (p.1.impls true).shares],
        [(p.2 false).delivered false, (p.2 false).delivered true, (p.2 true).delivered false,
          (p.2 true).delivered true])) =
      some ([[sharedEvent], [sharedEvent]], [[blankJob], [], [], []]) := by decide +kernel
  obtain ⟨⟨m, g⟩, hrun, hp⟩ := Option.map_eq_some_iff.mp hmap
  simp only [Prod.mk.injEq, List.cons.injEq] at hp
  obtain ⟨⟨hfirst, hsecond, -⟩, hmain, hfee, hmain', hfee', -⟩ := hp
  have hdelivered : ∀ k fee, ∀ j ∈ (g k).delivered fee, j = blankJob := by
    intro k fee j hj
    cases k <;> cases fee
    · rw [hmain] at hj
      exact List.mem_singleton.mp hj
    · rw [hfee] at hj
      cases hj
    · rw [hmain'] at hj
      cases hj
    · rw [hfee'] at hj
      cases hj
  have hshares : ∀ k, (m.impls k).shares = [sharedEvent] := by
    intro k
    cases k
    · exact hfirst
    · exact hsecond
  refine ⟨m, g, _, hrun, hshares, fun k => submitted_share_valid hrun ?_ ?_ (hshares k)⟩
  · intro l fee j hj
    rw [hdelivered l fee j hj]
    decide
  · intro fee l l' i hi j hj _
    rw [hdelivered l fee i hi, hdelivered l' fee j hj]

end CryptonoteMinerImpl

end MinerGate
