import MinerGate.Miner.CpuLoop
import MinerGate.Miner.CudaLoops
import MinerGate.Miner.OclLoops

/-!
# GPU workers

`GPUMinerWorker::startMining` around the `start` of one of the four GPU miners, and the
loops of all workers under one name.
-/

namespace MinerGate

set_option autoImplicit false

/-- The `AbstractGPUMiner` of a worker. -/
inductive GpuMiner where
  | cryptonoteCuda (l : CryptonoteCuda)
  | ethCuda (l : EthCuda)
  | cryptonoteOcl (l : CryptonoteOcl)
  | ethOcl (l : EthOcl)
deriving DecidableEq, Repr

namespace GpuMiner

def start : GpuMiner → GpuMiner
  | cryptonoteCuda _ => .cryptonoteCuda .new
  | ethCuda l => .ethCuda (.new l.gridSize l.blockSize)
  | cryptonoteOcl _ => .cryptonoteOcl .new
  | ethOcl _ => .ethOcl .new

def step (hashing : Hashing) (sh : Shared) (inp : Input) : GpuMiner → Option (Result GpuMiner)
  | cryptonoteCuda l => (l.step hashing.slowHash sh inp).map (.map .cryptonoteCuda)
  | ethCuda l => (l.step hashing.ethEval sh inp).map (.map .ethCuda)
  | cryptonoteOcl l => (l.step hashing.slowHash sh inp).map (.map .cryptonoteOcl)
  | ethOcl l => (l.step hashing.ethEval sh inp).map (.map .ethOcl)

def view : GpuMiner → View
  | cryptonoteCuda l => l.view
  | ethCuda l => l.view
  | cryptonoteOcl l => l.view
  | ethOcl l => l.view

def job : GpuMiner → MiningJob
  | cryptonoteCuda l => l.job
  | ethCuda l => l.job
  | cryptonoteOcl l => l.job
  | ethOcl l => l.job

theorem start_held (m : GpuMiner) (fee : Bool) : ∀ j ∈ m.start.view.held fee, j = .empty := by
  intro j hj
  cases m <;> cases fee <;> simp_all [start, view, CryptonoteCuda.new, CryptonoteCuda.feeJob,
    EthCuda.new, CryptonoteOcl.new, EthOcl.new]

theorem step_spec {hashing : Hashing} {sh : Shared} {inp : Input} {m : GpuMiner}
    {r : Result GpuMiner} (h : m.step hashing sh inp = some r) :
    StepSpec sh m.view r.loop.view r.m_state := by
  cases m <;> obtain ⟨s, hs, rfl⟩ := Option.map_eq_some_iff.mp h
  · exact CryptonoteCuda.step_spec hs
  · exact EthCuda.step_spec hs
  · exact CryptonoteOcl.step_spec hs
  · exact EthOcl.step_spec hs

end GpuMiner

/-- Where `startMining` stands; while it `drains` the queue, calls of `startMining` that are
delivered return at once. -/
inductive GpuPc where
  | idle
  | entry
  | setUpdate
  | run
  | drain
  | setExit
deriving DecidableEq, Repr

structure GpuLoop where
  pc : GpuPc
  m_gpuMiner : GpuMiner
deriving DecidableEq, Repr

namespace GpuLoop

def goto (l : GpuLoop) (pc : GpuPc) : GpuLoop := { l with pc := pc }

def step (l : GpuLoop) (hashing : Hashing) (sh : Shared) (inp : Input) : Option (Result GpuLoop) :=
  match l.pc with
  | .idle => none
  | .entry =>
    if sh.m_state = .Stopping then some (.keep sh (l.goto .idle))
    else some (.keep sh (l.goto .setUpdate))
  | .setUpdate => some (.store .UpdateJob ⟨.run, l.m_gpuMiner.start⟩)
  | .run =>
    match l.m_gpuMiner.step hashing sh inp with
    | some r => some (r.map (⟨.run, ·⟩))
    | none =>
      if sh.m_state = .Stopping then some (.keep sh (l.goto .drain))
      else some (.keep sh (l.goto .setExit))
  | .drain => some (.keep sh (l.goto .setExit))
  | .setExit => some (.store .Exit (l.goto .idle))

def view (l : GpuLoop) : View := if l.pc = .run then l.m_gpuMiner.view else .none

theorem view_of_ne {l : GpuLoop} (h : l.pc ≠ .run) (fee : Bool) : l.view.held fee = none := by
  rw [view, if_neg h]
  cases fee <;> rfl

/-- A step of `startMining` is one of the miner's `start`, a new call of it, or leads out of it. -/
theorem step_cases {l : GpuLoop} {hashing : Hashing} {sh : Shared} {inp : Input}
    {r : Result GpuLoop} (h : l.step hashing sh inp = some r) :
    (l.pc = .run ∧ ∃ q, l.m_gpuMiner.step hashing sh inp = some q ∧ r = q.map (⟨.run, ·⟩)) ∨
    (l.pc = .setUpdate ∧ r = .store .UpdateJob ⟨.run, l.m_gpuMiner.start⟩) ∨
    ∃ pc, pc ≠ .run ∧ (r = .keep sh (l.goto pc) ∨ r = .store .Exit (l.goto pc)) := by
  obtain ⟨pc, miner⟩ := l
  cases pc with
  | idle => cases h
  | entry =>
    simp only [step] at h
    split at h
    case isTrue =>
      cases h
      exact Or.inr (Or.inr ⟨.idle, by decide, Or.inl rfl⟩)
    case isFalse =>
      cases h
      exact Or.inr (Or.inr ⟨.setUpdate, by decide, Or.inl rfl⟩)
  | setUpdate =>
    cases h
    exact Or.inr (Or.inl ⟨rfl, rfl⟩)
  | run =>
    simp only [step] at h
    split at h
    case h_1 q hq =>
      cases h
      exact Or.inl ⟨rfl, q, hq, rfl⟩
    case h_2 =>
      split at h
      case isTrue =>
        cases h
        exact Or.inr (Or.inr ⟨.drain, by decide, Or.inl rfl⟩)
      case isFalse =>
        cases h
        exact Or.inr (Or.inr ⟨.setExit, by decide, Or.inl rfl⟩)
  | drain =>
    cases h
    exact Or.inr (Or.inr ⟨.setExit, by decide, Or.inl rfl⟩)
  | setExit =>
    cases h
    exact Or.inr (Or.inr ⟨.idle, by decide, Or.inr rfl⟩)

theorem step_spec {l : GpuLoop} {hashing : Hashing} {sh : Shared} {inp : Input}
    {r : Result GpuLoop} (h : l.step hashing sh inp = some r) :
    StepSpec sh l.view r.loop.view r.m_state := by
  rcases step_cases h with ⟨hrun, q, hq, rfl⟩ | ⟨-, rfl⟩ | ⟨pc, hpc, rfl | rfl⟩
  · rw [view, if_pos hrun]
    exact GpuMiner.step_spec hq
  · refine ⟨fun fee j hj => Or.inr (Or.inr ⟨l.m_gpuMiner.start_held fee j hj, ?_⟩), fun hm => ?_⟩
    · simp [Result.store]
    · simp [Result.store] at hm
  · exact .of_held (fun fee => Or.inr (view_of_ne hpc fee)) (Or.inl rfl)
  · exact .of_held (fun fee => Or.inr (view_of_ne hpc fee)) (by simp [Result.store])

end GpuLoop

structure Backend where
  m_fee : Bool
  search : Search
  hashing : Hashing

inductive Loop where
  | cpu (l : CpuLoop)
  | gpu (l : GpuLoop)
deriving DecidableEq, Repr

namespace Loop

def step (backend : Backend) (sh : Shared) (inp : Input) : Loop → Option (Result Loop)
  | cpu l => (l.step backend.search sh inp).map (.map .cpu)
  | gpu l => (l.step backend.hashing sh inp).map (.map .gpu)

/-- `startMining` is called. -/
def enter : Loop → Option Loop
  | cpu l => if l.pc = .idle then some (cpu (l.goto .entry)) else none
  | gpu l => if l.pc = .idle then some (gpu (l.goto .entry)) else none

def view : Loop → View
  | cpu l => l.view
  | gpu l => l.view

def job : Loop → MiningJob
  | cpu l => l.m_currentJob
  | gpu l => l.m_gpuMiner.job

theorem step_spec {backend : Backend} {sh : Shared} {inp : Input} {l : Loop} {r : Result Loop}
    (h : l.step backend sh inp = some r) : StepSpec sh l.view r.loop.view r.m_state := by
  cases l <;> obtain ⟨s, hs, rfl⟩ := Option.map_eq_some_iff.mp h
  · exact CpuLoop.step_spec hs
  · exact GpuLoop.step_spec hs

theorem enter_held {l m : Loop} (h : l.enter = some m) (fee : Bool) :
    m.view.held fee = l.view.held fee := by
  cases l with
  | cpu l =>
    obtain ⟨hpc, h⟩ := Option.ite_none_right_eq_some.mp h
    cases h
    cases fee <;> simp [view, CpuLoop.goto, CpuLoop.originJob, hpc]
  | gpu l =>
    obtain ⟨hpc, h⟩ := Option.ite_none_right_eq_some.mp h
    cases h
    rw [view, view, GpuLoop.view_of_ne (by simp [GpuLoop.goto]),
      GpuLoop.view_of_ne (by simp [hpc])]

end Loop
end MinerGate
