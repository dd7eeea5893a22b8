import Mathlib.Algebra.BigOperators.Group.List.Basic
import MinerGate.Lib.Settling
import MinerGate.Qt.QString

/-!
# The coins and their manager

What the coins keep of their states, with the number of CPU cores in use that all of them count,
and the manager's check for merged mining. Each change of a coin's CPU state makes the manager check
all coins again, also one that the check itself has made.
-/

namespace MinerGate

set_option autoImplicit false

inductive CpuMinerState where
  | Unknown
  | Stopped
  | Running
  | Error
  | Dead
  | MergedMining
deriving DecidableEq, Repr

inductive GpuState where
  | Stopped
  | Running
  | Error
  | NotAvailable
  | MergedMining
deriving DecidableEq, Repr

inductive MinerImplState where
  | Running
  | Starting
  | Stopped
  | Stopping
  | Error
deriving DecidableEq, Repr

/-- A coin, with its settings: how many cores it is to use, whether it mines on the CPU and on a
GPU, and the coin whose merged mining it carries (empty: none). `connected` says that the manager
hears its signals. -/
structure Coin where
  m_cpuState : CpuMinerState
  m_gpuStates : List (QString × GpuState)
  cpuCores : UInt32
  cpuRunning : Bool
  gpuRunning : Bool
  mergedMining : QString
  connected : Bool
deriving DecidableEq, Repr

namespace Coin

def mergeGpus (states : List (QString × GpuState)) : List (QString × GpuState) :=
  states.map fun e => if e.2 ≠ .Running ∧ e.2 ≠ .NotAvailable then (e.1, .MergedMining) else e

def unmergeGpus (states : List (QString × GpuState)) : List (QString × GpuState) :=
  states.map fun e => if e.2 = .MergedMining then (e.1, .Stopped) else e

def startGpuMergedMining (c : Coin) : Coin := { c with m_gpuStates := mergeGpus c.m_gpuStates }

def stopGpuMergedMining (c : Coin) : Coin := { c with m_gpuStates := unmergeGpus c.m_gpuStates }

def failGpus (c : Coin) : Coin :=
  { c with m_gpuStates := c.m_gpuStates.map fun e =>
      if e.2 = .Running then (e.1, .Error) else e }

end Coin

/-- The keys of the coins are in the order of the map. `underflowed` records that a subtraction from
`msUsedCores` has passed below zero. -/
@[ext] structure CoinManager where
  m_miners : List QString
  nodup : m_miners.Nodup
  coin : QString → Coin
  msUsedCores : UInt32
  underflowed : Bool

namespace CoinManager

def set (s : CoinManager) (key : QString) (c : Coin) : CoinManager :=
  { s with coin := Function.update s.coin key c }

@[simp] theorem set_coin_self (s : CoinManager) (key : QString) (c : Coin) :
    (s.set key c).coin key = c := Function.update_self _ _ _

theorem set_coin_of_ne (s : CoinManager) (c : Coin) {key k : QString} (h : k ≠ key) :
    (s.set key c).coin k = s.coin k := Function.update_of_ne h _ _

/-- What holds between every coin and itself, and between the old coin and the written one, holds
between each coin before and after the write. -/
theorem related_set {P : Coin → Coin → Prop} {s v : CoinManager} {key : QString} {c : Coin}
    (hcoin : v.coin = s.coin) (hrefl : ∀ c, P c c) (hself : P (s.coin key) c) (k : QString) :
    P (s.coin k) ((v.set key c).coin k) := by
  by_cases hk : k = key
  · subst hk
    rw [set_coin_self]
    exact hself
  · rw [set_coin_of_ne v c hk, hcoin]
    exact hrefl _

def subtractCores (s : CoinManager) (cores : UInt32) : CoinManager :=
  { s with
    msUsedCores := s.msUsedCores - cores
    underflowed := s.underflowed || decide (s.msUsedCores < cores) }

def addCores (s : CoinManager) (cores : UInt32) : CoinManager :=
  { s with msUsedCores := s.msUsedCores + cores }

def stateChangedSignal (check : CoinManager → Option CoinManager) (s : CoinManager)
    (key : QString) : Option CoinManager :=
  if (s.coin key).connected then check s else some s

/-- What `setCpuState` writes for a state that differs from the old one. -/
def writeCpuState (s : CoinManager) (key : QString) (state : CpuMinerState) : CoinManager :=
  let c := s.coin key
  let counted : CoinManager := match state with
    | .Stopped => if c.m_cpuState = .Running then s.subtractCores c.cpuCores else s
    | .Running => if c.m_cpuState ≠ .Running then s.addCores c.cpuCores else s
    | .Error => if c.m_cpuState = .Running then s.subtractCores c.cpuCores else s
    | _ => s
  counted.set key { c with m_cpuState := state }

def setCpuState (check : CoinManager → Option CoinManager) (s : CoinManager) (key : QString)
    (state : CpuMinerState) : Option CoinManager :=
  if (s.coin key).m_cpuState ≠ state then
    stateChangedSignal check (s.writeCpuState key state) key
  else some s

/-- A pass of the first loop over the miners, which begins with all of them in `merged_miners`. A
target that is no coin is a null pointer that the code follows. -/
def markMerged (check : CoinManager → Option CoinManager) (p : CoinManager × List QString)
    (miner : QString) : Option (CoinManager × List QString) :=
  let c := p.1.coin miner
  if (c.cpuRunning ∨ c.gpuRunning) ∧ c.mergedMining ≠ [] then
    if c.mergedMining ∈ p.1.m_miners then
      let mm_miner := p.1.coin c.mergedMining
      let marked :=
        if ¬ mm_miner.cpuRunning ∧ ¬ mm_miner.gpuRunning then
          (setCpuState check p.1 c.mergedMining .MergedMining).map fun s =>
            s.set c.mergedMining (s.coin c.mergedMining).startGpuMergedMining
        else some p.1
      marked.map fun s => (s, p.2.erase c.mergedMining)
    else none
  else some p

def unmarkMerged (check : CoinManager → Option CoinManager) (s : CoinManager) (miner : QString) :
    Option CoinManager :=
  let stopped :=
    if (s.coin miner).m_cpuState = .MergedMining then setCpuState check s miner .Stopped else some s
  stopped.map fun s => s.set miner (s.coin miner).stopGpuMergedMining

def checkMergeMining (check : CoinManager → Option CoinManager) (s : CoinManager) :
    Option CoinManager :=
  (s.m_miners.foldlM (markMerged check) (s, s.m_miners)).bind fun p =>
    p.2.foldlM (unmarkMerged check) p.1

/-- `checkMergeMiningInProgress`, with as many runs of it inside each other as the fuel allows;
`none` when that is not enough. -/
def checkMergeMiningInProgress : Nat → CoinManager → Option CoinManager :=
  Settling.fuelled checkMergeMining

def startCpu (s : CoinManager) (key : QString) : CoinManager :=
  s.set key { s.coin key with cpuRunning := true }

/-- When it waits for the workers the setting is kept. -/
def stopCpu (s : CoinManager) (key : QString) (sync : Bool) : CoinManager :=
  if sync then s else s.set key { s.coin key with cpuRunning := false }

def writeCpuCores (s : CoinManager) (key : QString) (cores : UInt32) : CoinManager :=
  let c := s.coin key
  let counted :=
    if c.m_cpuState = .Running then (s.subtractCores c.cpuCores).addCores cores else s
  counted.set key { c with cpuCores := cores }

def setCpuCores (check : CoinManager → Option CoinManager) (s : CoinManager) (key : QString)
    (cores : UInt32) : Option CoinManager :=
  if (s.coin key).cpuCores ≠ cores then stateChangedSignal check (s.writeCpuCores key cores) key
  else some s

def cpuStateChanged (check : CoinManager → Option CoinManager) (s : CoinManager) (key : QString)
    (state : MinerImplState) : Option CoinManager :=
  setCpuState check s key
    (match state with
      | .Running => .Running
      | .Stopped => .Stopped
      | .Error => .Error
      | _ => (s.coin key).m_cpuState)

def setPreparingError (check : CoinManager → Option CoinManager) (s : CoinManager)
    (key : QString) : Option CoinManager :=
  let failed :=
    if (s.coin key).m_cpuState = .Running then setCpuState check s key .Error else some s
  failed.map fun s => s.set key (s.coin key).failGpus

def Mining (s : CoinManager) (key : QString) : Prop :=
  (s.coin key).cpuRunning ∨ (s.coin key).gpuRunning

/-- One of the miners carries the merged mining of the coin and mines. -/
def MergedBy (s : CoinManager) (miners : List QString) (key : QString) : Prop :=
  ∃ miner ∈ miners, s.Mining miner ∧ (s.coin miner).mergedMining ≠ [] ∧
    (s.coin miner).mergedMining = key

def TargetsExist (s : CoinManager) : Prop :=
  ∀ key ∈ s.m_miners, s.Mining key → (s.coin key).mergedMining ≠ [] →
    (s.coin key).mergedMining ∈ s.m_miners

instance (s : CoinManager) (key : QString) : Decidable (s.Mining key) :=
  inferInstanceAs (Decidable (_ ∨ _))

instance (s : CoinManager) (miners : List QString) (key : QString) :
    Decidable (s.MergedBy miners key) :=
  inferInstanceAs (Decidable (∃ miner ∈ miners, _))

instance (s : CoinManager) : Decidable s.TargetsExist :=
  inferInstanceAs (Decidable (∀ key ∈ s.m_miners, _))

end CoinManager
end MinerGate
