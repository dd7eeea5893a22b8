import MinerGate.Coins.CoinSet
import MinerGate.Lib.Boards
import MinerGate.Miner.Worker
import MinerGate.Utils.Settings

/-!
# The flags of the GPUs

The settings keep for each coin and device whether the coin is running there. The flag is put up by
the command line after a start, and taken down by the miner of the coin when it has stopped the
worker; `Coin::startGpu` itself only stops the coin that has the flag.
-/

namespace MinerGate

set_option autoImplicit false

open Boards MemorySettings

/-- The name of the entry of a coin for a device. -/
def flagName (coin deviceKey : QString) : QString := buildPrefix [GPU_STATE, coin] deviceKey

namespace Settings

def setAppQuitInProcess (s : Settings) (value : Bool) : Settings :=
  { s with m_appExitInProcess := value }

/-- The entry is not there, or it is a flag. -/
def IsFlag (s : Settings) (name : QString) : Prop :=
  s.m_settingsImpl.m_settings.lookup name = none ∨
    ∃ b, s.m_settingsImpl.m_settings.lookup name = some (.bool b)

section Flags
variable {s : Settings} {coin deviceKey name : QString} {on : Bool}

theorem buildPrefix_gpuGroups (s : Settings) (coin deviceKey : QString) :
    buildPrefix ((s.m_settingsImpl.beginGroup GPU_STATE).beginGroup coin).m_groups deviceKey =
      flagName coin deviceKey := by
  rw [flagName]
  simp [beginGroup, s.closed]

theorem value_gpuGroups (s : Settings) (coin deviceKey : QString) (d : QVariant) :
    ((s.m_settingsImpl.beginGroup GPU_STATE).beginGroup coin).value deviceKey d =
      (s.m_settingsImpl.m_settings.lookup (flagName coin deviceKey)).getD d := by
  rw [MemorySettings.value, buildPrefix_gpuGroups]
  rfl

theorem isGpuRunning_eq (h : deviceKey ≠ []) : s.isGpuRunning coin deviceKey =
    ((s.m_settingsImpl.m_settings.lookup (flagName coin deviceKey)).getD (.bool false)).toBool := by
  rw [isGpuRunning]
  simp only [if_neg h, value_gpuGroups]

theorem lookup_setGpuRunning_self (hexit : s.m_appExitInProcess = false) :
    (s.setGpuRunning coin deviceKey on).m_settingsImpl.m_settings.lookup (flagName coin deviceKey) =
      let old := s.m_settingsImpl.m_settings.lookup (flagName coin deviceKey)
      if toQuint8 (old.getD .invalid) ≠ on.toNat then some (.bool on) else old := by
  rw [setGpuRunning, hexit]
  simp only [Bool.false_eq_true, if_false, inGroups, value_gpuGroups]
  split
  case isTrue =>
    rw [MemorySettings.setValue, buildPrefix_gpuGroups]
    exact AList.lookup_insert _
  case isFalse => rfl

theorem lookup_setGpuRunning_of_ne (hne : name ≠ flagName coin deviceKey) :
    (s.setGpuRunning coin deviceKey on).m_settingsImpl.m_settings.lookup name =
      s.m_settingsImpl.m_settings.lookup name := by
  rw [setGpuRunning]
  split
  case isTrue => rfl
  case isFalse =>
    simp only [inGroups, value_gpuGroups]
    split
    case isTrue =>
      rw [MemorySettings.setValue, buildPrefix_gpuGroups]
      exact AList.lookup_insert_ne hne
    case isFalse => rfl

theorem setGpuRunning_of_exit (h : s.m_appExitInProcess = true) :
    s.setGpuRunning coin deviceKey on = s := if_pos h

theorem setGpuRunning_m_appExitInProcess :
    (s.setGpuRunning coin deviceKey on).m_appExitInProcess = s.m_appExitInProcess := by
  rw [setGpuRunning]
  split <;> rfl

theorem IsFlag.setGpuRunning (h : s.IsFlag name) :
    (s.setGpuRunning coin deviceKey on).IsFlag name := by
  cases hexit : s.m_appExitInProcess with
  | true => rwa [setGpuRunning_of_exit hexit]
  | false =>
    rw [IsFlag]
    by_cases hname : name = flagName coin deviceKey
    · rw [hname] at h ⊢
      rw [lookup_setGpuRunning_self hexit]
      simp only
      split
      case isTrue => exact Or.inr ⟨on, rfl⟩
      case isFalse => exact h
    · rwa [lookup_setGpuRunning_of_ne hname]

/-- The value is read as a number, where an entry that is not there counts as a lowered flag. -/
theorem isGpuRunning_setGpuRunning_self (hexit : s.m_appExitInProcess = false)
    (hflag : s.IsFlag (flagName coin deviceKey)) (h : deviceKey ≠ []) :
    (s.setGpuRunning coin deviceKey on).isGpuRunning coin deviceKey = on := by
  rw [isGpuRunning_eq h, lookup_setGpuRunning_self hexit]
  rcases hflag with hnone | ⟨b, hb⟩
  · rw [hnone]
    cases on <;> rfl
  · rw [hb]
    cases on <;> cases b <;> rfl

theorem isGpuRunning_setGpuRunning_of_ne {coin' deviceKey' : QString} (h : deviceKey' ≠ [])
    (hne : flagName coin' deviceKey' ≠ flagName coin deviceKey) :
    (s.setGpuRunning coin deviceKey on).isGpuRunning coin' deviceKey' =
      s.isGpuRunning coin' deviceKey' := by
  rw [isGpuRunning_eq h, isGpuRunning_eq h, lookup_setGpuRunning_of_ne hne]

end Flags
end Settings

/-- The entries of coins without a backslash and without a marker that `QString::arg` fills in. -/
theorem flagName_inj {coin coin' deviceKey deviceKey' : QString}
    (h : '\\' ∉ coin ∧ ∀ n ∈ QString.markers coin, 2 < n)
    (h' : '\\' ∉ coin' ∧ ∀ n ∈ QString.markers coin', 2 < n) :
    flagName coin deviceKey = flagName coin' deviceKey' ↔
      coin = coin' ∧ deviceKey = deviceKey' :=
  buildPrefix_pair_inj (by decide) h h'

/-- The coins and the devices of the process. -/
structure Rig extends CoinSet where
  deviceKeys : List QString
  named : [] ∉ m_miners ∧ [] ∉ deviceKeys
  known : ∀ coin, available coin ⊆ deviceKeys ∧ contexts coin ⊆ deviceKeys
  apart : ∀ coin ∈ m_miners, ∀ coin' ∈ m_miners, ∀ device ∈ deviceKeys, ∀ device' ∈ deviceKeys,
    flagName coin device = flagName coin' device' → coin = coin' ∧ device = device'

instance : Coe Rig CoinSet := ⟨Rig.toCoinSet⟩

/-- The settings, the coins whose engine has made a miner, the coins that are to mine on the CPU,
the workers started and not stopped since, and for each device the coin whose worker was last
started there and not stopped since. -/
structure GpuFlags where
  settings : Settings
  created : QString → Bool
  cpuRunning : QString → Bool
  cpu : QString → Bool
  gpu : QString → QString → Bool
  started : QString → Option QString

namespace GpuFlags

def new : GpuFlags :=
  ⟨.new, fun _ => false, fun _ => false, fun _ => false, fun _ _ => false, fun _ => none⟩

def gpuRunning (s : GpuFlags) (coin deviceKey : QString) : Bool :=
  s.settings.isGpuRunning coin deviceKey

def setGpuRunning (s : GpuFlags) (coin : QString) (on : Bool) (deviceKey : QString) : GpuFlags :=
  { s with settings := s.settings.setGpuRunning coin deviceKey on }

def getMinerImpl (s : GpuFlags) (coin : QString) : GpuFlags :=
  { s with created := Function.update s.created coin true }

def stopWorkers (s : GpuFlags) (coin : QString) (keys : List QString) : GpuFlags :=
  { s with
    gpu := Function.update s.gpu coin fun key => s.gpu coin key && !keys.contains key
    started := fun key =>
      if key ∈ keys ∧ s.started key = some coin then none else s.started key }

def clearFlags (s : GpuFlags) (coin : QString) (keys : List QString) : GpuFlags :=
  keys.foldl (fun s key => s.setGpuRunning coin false key) s

/-- `stopCpu` with `sync`, which leaves the settings as they are. -/
def stopCpu (s : GpuFlags) (coin : QString) : GpuFlags :=
  if s.created coin then { s with cpu := Function.update s.cpu coin false } else s

variable (coins : CoinSet)

/-- `AbstractMinerImpl::stopGpu`: when it waits for the threads, the flags come down after that. -/
def implStopGpu (s : GpuFlags) (coin deviceKey : QString) (sync : Bool) : GpuFlags :=
  let keys := coins.covered coin deviceKey
  let threadsToWait := if sync then keys else []
  let atOnce := if sync then [] else keys
  ((s.stopWorkers coin keys).clearFlags coin atOnce).clearFlags coin threadsToWait

/-- The devices whose worker is started: `opens` says for which its `init` succeeds, and `state` is
what its `getState` says. A worker that is mining goes on as it is. -/
def startKeys (coin : QString) (devicesKeys : List QString) (opens : QString → Bool)
    (state : QString → MinerThreadState) : List QString :=
  (coins.contexts coin).filter fun key =>
    key ∈ devicesKeys ∧ opens key = true ∧ state key ≠ .Mining

/-- `AbstractMinerImpl::startGpu`. -/
def implStartGpu (s : GpuFlags) (coin : QString) (devicesKeys : List QString)
    (opens : QString → Bool) (state : QString → MinerThreadState) : GpuFlags :=
  let keys := startKeys coins coin devicesKeys opens state
  { s with
    gpu := Function.update s.gpu coin fun key => s.gpu coin key || keys.contains key
    started := fun key => if key ∈ keys then some coin else s.started key }

def stopGpu (s : GpuFlags) (coin : QString) (sync : Bool) (deviceKey : QString) : GpuFlags :=
  if s.created coin then s.implStopGpu coins coin deviceKey sync else s

def stopAll (s : GpuFlags) (coin : QString) : GpuFlags :=
  let s := s.stopCpu coin
  if coins.gpuAvailable coin then s.stopGpu coins coin true [] else s

def stopOther (s : GpuFlags) (coin : QString) : GpuFlags :=
  match coins.otherMiner coin with
  | some other => s.stopAll coins other
  | none => s

/-- The first coin with the flag. -/
def minerHasGpuRunned (s : GpuFlags) (deviceKey : QString) : Option QString :=
  coins.m_miners.find? fun coin => s.gpuRunning coin deviceKey

def stopHolder (s : GpuFlags) (deviceKey : QString) : GpuFlags :=
  match s.minerHasGpuRunned coins deviceKey with
  | some holder => s.stopGpu coins holder true deviceKey
  | none => s

def startGpu (s : GpuFlags) (coin deviceKey : QString) (opens : QString → Bool)
    (state : QString → MinerThreadState) : GpuFlags :=
  let devices := coins.devicesForStart coin deviceKey
  let s := devices.foldl (stopHolder coins) (s.stopOther coins coin)
  (s.getMinerImpl coin).implStartGpu coins coin devices opens state

def startCpu (s : GpuFlags) (coin : QString) : GpuFlags :=
  let s := (s.stopOther coins coin).getMinerImpl coin
  { s with
    cpuRunning := Function.update s.cpuRunning coin true
    cpu := Function.update s.cpu coin true }

variable (rig : Rig)

/-- From here on `setGpuRunning` leaves the settings alone. -/
def exit (s : GpuFlags) : GpuFlags :=
  rig.m_miners.foldl (stopAll rig) { s with settings := s.settings.setAppQuitInProcess true }

/-- The calls of the main thread. `cliGpu` is the start of a device by the command line,
`loggedInCpu` and `loggedInGpu` are a visit of the loop in `loggedIn` to a coin and to one of its
devices, `finished` is the timer after a worker has ended, and other calls make the miner of a
coin. -/
inductive Op where
  | cliGpu (coin deviceKey : QString) (opens : QString → Bool)
    (state : QString → MinerThreadState)
  | startCpu (coin : QString)
  | setCpuRunning (coin : QString) (on : Bool)
  | loggedInCpu (coin : QString)
  | loggedInGpu (coin deviceKey : QString) (opens : QString → Bool)
    (state : QString → MinerThreadState)
  | finished (coin deviceKey : QString)
  | stopGpu (coin : QString) (sync : Bool) (deviceKey : QString)
  | stopAll (coin : QString)
  | getMinerImpl (coin : QString)
  | exit

/-- The loop over the coins, and for each over the devices. -/
def loggedIn (opens : QString → Bool) (state : QString → MinerThreadState) : List Op :=
  rig.m_miners.flatMap fun coin =>
    .loggedInCpu coin :: rig.deviceKeys.map fun deviceKey =>
      .loggedInGpu coin deviceKey opens state

def apply (s : GpuFlags) : Op → GpuFlags
  | .cliGpu coin deviceKey opens state =>
    (s.startGpu rig coin deviceKey opens state).setGpuRunning coin true deviceKey
  | .startCpu coin => s.startCpu rig coin
  | .setCpuRunning coin on => { s with cpuRunning := Function.update s.cpuRunning coin on }
  | .loggedInCpu coin => if s.cpuRunning coin then s.startCpu rig coin else s
  | .loggedInGpu coin deviceKey opens state =>
    if rig.gpuAvailable coin ∧ s.gpuRunning coin deviceKey then
      s.startGpu rig coin deviceKey opens state
    else s
  | .finished coin deviceKey =>
    if s.gpuRunning coin deviceKey then s.implStopGpu rig coin deviceKey false else s
  | .stopGpu coin sync deviceKey => s.stopGpu rig coin sync deviceKey
  | .stopAll coin => s.stopAll rig coin
  | .getMinerImpl coin => s.getMinerImpl coin
  | .exit => s.exit rig

def Op.Valid : Op → Prop
  | .cliGpu coin deviceKey _ _ | .loggedInGpu coin deviceKey _ _ =>
    coin ∈ rig.m_miners ∧ deviceKey ∈ rig.deviceKeys
  | .finished coin deviceKey => coin ∈ rig.m_miners ∧ deviceKey ∈ rig.contexts coin
  | .startCpu coin | .setCpuRunning coin _ | .loggedInCpu coin | .stopGpu coin _ _ | .stopAll coin
  | .getMinerImpl coin => coin ∈ rig.m_miners
  | .exit => True

instance : (op : Op) → Decidable (op.Valid rig)
  | .cliGpu _ _ _ _ | .loggedInGpu _ _ _ _ | .finished _ _ => inferInstanceAs (Decidable (_ ∧ _))
  | .startCpu coin | .setCpuRunning coin _ | .loggedInCpu coin | .stopGpu coin _ _ | .stopAll coin
  | .getMinerImpl coin => inferInstanceAs (Decidable (coin ∈ rig.m_miners))
  | .exit => .isTrue trivial

def Enabled (s : GpuFlags) (op : Op) : Prop :=
  s.settings.m_appExitInProcess = false ∧ op.Valid rig

instance (s : GpuFlags) (op : Op) : Decidable (s.Enabled rig op) :=
  inferInstanceAs (Decidable (_ ∧ _))

def step (s : GpuFlags) (op : Op) : Option GpuFlags :=
  if s.Enabled rig op then some (s.apply rig op) else none

section
variable {coins : CoinSet} {s : GpuFlags} {coin deviceKey : QString} {keys : List QString}
  {opens : QString → Bool} {state : QString → MinerThreadState}

theorem mem_startKeys : deviceKey ∈ startKeys coins coin keys opens state ↔
    deviceKey ∈ coins.contexts coin ∧
      deviceKey ∈ keys ∧ opens deviceKey = true ∧ state deviceKey ≠ .Mining := by
  rw [startKeys, List.mem_filter, decide_eq_true_eq]

theorem stopCpu_eq (s : GpuFlags) (coin : QString) :
    s.stopCpu coin = { s with cpu := (s.stopCpu coin).cpu } := by
  unfold stopCpu
  split <;> rfl

theorem clearFlags_eq (s : GpuFlags) (coin : QString) (keys : List QString) :
    s.clearFlags coin keys = { s with settings := (s.clearFlags coin keys).settings } := by
  induction keys generalizing s with
  | nil => rfl
  | cons key keys ih =>
    rw [clearFlags, List.foldl_cons, ← clearFlags, ih]
    rfl

theorem implStopGpu_eq (s : GpuFlags) (coin deviceKey : QString) (sync : Bool) :
    s.implStopGpu coins coin deviceKey sync =
      { s.stopWorkers coin (coins.covered coin deviceKey) with
        settings := (s.implStopGpu coins coin deviceKey sync).settings } := by
  cases sync with
  | false => exact clearFlags_eq (s.stopWorkers coin _) coin (coins.covered coin deviceKey)
  | true => exact clearFlags_eq (s.stopWorkers coin _) coin (coins.covered coin deviceKey)

end

end GpuFlags
end MinerGate
