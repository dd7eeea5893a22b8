import MinerGate.Utils.MemorySettings

/-!
# The settings of the miners

The part of `Settings` that keeps the parameters of the coins and the states of their GPUs,
over the settings in memory. Every call closes the groups that it opens.
-/

namespace MinerGate

set_option autoImplicit false

def minersGroup : QString := ['m', 'i', 'n', 'e', 'r', 's']
def customMinersGroup : QString := ['c', 'u', 's', 't', 'o', 'm', 'M', 'i', 'n', 'e', 'r', 's']
def mergedPoolsGroup : QString := ['m', 'e', 'r', 'g', 'e', 'd', 'P', 'o', 'o', 'l', 's']
def engineKey : QString := ['e', 'n', 'g', 'i', 'n', 'e']
def GPU_STATE : QString := ['g', 'p', 'u', '_', 's', 't', 'a', 't', 'e']

/-- A `QVariantMap` in the order of its keys. -/
abbrev QVariantMap := List (QString × QVariant)

namespace QVariantMap

def value (m : QVariantMap) (key : QString) : QVariant := (m.lookup key).getD .invalid

def without (m : QVariantMap) (key : QString) : QVariantMap := m.filter fun e => e.1 ≠ key

end QVariantMap

/-- What the list of the miners says of one: its parameters, with `engine` among them, and under
`mergedPools` its merged pools. -/
structure MinerMap where
  params : AList fun _ : QString => QVariant
  mergedPools : AList fun _ : QString => QVariant

namespace MemorySettings

def addValues (s : MemorySettings) (keys : List QString) (m : AList fun _ : QString => QVariant) :
    AList fun _ : QString => QVariant :=
  keys.foldl (fun m key => m.insert key (s.value key .invalid)) m

/-- The value as a `quint8`: a text counts as the number that it writes. -/
def toQuint8 : QVariant → Nat
  | .invalid => 0
  | .bool b => if b then 1 else 0
  | .int n => (n % 256).toNat
  | .string s =>
    if s ≠ [] ∧ s.all Char.isDigit then
      let n := s.foldl (fun n c => 10 * n + (c.toNat - '0'.toNat)) 0
      if n < 18446744073709551616 then n % 256 else 0
    else 0

end MemorySettings

/-- Between the calls no group is open. -/
structure Settings where
  m_settingsImpl : MemorySettings
  m_appExitInProcess : Bool
  closed : m_settingsImpl.m_groups = []

namespace Settings

def new : Settings := ⟨.new, false, rfl⟩

def inGroups (s : Settings) (outer inner : QString) (f : MemorySettings → MemorySettings)
    (hf : ∀ t, (f t).m_groups = t.m_groups) : Settings where
  m_settingsImpl := (f ((s.m_settingsImpl.beginGroup outer).beginGroup inner)).endGroup.endGroup
  m_appExitInProcess := s.m_appExitInProcess
  closed := by
    simp [MemorySettings.endGroup, hf, MemorySettings.beginGroup, s.closed]

/-- The entries of `addMiner`: an invalid value removes the key. -/
def addMinerParams (params : QVariantMap) (s : MemorySettings) : MemorySettings :=
  params.foldl (fun s e => if e.2.isValid then s.setValue e.1 e.2 else s.remove e.1) s

theorem addMinerParams_groups (params : QVariantMap) (s : MemorySettings) :
    (addMinerParams params s).m_groups = s.m_groups := by
  induction params generalizing s with
  | nil => rfl
  | cons e params ih =>
    rw [addMinerParams, List.foldl_cons, ← addMinerParams, ih]
    split <;> rfl

def addMiner (s : Settings) (params : QVariantMap) : Settings :=
  s.inGroups minersGroup (params.value engineKey).toString
    (addMinerParams (params.without engineKey)) (addMinerParams_groups _)

def addCustomMinerParams (params : QVariantMap) (s : MemorySettings) : MemorySettings :=
  params.foldl (fun s e => s.setValue e.1 e.2) s

theorem addCustomMinerParams_groups (params : QVariantMap) (s : MemorySettings) :
    (addCustomMinerParams params s).m_groups = s.m_groups := by
  induction params generalizing s with
  | nil => rfl
  | cons e params ih =>
    rw [addCustomMinerParams, List.foldl_cons, ← addCustomMinerParams, ih]
    rfl

def addCustomMiner (s : Settings) (params : QVariantMap) : Settings :=
  s.inGroups customMinersGroup (params.value engineKey).toString
    (addCustomMinerParams (params.without engineKey)) (addCustomMinerParams_groups _)

def removeCustomMiner (s : Settings) (key : QString) : Settings where
  m_settingsImpl := ((s.m_settingsImpl.beginGroup customMinersGroup).remove key).endGroup
  m_appExitInProcess := s.m_appExitInProcess
  closed := by
    simp [MemorySettings.endGroup, MemorySettings.remove, MemorySettings.beginGroup, s.closed]

def minersOf (custom : Bool) : QString := if custom then customMinersGroup else minersGroup

def writeMinerParam (s : Settings) (coin name : QString) (custom : Bool) (value : QVariant) :
    Settings :=
  s.inGroups (minersOf custom) coin (·.setValue name value) fun _ => rfl

def readMinerParam (s : Settings) (coin name : QString) (custom : Bool) (default : QVariant) :
    QVariant :=
  ((s.m_settingsImpl.beginGroup (minersOf custom)).beginGroup coin).value name default

def minerMap (s : MemorySettings) (miner : QString) : MinerMap :=
  let gMiner := s.beginGroup miner
  let gMergedPools := gMiner.beginGroup mergedPoolsGroup
  ⟨(gMiner.addValues gMiner.childKeys ((∅ : AList _).insert engineKey (.string miner))).erase
      mergedPoolsGroup,
    gMergedPools.addValues gMergedPools.childKeys ∅⟩

def minerList (s : Settings) : AList fun _ : QString => MinerMap :=
  let gMiners := s.m_settingsImpl.beginGroup minersGroup
  gMiners.childGroups.foldl (fun res miner => res.insert miner (minerMap gMiners miner)) ∅

def customMinerList (s : Settings) : AList fun _ : QString => AList fun _ : QString => QVariant :=
  let gMiners := s.m_settingsImpl.beginGroup customMinersGroup
  gMiners.childGroups.foldl (fun res miner =>
    let gMiner := gMiners.beginGroup miner
    res.insert miner
      (gMiner.addValues gMiner.childKeys ((∅ : AList _).insert engineKey (.string miner)))) ∅

/-- With an empty key: whether a device of the coin is running. -/
def isGpuRunning (s : Settings) (coin deviceKey : QString) : Bool :=
  let gCoin := (s.m_settingsImpl.beginGroup GPU_STATE).beginGroup coin
  if deviceKey = [] then gCoin.childKeys.any fun key => (gCoin.value key (.bool false)).toBool
  else (gCoin.value deviceKey (.bool false)).toBool

/-- The value is written when it differs from the one read as a number. -/
def setGpuRunning (s : Settings) (coin deviceKey : QString) (value : Bool) : Settings :=
  if s.m_appExitInProcess then s
  else
    s.inGroups GPU_STATE coin
      (fun gCoin =>
        if MemorySettings.toQuint8 (gCoin.value deviceKey .invalid) ≠ value.toNat then
          gCoin.setValue deviceKey (.bool value)
        else gCoin)
      fun _ => by
        split <;> rfl

end Settings
end MinerGate
