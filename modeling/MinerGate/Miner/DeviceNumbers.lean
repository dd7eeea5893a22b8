import Mathlib.Data.List.AList
import Mathlib.Data.Rat.Defs
import MinerGate.Lib.Numbering
import MinerGate.Miner.OclWorkSizes
import MinerGate.Miner.Shares
import MinerGate.Qt.Numbers

/-!
# The numbers of the GPUs

The managers enter every card they can query under its index and leave the others out. All loops
over the cards count up to the number of entries.
-/

namespace MinerGate

set_option autoImplicit false

/-- `(int)ImplType` -/
def CryptonoteMinerImpl.ImplType.toInt : CryptonoteMinerImpl.ImplType → Nat
  | CUDA => 0
  | OpenCL => 1

namespace DeviceNumbers

open CryptonoteMinerImpl (ImplType)

/-- How the queries for one card end; an exception ends the enumeration. -/
inductive Query (α : Type) where
  | success (props : α)
  | failed
  | thrown

structure CudaDeviceProp where
  name : QString
  totalGlobalMem : UInt64
deriving DecidableEq

structure OCLDevice where
  platformId : Nat
  deviceName : QString
  OCLVersion : ℚ
  deviceID : UInt32
  globalMemSize : UInt64
  maxMemAllocSize : UInt64
  maximumWorkGroupSize : UInt64
deriving DecidableEq

/-- The `QVariant` of a card. -/
inductive DeviceProps where
  | cuda (props : CudaDeviceProp)
  | ocl (props : OCLDevice)
deriving DecidableEq

abbrev DevicesMap := AList fun _ : UInt32 => DeviceProps

/-- The loop over the cards; `left` of them are still to be queried, from `i` on. -/
def enumerate (query : UInt32 → Query DeviceProps) : Nat → UInt32 → DevicesMap → DevicesMap
  | 0, _, res => res
  | left + 1, i, res =>
    match query i with
    | .success props => enumerate query left (i + 1) (res.insert i props)
    | .failed => enumerate query left (i + 1) res
    | .thrown => res

/-- What the CUDA driver says; `none` is an error. -/
structure CudaCalls where
  driverVersion : Option Nat
  deviceCount : Option UInt32
  deviceProperties : UInt32 → Option CudaDeviceProp

def cudaDevicesCount (calls : CudaCalls) : UInt32 :=
  match calls.driverVersion with
  | none => 0
  | some version =>
    let maj := version / 1000
    let min := version % 100
    if maj < 5 ∨ (maj = 5 ∧ min < 5) then 0 else calls.deviceCount.getD 0

def CudaCalls.query (calls : CudaCalls) (i : UInt32) : Query DeviceProps :=
  match calls.deviceProperties i with
  | some props => .success (.cuda props)
  | none => .failed

def cudaDevices (calls : CudaCalls) : DevicesMap :=
  enumerate calls.query (cudaDevicesCount calls).toNat 0 ∅

/-- How the queries for an OpenCL card end, in their order. The last three stand outside of the
`try` blocks. -/
structure ClDeviceInfo where
  nameSize : Query Unit
  name : Query QString
  versionSize : Query Unit
  version : Query QString
  maxWorkGroupSize : Option UInt64
  globalMemSize : Option UInt64
  maxMemAllocSize : Option UInt64

/-- `m_numDevices` is `none` when a call before the loop fails or there is no platform. -/
structure OclCalls where
  m_numDevices : Option UInt32
  deviceInfo : UInt32 → ClDeviceInfo
  toDouble : QString → ℚ

/-- Where the loop over `version[idx++]` leaves `idx`: behind the first blank from the seventh
character on, or at the end. -/
def versionIdx (version : QString) : Nat :=
  let rest := version.drop 7
  if ' ' ∈ rest then 8 + (rest.takeWhile (· ≠ ' ')).length else max 8 version.length

/-- The second word of the version, when there is one with something behind it. -/
def versionNumber (version : QString) : Option QString :=
  let idx := versionIdx version
  if idx = version.length then none
  else
    let oclParams := (version.take (idx - 1)).splitOn ' '
    if oclParams.length < 2 then none else oclParams[1]?

/-- The rest of the queries, once the version is there. -/
def queryLimits (info : ClDeviceInfo) (device : OCLDevice) : Query DeviceProps :=
  match info.maxWorkGroupSize with
  | none => .failed
  | some maximumWorkGroupSize =>
    match info.globalMemSize with
    | none => .failed
    | some globalMemSize =>
      match info.maxMemAllocSize with
      | none => .failed
      | some maxMemAllocSize =>
        .success (.ocl { device with
          maximumWorkGroupSize := maximumWorkGroupSize
          globalMemSize := globalMemSize
          maxMemAllocSize := maxMemAllocSize })

def Query.andThen {α β : Type} (q : Query α) (next : α → Query β) : Query β :=
  match q with
  | .success props => next props
  | .failed => .failed
  | .thrown => .thrown

/-- The body of the loop in `openCLDevices`. -/
def OclCalls.query (calls : OclCalls) (i : UInt32) : Query DeviceProps :=
  let info := calls.deviceInfo i
  info.nameSize.andThen fun _ =>
  info.name.andThen fun devName =>
  info.versionSize.andThen fun _ =>
  info.version.andThen fun version =>
  match versionNumber version with
  | none => .failed
  | some number =>
    queryLimits info
      { platformId := 0, deviceName := devName, OCLVersion := calls.toDouble number, deviceID := i
        globalMemSize := 0, maxMemAllocSize := 0, maximumWorkGroupSize := 0 }

def openCLDevices (calls : OclCalls) : DevicesMap :=
  enumerate calls.query (calls.m_numDevices.getD 0).toNat 0 ∅

structure GpuManager where
  m_type : ImplType
  m_devicesMap : DevicesMap

def cudaManager (calls : CudaCalls) : GpuManager := ⟨.CUDA, cudaDevices calls⟩

def openCLManager (calls : OclCalls) : GpuManager := ⟨.OpenCL, openCLDevices calls⟩

def GPUAvailable : List HashFamily := [.CryptoNight, .Ethereum]

def MINIMAL_GPU_MEMORY : UInt64 := 2000000000

/-- No manager looks at its cards for this. -/
def GpuManager.availableForFamily (_family : HashFamily) : Bool := GPUAvailable.contains _family

namespace GpuManager
variable (m : GpuManager)

/-- `quint8` -/
def deviceCount : UInt8 := UInt8.ofNat m.m_devicesMap.entries.length

def deviceProps (_device : UInt32) : Option DeviceProps := m.m_devicesMap.lookup _device

def deviceKey (_device : UInt32) : QString :=
  QString.arg (QString.arg "%1_%2".toList (QString.number m.m_type.toInt))
    (QString.number _device.toNat)

/-- The properties of another library, or of no card, are a null pointer. -/
def cudaProps (_device : UInt32) : Option CudaDeviceProp :=
  match m.deviceProps _device with
  | some (.cuda props) => some props
  | _ => none

def oclProps (_device : UInt32) : Option OCLDevice :=
  match m.deviceProps _device with
  | some (.ocl props) => some props
  | _ => none

/-- `checkDeviceAvailable` of the manager, with no job; a null pointer that is read gives `none`. -/
def checkDeviceAvailable (_device : UInt32) (_family : HashFamily) : Option Bool :=
  match m.m_type, _family with
  | .CUDA, .CryptoNight => some true
  | .CUDA, .Ethereum =>
    (m.cudaProps _device).map fun props => !decide (props.totalGlobalMem < MINIMAL_GPU_MEMORY)
  | .OpenCL, .CryptoNight =>
    (m.oclProps _device).map fun props => !decide (props.OCLVersion < 12/10)
  | .OpenCL, .Ethereum =>
    (m.oclProps _device).map fun props =>
      !decide (props.OCLVersion < 11/10) && !decide (props.globalMemSize < MINIMAL_GPU_MEMORY)
  | _, _ => some false

/-- The first two checks of `getMiner`. -/
def accepts (_device : UInt32) (_family : HashFamily) : Bool :=
  GPUAvailable.contains _family && !decide (_device.toNat ≥ m.m_devicesMap.entries.length)

/-- The numbers that the loops over the cards count through. -/
def visited : List UInt32 := (List.range m.deviceCount.toNat).map UInt32.ofNat

end GpuManager

/-- `AbstractGPUManager::deviceNo` -/
def deviceNo (deviceKey : QString) : UInt32 :=
  (((deviceKey.splitOn '_').getLast?).bind QString.toUInt).getD 0

/-- The cards of a list that are available; a check that reads a null pointer ends it. -/
def filterChecked (check : UInt32 → Option Bool) : List UInt32 → Option (List UInt32)
  | [] => some []
  | i :: is =>
    match check i with
    | none => none
    | some available =>
      (filterChecked check is).map fun found => if available then i :: found else found

def GpuManager.availableNumbers (m : GpuManager) (_family : HashFamily) : Option (List UInt32) :=
  filterChecked (fun i => m.checkDeviceAvailable i _family) m.visited

/-- What the managers give, one after the other. -/
def forManagers {β : Type} (f : GpuManager → Option (List β)) : List GpuManager → Option (List β)
  | [] => some []
  | m :: ms => (f m).bind fun found => (forManagers f ms).map (found ++ ·)

namespace GPUManagerController
variable (managers : List GpuManager)

def deviceCountForFamiliy (_family : HashFamily) : Option UInt8 :=
  (forManagers
    (fun m =>
      if GpuManager.availableForFamily _family then m.availableNumbers _family else some [])
    managers).map fun found => UInt8.ofNat found.length

def allAvailableDeviceKeys : List QString := managers.flatMap fun m => m.visited.map m.deviceKey

def allAvailableDeviceKeysFor (_family : HashFamily) : Option (List QString) :=
  forManagers
    (fun m =>
      if GpuManager.availableForFamily _family then
        (m.availableNumbers _family).map (·.map m.deviceKey)
      else some [])
    managers

/-- The keys of all cards with their properties, as the loops come to them. -/
def deviceEntries : List (QString × Option DeviceProps) :=
  managers.flatMap fun m => m.visited.map fun i => (m.deviceKey i, m.deviceProps i)

def insertNew (devices : AList fun _ : QString => Option DeviceProps)
    (entry : QString × Option DeviceProps) : AList fun _ : QString => Option DeviceProps :=
  if entry.1 ∈ devices then devices else devices.insert entry.1 entry.2

def allDevices : AList fun _ : QString => Option DeviceProps :=
  (deviceEntries managers).foldl insertNew ∅

end GPUManagerController

/-- The loop of `Coin::gpuAvailable`. -/
def devCount (managers : List GpuManager) (_family : HashFamily) : Option Nat :=
  (forManagers (fun m => m.availableNumbers _family) managers).map List.length

/-- The loops over the cards of a family read no null pointer. -/
structure Counted (managers : List GpuManager) (_family : HashFamily) : Prop where
  deviceCountForFamiliy :
    (GPUManagerController.deviceCountForFamiliy managers _family).isSome = true
  allAvailableDeviceKeys :
    (GPUManagerController.allAvailableDeviceKeysFor managers _family).isSome = true
  gpuAvailable : (devCount managers _family).isSome = true

section Enumeration
variable {query : UInt32 → Query DeviceProps} {n i k : UInt32} {props : DeviceProps}

/-- The enumeration has come to the card, and its queries have succeeded. -/
structure Usable (query : UInt32 → Query DeviceProps) (n i : UInt32) (props : DeviceProps) :
    Prop where
  lt : i.toNat < n.toNat
  reached : ∀ j : UInt32, j.toNat < i.toNat → query j ≠ .thrown
  success : query i = .success props

theorem toNat_succ (h : i.toNat + 1 < 4294967296) : (i + 1).toNat = i.toNat + 1 := by
  rw [UInt32.toNat_add, UInt32.toNat_one]
  exact Nat.mod_eq_of_lt h

/-- The loop from `i` on comes to the card `k`, and its queries succeed. -/
structure Entered (query : UInt32 → Query DeviceProps) (i : UInt32) (left : Nat) (k : UInt32)
    (props : DeviceProps) : Prop where
  le : i.toNat ≤ k.toNat
  lt : k.toNat < i.toNat + left
  reached : ∀ j : UInt32, i.toNat ≤ j.toNat → j.toNat < k.toNat → query j ≠ .thrown
  success : query k = .success props

variable {left : Nat} {res : DevicesMap} {entered : DeviceProps}

theorem entered_self : Entered query i (left + 1) i props ↔ query i = .success props := by
  constructor
  · exact Entered.success
  · intro h
    exact ⟨Nat.le_refl _, by omega, fun j hle hlt => by omega, h⟩

/-- Behind a card whose queries end without an exception the loop goes on with the next one. -/
theorem entered_succ (hsucc : (i + 1).toNat = i.toNat + 1) (hquery : query i ≠ .thrown)
    (hk : k ≠ i) : Entered query i (left + 1) k props ↔ Entered query (i + 1) left k props := by
  have hne : ∀ {j : UInt32}, j ≠ i → j.toNat ≠ i.toNat := fun h heq => h (UInt32.toNat_inj.mp heq)
  have hnek := hne hk
  constructor
  · intro ⟨hle, hlt, hreached, hsuccess⟩
    exact ⟨by omega, by omega, fun j hle' hlt' => hreached j (by omega) hlt', hsuccess⟩
  · intro ⟨hle, hlt, hreached, hsuccess⟩
    refine ⟨by omega, by omega, fun j hle' hlt' => ?_, hsuccess⟩
    by_cases hj : j = i
    · rw [hj]
      exact hquery
    · have hnej := hne hj
      exact hreached j (by omega) hlt'

theorem lt_succ_of_mem (hsucc : (i + 1).toNat = i.toNat + 1) (hres : ∀ j ∈ res, j.toNat < i.toNat) :
    ∀ j ∈ res, j.toNat < (i + 1).toNat := by
  intro j hj
  rw [hsucc]
  exact Nat.lt_succ_of_lt (hres j hj)

theorem lt_succ_of_mem_insert (hsucc : (i + 1).toNat = i.toNat + 1)
    (hres : ∀ j ∈ res, j.toNat < i.toNat) :
    ∀ j ∈ res.insert i entered, j.toNat < (i + 1).toNat := by
  intro j hj
  rcases (AList.mem_insert res).mp hj with heq | hj
  · rw [heq, hsucc]
    exact Nat.lt_succ_self _
  · exact lt_succ_of_mem hsucc hres j hj

/-- What is entered from `i` on is what can be queried there; the entries below stay. -/
theorem lookup_enumerate (hleft : i.toNat + left < 4294967296)
    (hres : ∀ j ∈ res, j.toNat < i.toNat) :
    (enumerate query left i res).lookup k = some props ↔
      res.lookup k = some props ∨ Entered query i left k props := by
  induction left generalizing i res with
  | zero =>
    rw [enumerate]
    refine (or_iff_left fun h => ?_).symm
    have hlt := h.lt
    have hle := h.le
    omega
  | succ left ih =>
    have hsucc : (i + 1).toNat = i.toNat + 1 := toNat_succ (by omega)
    have hnone : res.lookup i = none := by
      rw [AList.lookup_eq_none]
      exact fun hmem => Nat.lt_irrefl _ (hres i hmem)
    have hbelow : ¬ Entered query (i + 1) left i props := by
      intro h
      have hle := h.le
      omega
    rw [enumerate]
    cases hquery : query i with
    | success entered =>
      have hgoes : query i ≠ .thrown := by
        rw [hquery]
        exact fun h => by cases h
      rw [ih (by omega) (lt_succ_of_mem_insert hsucc hres)]
      by_cases hk : k = i
      · rw [hk, AList.lookup_insert, hnone, entered_self, hquery, or_iff_left hbelow]
        simp
      · rw [AList.lookup_insert_ne hk, entered_succ hsucc hgoes hk]
    | failed =>
      have hgoes : query i ≠ .thrown := by
        rw [hquery]
        exact fun h => by cases h
      rw [ih (by omega) (lt_succ_of_mem hsucc hres)]
      by_cases hk : k = i
      · rw [hk, entered_self, hquery, or_iff_left hbelow]
        simp
      · rw [entered_succ hsucc hgoes hk]
    | thrown =>
      refine (or_iff_left fun h => ?_).symm
      rcases Nat.lt_or_eq_of_le h.le with hlt | heq
      · exact h.reached i (Nat.le_refl _) hlt hquery
      · have hsuccess := h.success
        rw [← UInt32.toNat_inj.mp heq, hquery] at hsuccess
        cases hsuccess

theorem lookup_devices (n : UInt32) :
    (enumerate query n.toNat 0 ∅).lookup k = some props ↔ Usable query n k props := by
  rw [lookup_enumerate (by rw [UInt32.toNat_zero, Nat.zero_add]; exact n.toNat_lt)
    fun j hj => absurd hj (AList.notMem_empty j), AList.lookup_empty]
  constructor
  · intro h
    rcases h with h | ⟨-, hlt, hreached, hsuccess⟩
    · cases h
    · rw [UInt32.toNat_zero, Nat.zero_add] at hlt
      exact ⟨hlt, fun j hj => hreached j (Nat.zero_le _) hj, hsuccess⟩
  · intro ⟨hlt, hreached, hsuccess⟩
    refine Or.inr ⟨Nat.zero_le _, ?_, fun j _ hj => hreached j hj, hsuccess⟩
    rwa [UInt32.toNat_zero, Nat.zero_add]

end Enumeration

section Numbers
variable {query : UInt32 → Query DeviceProps} {n : UInt32} {m : GpuManager}

/-- The indices of the entries. -/
def numbers (m : GpuManager) : Finset ℕ := (m.m_devicesMap.keys.map UInt32.toNat).toFinset

theorem mem_numbers {i : UInt32} : i.toNat ∈ numbers m ↔ i ∈ m.m_devicesMap := by
  rw [numbers, List.mem_toFinset, List.mem_map, AList.mem_keys]
  constructor
  · rintro ⟨j, hj, heq⟩
    rwa [← UInt32.toNat_inj.mp heq]
  · exact fun h => ⟨i, h, rfl⟩

theorem lt_of_mem_numbers {i : ℕ} (h : i ∈ numbers m) : i < 4294967296 := by
  rw [numbers, List.mem_toFinset, List.mem_map] at h
  obtain ⟨j, -, rfl⟩ := h
  exact j.toNat_lt

theorem card_numbers : (numbers m).card = m.m_devicesMap.entries.length := by
  have hnodup : (m.m_devicesMap.keys.map UInt32.toNat).Nodup :=
    m.m_devicesMap.keys_nodup.map fun _ _ h => UInt32.toNat_inj.mp h
  rw [numbers, List.toFinset_card_of_nodup hnodup, List.length_map]
  exact List.length_map ..

theorem deviceCount_toNat : m.deviceCount.toNat = (numbers m).card % 256 := by
  rw [GpuManager.deviceCount, UInt8.toNat_ofNat', card_numbers]

/-- The keys are the numbers below the count exactly when there is no gap and the count fits into a
byte. -/
theorem keys_iff :
    (∀ i, i ∈ m.m_devicesMap ↔ i.toNat < m.deviceCount.toNat) ↔
      IsLowerSet (numbers m : Set ℕ) ∧ (numbers m).card < 256 := by
  rw [← Numbering.mem_iff_lt_card_mod (by omega : 0 < 256), deviceCount_toNat]
  constructor
  · intro h i
    by_cases hi : i < 4294967296
    · have hnat : (UInt32.ofNat i).toNat = i := by
        rw [UInt32.toNat_ofNat', Nat.mod_eq_of_lt hi]
      rw [← hnat, mem_numbers, h]
    · refine iff_of_false (fun hmem => hi (lt_of_mem_numbers hmem)) fun hlt => ?_
      have hmod := Nat.mod_lt (numbers m).card (by omega : 0 < 256)
      omega
  · intro h i
    rw [← mem_numbers, h]

/-- Every card below one that can be queried can be queried too, and the last of them has an index
below 255. -/
structure Gapless (query : UInt32 → Query DeviceProps) (n : UInt32) : Prop where
  ordered : ∀ i j : UInt32, i.toNat < j.toNat → (∃ props, Usable query n j props) →
    ∃ props, Usable query n i props
  few : ∀ (i : UInt32) (props : DeviceProps), Usable query n i props → i.toNat < 255

/-- The map has the properties of the cards that can be queried. -/
def Enters (m : GpuManager) (query : UInt32 → Query DeviceProps) (n : UInt32) : Prop :=
  ∀ i props, m.deviceProps i = some props ↔ Usable query n i props

theorem Enters.mem (hm : Enters m query n) {i : UInt32} :
    i ∈ m.m_devicesMap ↔ ∃ props, Usable query n i props := by
  rw [← AList.lookup_isSome, Option.isSome_iff_exists]
  exact exists_congr fun props => hm i props

theorem gapless_iff (hm : Enters m query n) :
    IsLowerSet (numbers m : Set ℕ) ∧ (numbers m).card < 256 ↔ Gapless query n := by
  constructor
  · rintro ⟨hlower, hcard⟩
    constructor
    · intro i j hij hj
      rw [← hm.mem, ← mem_numbers] at hj ⊢
      exact hlower (Nat.le_of_lt hij) hj
    · intro i props hi
      have hmem : i.toNat ∈ numbers m := mem_numbers.mpr (hm.mem.mpr ⟨props, hi⟩)
      have hlt := Numbering.lt_card_of_mem hlower hmem
      omega
  · intro h
    have hlower : IsLowerSet (numbers m : Set ℕ) := by
      intro j i hle hj
      have hj' : (UInt32.ofNat j).toNat = j := by
        rw [UInt32.toNat_ofNat', Nat.mod_eq_of_lt (lt_of_mem_numbers hj)]
      have hi' : (UInt32.ofNat i).toNat = i := by
        rw [UInt32.toNat_ofNat',
          Nat.mod_eq_of_lt (Nat.lt_of_le_of_lt hle (lt_of_mem_numbers hj))]
      rcases Nat.lt_or_eq_of_le hle with hlt | rfl
      · have hj : j ∈ numbers m := hj
        rw [← hj', mem_numbers, hm.mem] at hj
        have hi := h.ordered (UInt32.ofNat i) (UInt32.ofNat j) (by omega) hj
        rw [← hm.mem, ← mem_numbers, hi'] at hi
        exact hi
      · exact hj
    refine ⟨hlower, ?_⟩
    by_contra hcard
    have hlast : (255 : UInt32).toNat ∈ numbers m :=
      Numbering.mem_of_lt_card hlower (Nat.lt_of_lt_of_le (by decide) (Nat.le_of_not_lt hcard))
    obtain ⟨props, husable⟩ := hm.mem.mp (mem_numbers.mp hlast)
    exact Nat.lt_irrefl 255 (h.few 255 props husable)

theorem mem_visited {i : UInt32} : i ∈ m.visited ↔ i.toNat < m.deviceCount.toNat := by
  have hlt := m.deviceCount.toNat_lt
  rw [GpuManager.visited, List.mem_map]
  constructor
  · rintro ⟨j, hj, rfl⟩
    have hj := List.mem_range.mp hj
    rwa [UInt32.toNat_ofNat', Nat.mod_eq_of_lt (by omega)]
  · intro h
    exact ⟨i.toNat, List.mem_range.mpr h, UInt32.ofNat_toNat⟩

end Numbers

section Keys
variable {m : GpuManager}

theorem number_toInt (m_type : ImplType) :
    ∃ c : Char, c.isDigit = true ∧ QString.number m_type.toInt = [c] ∧
      QString.arg "%1_%2".toList (QString.number m_type.toInt) = [c, '_', '%', '2'] := by
  cases m_type with
  | CUDA => exact ⟨'0', by decide⟩
  | OpenCL => exact ⟨'1', by decide⟩

theorem deviceKey_eq (m : GpuManager) (i : UInt32) :
    m.deviceKey i = QString.number m.m_type.toInt ++ '_' :: QString.number i.toNat := by
  obtain ⟨c, hdigit, hnumber, harg⟩ := number_toInt m.m_type
  have hplain : ∀ d : Char, d.isDigit = false → c ≠ d := fun d => QString.ne_of_isDigit hdigit
  rw [GpuManager.deviceKey, harg, hnumber]
  simp [QString.arg, QString.markers, QString.marker, QString.markerNumber, QString.digitValue,
    QString.replaceMarker, hplain]

theorem notMem_number (n : Nat) : '_' ∉ QString.number n := fun h =>
  QString.ne_of_isDigit (QString.isDigit_of_mem_number h) rfl rfl

theorem splitOn_deviceKey (m : GpuManager) (i : UInt32) :
    (m.deviceKey i).splitOn '_' = [QString.number m.m_type.toInt, QString.number i.toNat] := by
  rw [deviceKey_eq, List.splitOn_append_cons_self, List.splitOn_eq_singleton (notMem_number _),
    List.splitOn_eq_singleton (notMem_number _)]
  rfl

theorem deviceNo_deviceKey (m : GpuManager) (i : UInt32) : deviceNo (m.deviceKey i) = i := by
  rw [deviceNo, splitOn_deviceKey]
  rw [List.getLast?_cons_cons, List.getLast?_singleton, Option.bind_some,
    QString.toUInt_number i.toNat_lt, UInt32.ofNat_toNat, Option.getD_some]

theorem toInt_inj {t t' : ImplType} (h : t.toInt = t'.toInt) : t = t' := by
  cases t with
  | CUDA =>
    cases t' with
    | CUDA => rfl
    | OpenCL => exact absurd h (by decide)
  | OpenCL =>
    cases t' with
    | CUDA => exact absurd h (by decide)
    | OpenCL => rfl

theorem deviceKey_inj {m m' : GpuManager} {i j : UInt32} (h : m.deviceKey i = m'.deviceKey j) :
    m.m_type = m'.m_type ∧ i = j := by
  have hparts := congrArg (List.splitOn '_') h
  rw [splitOn_deviceKey, splitOn_deviceKey] at hparts
  obtain ⟨htype, hnumber⟩ := List.cons_eq_cons.mp hparts
  have hindex := QString.number_inj (List.head_eq_of_cons_eq hnumber)
  exact ⟨toInt_inj (QString.number_inj htype), UInt32.toNat_inj.mp hindex⟩

end Keys

section Managers
variable {query : UInt32 → Query DeviceProps} {n : UInt32} {m : GpuManager}

/-- The properties are those of a card of the library, and an OpenCL card knows its index. -/
def OfCard : ImplType → UInt32 → DeviceProps → Prop
  | .CUDA, _, .cuda _ => True
  | .OpenCL, i, .ocl props => props.deviceID = i
  | _, _, _ => False

/-- The entries have the numbers below the count; the loops come to every card that can be queried
and read properties of that card only, under a key that gives its number back. -/
structure Numbered (m : GpuManager) (query : UInt32 → Query DeviceProps) (n : UInt32) : Prop where
  keys : ∀ i, i ∈ m.m_devicesMap ↔ i.toNat < m.deviceCount.toNat
  visits : ∀ i props, Usable query n i props → i ∈ m.visited
  valid : ∀ i ∈ m.visited, ∃ props, m.deviceProps i = some props ∧ query i = .success props ∧
    OfCard m.m_type i props
  named : ∀ i ∈ m.visited, deviceNo (m.deviceKey i) = i
  accepted : ∀ i ∈ m.visited, ∀ family ∈ GPUAvailable, m.accepts i family = true
  checked : ∀ family, (m.availableNumbers family).isSome = true

theorem filterChecked_isSome {check : UInt32 → Option Bool} {is : List UInt32}
    (h : ∀ i ∈ is, (check i).isSome = true) : (filterChecked check is).isSome = true := by
  induction is with
  | nil => rfl
  | cons i is ih =>
    obtain ⟨available, hi⟩ := Option.isSome_iff_exists.mp (h i List.mem_cons_self)
    rw [filterChecked, hi]
    simpa using ih fun j hj => h j (List.mem_cons_of_mem i hj)

theorem checkDeviceAvailable_isSome {i : UInt32} {props : DeviceProps}
    (hprops : m.deviceProps i = some props) (hcard : OfCard m.m_type i props)
    (family : HashFamily) : (m.checkDeviceAvailable i family).isSome = true := by
  cases htype : m.m_type with
  | CUDA =>
    rw [htype] at hcard
    cases props with
    | cuda props =>
      cases family <;> simp [GpuManager.checkDeviceAvailable, htype, GpuManager.cudaProps, hprops]
    | ocl props => exact hcard.elim
  | OpenCL =>
    rw [htype] at hcard
    cases props with
    | cuda props => exact hcard.elim
    | ocl props =>
      cases family <;> simp [GpuManager.checkDeviceAvailable, htype, GpuManager.oclProps, hprops]

theorem numbered_iff (hm : Enters m query n)
    (hcard : ∀ i props, query i = .success props → OfCard m.m_type i props) :
    Numbered m query n ↔ Gapless query n := by
  constructor
  · intro h
    exact (gapless_iff hm).mp (keys_iff.mp h.keys)
  · intro h
    have hkeys := keys_iff.mpr ((gapless_iff hm).mpr h)
    have hvalid : ∀ i ∈ m.visited, ∃ props, m.deviceProps i = some props ∧
        query i = .success props ∧ OfCard m.m_type i props := by
      intro i hi
      obtain ⟨props, husable⟩ := hm.mem.mp ((hkeys i).mpr (mem_visited.mp hi))
      exact ⟨props, (hm i props).mpr husable, husable.success, hcard i props husable.success⟩
    refine ⟨hkeys, ?_, hvalid, fun i _ => deviceNo_deviceKey m i, ?_, ?_⟩
    · intro i props husable
      exact mem_visited.mpr ((hkeys i).mp (hm.mem.mpr ⟨props, husable⟩))
    · intro i hi family hfamily
      have hlt := mem_visited.mp hi
      rw [deviceCount_toNat] at hlt
      have hle := Nat.mod_le (numbers m).card 256
      rw [card_numbers] at hle hlt
      simp only [GpuManager.accepts, List.contains_eq_mem, hfamily, decide_true, Bool.true_and,
        ge_iff_le, Bool.not_eq_true', decide_eq_false_iff_not]
      omega
    · intro family
      apply filterChecked_isSome
      intro i hi
      obtain ⟨props, hprops, -, hprops'⟩ := hvalid i hi
      exact checkDeviceAvailable_isSome hprops hprops' family

theorem ofCard_cuda {calls : CudaCalls} {i : UInt32} {props : DeviceProps}
    (h : calls.query i = .success props) : OfCard .CUDA i props := by
  rw [CudaCalls.query] at h
  split at h
  · cases h
    trivial
  · cases h

theorem Query.andThen_success {α β : Type} {q : Query α} {next : α → Query β} {v : β}
    (h : q.andThen next = .success v) : ∃ u, q = .success u ∧ next u = .success v := by
  cases q with
  | success u => exact ⟨u, rfl, h⟩
  | failed => cases h
  | thrown => cases h

theorem queryLimits_success {info : ClDeviceInfo} {device : OCLDevice} {props : DeviceProps}
    (h : queryLimits info device = .success props) :
    ∃ d : OCLDevice, props = .ocl d ∧ d.deviceID = device.deviceID := by
  rw [queryLimits] at h
  split at h
  · cases h
  split at h
  · cases h
  split at h
  · cases h
  · cases h
    exact ⟨_, rfl, rfl⟩

theorem ofCard_ocl {calls : OclCalls} {i : UInt32} {props : DeviceProps}
    (h : calls.query i = .success props) : OfCard .OpenCL i props := by
  obtain ⟨_, -, h⟩ := Query.andThen_success h
  obtain ⟨devName, -, h⟩ := Query.andThen_success h
  obtain ⟨_, -, h⟩ := Query.andThen_success h
  obtain ⟨version, -, h⟩ := Query.andThen_success h
  split at h
  · cases h
  · obtain ⟨d, rfl, hd⟩ := queryLimits_success h
    exact hd

end Managers

section Controller

open GPUManagerController

theorem lookup_insertNew {devices : AList fun _ : QString => Option DeviceProps}
    {entry : QString × Option DeviceProps} {key : QString} {props : Option DeviceProps} :
    (insertNew devices entry).lookup key = some props ↔
      devices.lookup key = some props ∨ key ∉ devices ∧ (key, props) = entry := by
  obtain ⟨k, v⟩ := entry
  rw [insertNew]
  split
  case isTrue hmem =>
    constructor
    · exact Or.inl
    · rintro (h | ⟨hnot, heq⟩)
      · exact h
      · cases heq
        exact absurd hmem hnot
  case isFalse hnot =>
    by_cases hkey : key = k
    · subst hkey
      rw [AList.lookup_insert, AList.lookup_eq_none.mpr hnot]
      simp [hnot, eq_comm]
    · rw [AList.lookup_insert_ne hkey]
      simp [hkey]

theorem mem_insertNew {devices : AList fun _ : QString => Option DeviceProps}
    {entry : QString × Option DeviceProps} {key : QString} :
    key ∈ insertNew devices entry ↔ key ∈ devices ∨ key = entry.1 := by
  rw [insertNew]
  split
  case isTrue hmem =>
    constructor
    · exact Or.inl
    · rintro (h | rfl)
      · exact h
      · exact hmem
  case isFalse => rw [AList.mem_insert, or_comm]

/-- A key that stands for one value only is entered with it. -/
theorem lookup_foldl_insertNew {entries : List (QString × Option DeviceProps)}
    {devices : AList fun _ : QString => Option DeviceProps} {key : QString}
    {props : Option DeviceProps}
    (hsame : ∀ v w, (key, v) ∈ entries → (key, w) ∈ entries → v = w) :
    (entries.foldl insertNew devices).lookup key = some props ↔
      devices.lookup key = some props ∨ key ∉ devices ∧ (key, props) ∈ entries := by
  induction entries generalizing devices with
  | nil => simp
  | cons entry entries ih =>
    rw [List.foldl_cons, ih fun v w hv hw =>
      hsame v w (List.mem_cons_of_mem _ hv) (List.mem_cons_of_mem _ hw), lookup_insertNew,
      mem_insertNew, not_or]
    constructor
    · rintro ((h | ⟨hnot, rfl⟩) | ⟨⟨hnot, -⟩, hin⟩)
      · exact Or.inl h
      · exact Or.inr ⟨hnot, List.mem_cons_self⟩
      · exact Or.inr ⟨hnot, List.mem_cons_of_mem _ hin⟩
    · rintro (h | ⟨hnot, hin⟩)
      · exact Or.inl (Or.inl h)
      · rcases List.mem_cons.mp hin with heq | htail
        · exact Or.inl (Or.inr ⟨hnot, heq⟩)
        · by_cases hkey : key = entry.1
          · have hentry : entry = (key, entry.2) := by rw [hkey]
            have hprops := hsame props entry.2 hin (hentry ▸ List.mem_cons_self)
            exact Or.inl (Or.inr ⟨hnot, by rw [hentry, hprops]⟩)
          · exact Or.inr ⟨⟨hnot, hkey⟩, htail⟩

variable {managers : List GpuManager}

theorem mem_deviceEntries {key : QString} {props : Option DeviceProps} :
    (key, props) ∈ deviceEntries managers ↔
      ∃ m ∈ managers, ∃ i ∈ m.visited, key = m.deviceKey i ∧ props = m.deviceProps i := by
  simp only [deviceEntries, List.mem_flatMap, List.mem_map, Prod.mk.injEq, eq_comm]

/-- `allDevices` has every card that the loops come to, under its key. -/
theorem lookup_allDevices
    (htypes : ∀ m ∈ managers, ∀ m' ∈ managers, m.m_type = m'.m_type → m = m') {key : QString}
    {props : Option DeviceProps} :
    (allDevices managers).lookup key = some props ↔
      ∃ m ∈ managers, ∃ i ∈ m.visited, key = m.deviceKey i ∧ props = m.deviceProps i := by
  rw [allDevices, lookup_foldl_insertNew, AList.lookup_empty, mem_deviceEntries]
  · simp [AList.notMem_empty]
  · intro v w hv hw
    obtain ⟨m, hm, i, -, hkey, rfl⟩ := mem_deviceEntries.mp hv
    obtain ⟨m', hm', j, -, hkey', rfl⟩ := mem_deviceEntries.mp hw
    obtain ⟨htype, rfl⟩ := deviceKey_inj (hkey.symm.trans hkey')
    rw [htypes m hm m' hm' htype]

theorem mem_allAvailableDeviceKeys {key : QString} : key ∈ allAvailableDeviceKeys managers ↔
    ∃ m ∈ managers, ∃ i ∈ m.visited, key = m.deviceKey i := by
  simp only [allAvailableDeviceKeys, List.mem_flatMap, List.mem_map, eq_comm]

theorem forManagers_isSome {β : Type} {f : GpuManager → Option (List β)}
    (h : ∀ m ∈ managers, (f m).isSome = true) : (forManagers f managers).isSome = true := by
  induction managers with
  | nil => rfl
  | cons m ms ih =>
    obtain ⟨found, hfound⟩ := Option.isSome_iff_exists.mp (h m List.mem_cons_self)
    rw [forManagers, hfound, Option.bind_some, Option.isSome_map]
    exact ih fun m' hm' => h m' (List.mem_cons_of_mem m hm')

/-- Where the checks of a manager read no null pointer, the loops over all managers do not. -/
theorem counted_of_checked
    (h : ∀ m ∈ managers, ∀ family, (m.availableNumbers family).isSome = true)
    (family : HashFamily) : Counted managers family := by
  refine ⟨?_, ?_, ?_⟩
  · rw [deviceCountForFamiliy, Option.isSome_map]
    apply forManagers_isSome
    intro m hm
    split
    · exact h m hm family
    · rfl
  · apply forManagers_isSome
    intro m hm
    split
    · rw [Option.isSome_map]
      exact h m hm family
    · rfl
  · rw [devCount, Option.isSome_map]
    apply forManagers_isSome
    intro m hm
    exact h m hm family

end Controller

section Devices
variable (cuda : CudaCalls) (ocl : OclCalls)

def managersOf : List GpuManager := [cudaManager cuda, openCLManager ocl]

/-- The cards of both libraries are numbered, the loops over both count them, and what `allDevices`
has is every card that can be queried, with its properties and under its key. -/
structure NumbersRight : Prop where
  numbered : Numbered (cudaManager cuda) cuda.query (cudaDevicesCount cuda)
  numbered' : Numbered (openCLManager ocl) ocl.query (ocl.m_numDevices.getD 0)
  devices : ∀ key props, (GPUManagerController.allDevices (managersOf cuda ocl)).lookup key =
    some props ↔ ∃ card,
      props = some card ∧
        ((∃ i, Usable cuda.query (cudaDevicesCount cuda) i card ∧
            key = (cudaManager cuda).deviceKey i) ∨
          ∃ i, Usable ocl.query (ocl.m_numDevices.getD 0) i card ∧
            key = (openCLManager ocl).deviceKey i)
  listed : ∀ key, key ∈ GPUManagerController.allAvailableDeviceKeys (managersOf cuda ocl) ↔
    key ∈ GPUManagerController.allDevices (managersOf cuda ocl)
  counted : ∀ family, Counted (managersOf cuda ocl) family

theorem enters_cuda : Enters (cudaManager cuda) cuda.query (cudaDevicesCount cuda) :=
  fun _ _ => lookup_devices _

theorem enters_ocl : Enters (openCLManager ocl) ocl.query (ocl.m_numDevices.getD 0) :=
  fun _ _ => lookup_devices _

theorem Numbered.entry {m : GpuManager} {query : UInt32 → Query DeviceProps} {n : UInt32}
    (h : Numbered m query n) (hm : Enters m query n) {key : QString}
    {props : Option DeviceProps} :
    (∃ i ∈ m.visited, key = m.deviceKey i ∧ props = m.deviceProps i) ↔
      ∃ card, props = some card ∧ ∃ i, Usable query n i card ∧ key = m.deviceKey i := by
  constructor
  · rintro ⟨i, hi, rfl, rfl⟩
    obtain ⟨card, hcard, -⟩ := h.valid i hi
    exact ⟨card, hcard, i, (hm i card).mp hcard, rfl⟩
  · rintro ⟨card, rfl, i, husable, rfl⟩
    exact ⟨i, h.visits i card husable, rfl, ((hm i card).mpr husable).symm⟩

theorem types_managersOf : ∀ m ∈ managersOf cuda ocl, ∀ m' ∈ managersOf cuda ocl,
    m.m_type = m'.m_type → m = m' := by
  simp only [managersOf, List.mem_cons, List.not_mem_nil, or_false]
  rintro m (rfl | rfl) m' (rfl | rfl) htype
  · rfl
  · cases htype
  · cases htype
  · rfl

/-- Whichever queries fail, the numbers are right if and only if the cards that are left have no gap
before or between them and are few enough for the count. -/
theorem device_numbers_iff :
    NumbersRight cuda ocl ↔ Gapless cuda.query (cudaDevicesCount cuda) ∧
      Gapless ocl.query (ocl.m_numDevices.getD 0) := by
  have hcuda := numbered_iff (enters_cuda cuda) fun i props h => ofCard_cuda h
  have hocl := numbered_iff (enters_ocl ocl) fun i props h => ofCard_ocl h
  constructor
  · intro h
    exact ⟨hcuda.mp h.numbered, hocl.mp h.numbered'⟩
  · rintro ⟨hgapless, hgapless'⟩
    have hnumbered := hcuda.mpr hgapless
    have hnumbered' := hocl.mpr hgapless'
    refine ⟨hnumbered, hnumbered', fun key props => ?_, fun key => ?_, ?_⟩
    · rw [lookup_allDevices (types_managersOf cuda ocl)]
      simp only [managersOf, List.mem_cons, List.not_mem_nil, or_false, exists_eq_or_imp,
        exists_eq_left]
      rw [hnumbered.entry (enters_cuda cuda), hnumbered'.entry (enters_ocl ocl), ← exists_or]
      simp only [← and_or_left]
    · rw [mem_allAvailableDeviceKeys, ← AList.lookup_isSome, Option.isSome_iff_exists]
      simp only [lookup_allDevices (types_managersOf cuda ocl)]
      constructor
      · rintro ⟨m, hm, i, hi, hkey⟩
        exact ⟨_, m, hm, i, hi, hkey, rfl⟩
      · rintro ⟨_, m, hm, i, hi, hkey, -⟩
        exact ⟨m, hm, i, hi, hkey⟩
    · apply counted_of_checked
      simp only [managersOf, List.mem_cons, List.not_mem_nil, or_false]
      rintro m (rfl | rfl)
      · exact hnumbered.checked
      · exact hnumbered'.checked

theorem query_ne_thrown (i : UInt32) : cuda.query i ≠ .thrown := by
  rw [CudaCalls.query]
  split
  · exact fun h => by cases h
  · exact fun h => by cases h

/-- Two cards, of which only the second can be queried. -/
def secondOnly : CudaCalls :=
  ⟨some 8000, some 2, fun i => if i = 0 then none else some ⟨[], 4000000000⟩⟩

def noOpenCL : OclCalls :=
  ⟨none, fun _ => ⟨.failed, .failed, .failed, .failed, none, none, none⟩, fun _ => 0⟩

/-- The second card has the number 1 in a map of one entry. -/
theorem gap_before_card : ¬ ∀ (cuda : CudaCalls) (ocl : OclCalls), NumbersRight cuda ocl := by
  intro h
  have hgapless := (numbered_iff (enters_cuda secondOnly) fun i props h => ofCard_cuda h).mp
    (h secondOnly noOpenCL).numbered
  have hsecond : Usable secondOnly.query (cudaDevicesCount secondOnly) 1
      (.cuda ⟨[], 4000000000⟩) :=
    ⟨by decide, fun j _ => query_ne_thrown secondOnly j, rfl⟩
  obtain ⟨props, hfirst⟩ := hgapless.ordered 0 1 (by decide) ⟨_, hsecond⟩
  have hsuccess := hfirst.success
  rw [show secondOnly.query 0 = .failed from rfl] at hsuccess
  cases hsuccess

end Devices

end DeviceNumbers
end MinerGate
