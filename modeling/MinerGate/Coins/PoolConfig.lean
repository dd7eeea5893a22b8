import MinerGate.Lib.Assignments
import MinerGate.Qt.Json
import MinerGate.Utils.SettingsRemoval

/-!
# The pool document and the settings

The server names the coins and their pools in one document. `init` makes the coins from it when the
program starts, and every later response only writes the pools again, in a loop of its own.
-/

namespace MinerGate

set_option autoImplicit false

open Assignments QString

def FAMILY_CRYPTONIGHT : QString := "cryptonight".toList
def FAMILY_CRYPTONIGHT_LITE : QString := "cryptonight-lite".toList
def FAMILY_ETHEREUM : QString := "ethereum".toList

def visibleKey : QString := ['v', 'i', 's', 'i', 'b', 'l', 'e']
def mergedMiningKey : QString := ['m', 'e', 'r', 'g', 'e', 'd', 'M', 'i', 'n', 'i', 'n', 'g']

namespace Json

def variantText (v : Json) : QString := (v.variantToString.getD "").toList

/-- The value as a `quint16`, which is the one as a number of 64 bits, cut. -/
def toQuint16 : Json → Nat
  | int n => (n % 65536).toNat
  | frac nearest _ => (nearest % 65536).toNat
  | bool b => b.toNat
  | str s => toULongLong s % 65536
  | _ => 0

def variantToBool : Json → Bool
  | bool b => b
  | int n => n ≠ 0
  | frac nearest _ => nearest ≠ 0
  | str s => (QVariant.string s.toList).toBool
  | _ => false

end Json

namespace QVariant

def toQuint16 : QVariant → Nat
  | invalid => 0
  | bool b => b.toNat
  | int n => (n % 65536).toNat
  | string s => toULongLong (String.ofList s) % 65536

end QVariant

namespace Settings

def readParam (s : Settings) (name : QString) (default : QVariant) : QVariant :=
  s.m_settingsImpl.value name default

end Settings

/-- The address of a pool: its `ip` and `stratumPort`. -/
abbrev Address := QString × Nat

namespace Address

def url (a : Address) : QString :=
  arg (arg "stratum+tcp://%1:%2".toList a.1) (toString a.2).toList

def ofMap (m : JsonObject) : Address :=
  ((m.value "ip").variantText, (m.value "stratumPort").toQuint16)

end Address

/-- The settings, the keys of the coins that the manager has and the address of the pool for the fee
of the developers, before it is read as an url. -/
structure Core where
  settings : Settings
  m_miners : List QString
  m_dev_fee_pool : Option QString

namespace Core

def isEth (coinKey : QString) : Bool :=
  coinKey.map Char.toLower = ['e', 't', 'h'] || coinKey.map Char.toLower = ['e', 't', 'c']

/-- The address of the document, or what the settings have in its place for the two coins. -/
def ethHardCode (s : Settings) (coinKey : QString) (pool : Address) : Address :=
  if isEth coinKey then
    let ethHardCodeServer := (s.readParam "eth_server".toList .invalid).toString
    let ethHardCodePort := (s.readParam (arg "%1_port".toList coinKey) .invalid).toQuint16
    (if ethHardCodeServer = [] then pool.1 else ethHardCodeServer,
      if ethHardCodePort = 0 then pool.2 else ethHardCodePort)
  else pool

def serverMap (e : String × Json) : JsonObject := (e.2.toObject.value "server").toObject

def mergedMap (e : String × Json) : JsonObject := ((serverMap e).value "merged").toObject

def family (e : String × Json) : QString := (e.2.toObject.value "family").variantText

def mergedPoolKey (coin : QString) : QString := arg "mergedPools/%1".toList coin

def mergedPools (mm_map : JsonObject) : QVariantMap :=
  mm_map.map fun e => (mergedPoolKey e.1.toList, .string (Address.ofMap e.2.toObject).url)

def pool (a : Address) : QVariantMap := [(MemorySettings.poolKey, .string a.url)]

/-- What the list of the miners says of a coin, where it has it, or else the document. -/
def visible (miner_config : Option MinerMap) (e : String × Json) : Bool :=
  match miner_config with
  | some m => ((m.params.lookup visibleKey).getD (.bool true)).toBool
  | none => (e.2.toObject.value "showByDefault").variantToBool

def mergedMiningCoin (miner_config : Option MinerMap) : QString :=
  match miner_config with
  | some m => ((m.params.lookup mergedMiningKey).getD .invalid).toString
  | none => []

/-- The parameters of a coin that `init` makes, without `engine`. -/
def minerParams (s : Settings) (miner_config : Option MinerMap) (e : String × Json) : QVariantMap :=
  (if (mergedMap e).isEmpty then [(mergedMiningKey, .invalid), (mergedPoolsGroup, .invalid)]
    else (mergedMiningKey, .string (mergedMiningCoin miner_config)) :: mergedPools (mergedMap e)) ++
  pool (ethHardCode s e.1.toList (Address.ofMap (serverMap e)))

def knownFamily (e : String × Json) : Bool :=
  family e = FAMILY_CRYPTONIGHT || family e = FAMILY_CRYPTONIGHT_LITE || family e = FAMILY_ETHEREUM

def withEngine (coinKey : QString) (params : QVariantMap) : QVariantMap :=
  (engineKey, .string coinKey) :: params

/-- One entry of the document in `init`. The address is read before anything is written. -/
def initMiner (miner_map : AList fun _ : QString => MinerMap) (c : Core) (e : String × Json) :
    Core :=
  let coinKey := e.1.toList
  if coinKey = [] then c
  else
    let miner_config := miner_map.lookup coinKey
    let settings :=
      c.settings.writeMinerParam coinKey visibleKey false (.bool (visible miner_config e))
    if knownFamily e then
      { c with
        settings :=
          settings.addMiner (withEngine coinKey (minerParams c.settings miner_config e))
        m_miners := c.m_miners.insert coinKey }
    else { c with settings }

def customMiners (s : Settings) : List QString :=
  s.customMinerList.entries.map fun e => ((e.2.lookup engineKey).getD .invalid).toString

def init (c : Core) (miners_params : JsonObject) : Core :=
  let c := miners_params.foldl (initMiner c.settings.minerList) c
  { c with m_miners := c.m_miners ∪ customMiners c.settings }

/-- The pool parameters of an entry as a later response writes them, without `engine`. -/
def poolParams (e : String × Json) : QVariantMap :=
  mergedPools (mergedMap e) ++ pool (Address.ofMap (serverMap e))

def refreshMiner (c : Core) (e : String × Json) : Core :=
  { c with settings := c.settings.addMiner (withEngine e.1.toList (poolParams e)) }

/-- The later responses: every entry is written, whatever it is. -/
def refresh (c : Core) (data_map : JsonObject) : Core := data_map.foldl refreshMiner c

/-- A response without an error, with the entries of its document. -/
def poolResp (c : Core) (data_map : JsonObject) : Core :=
  if data_map.isEmpty then c
  else
    let dev_fee_map := (data_map.value "devFeeCC").toObject
    let c :=
      if dev_fee_map.isEmpty then c
      else { c with m_dev_fee_pool := some (Address.ofMap dev_fee_map).url }
    if c.m_miners.isEmpty then c.init data_map else c.refresh data_map

/-- What stands under a name in the settings. -/
def entry (c : Core) (name : QString) : Option QVariant :=
  c.settings.m_settingsImpl.m_settings.lookup name

/-- The name of a parameter of a coin. -/
def paramName (coin key : QString) : QString := MemorySettings.buildPrefix [minersGroup, coin] key

/-- What a value leaves under its name. -/
def kept (v : QVariant) : Option QVariant := if v.isValid then some v else none

def stored (coin : QString) (params : QVariantMap) : List (QString × Option QVariant) :=
  params.map fun p => (paramName coin p.1, kept p.2)

/-- All that the entries of a document leave in the settings, in order, where each writes the
parameters that `f` gives it. -/
def storedAll (f : String × Json → QVariantMap) (params : JsonObject) :
    List (QString × Option QVariant) :=
  params.flatMap fun e => stored e.1.toList (f e)

/-- All that `init` writes for an entry. -/
def initParams (s : Settings) (miner_map : AList fun _ : QString => MinerMap) (e : String × Json) :
    QVariantMap :=
  let miner_config := miner_map.lookup e.1.toList
  if e.1.toList = [] then []
  else
    (visibleKey, .bool (visible miner_config e)) ::
      if knownFamily e then minerParams s miner_config e else []

section Entries
variable {c c' : Core} {s t : Settings} {u : MemorySettings} {coin key name : QString}
  {params : QVariantMap} {v : QVariant} {e : String × Json} {D D' : JsonObject}
  {mm : AList fun _ : QString => MinerMap}

theorem lookup_addMinerParams_assign (params : QVariantMap) (u : MemorySettings) :
    (fun name => (Settings.addMinerParams params u).m_settings.lookup name) =
      assign (params.map fun p => (MemorySettings.buildPrefix u.m_groups p.1, kept p.2))
        fun name => u.m_settings.lookup name := by
  induction params generalizing u with
  | nil => rfl
  | cons p params ih =>
    rw [Settings.addMinerParams, List.foldl_cons, ← Settings.addMinerParams, ih]
    rw [List.map_cons, assign, assign, List.foldl_cons, kept]
    split
    case isTrue h =>
      congr 1
      funext name
      rw [Function.update_apply]
      split
      case isTrue hname => rw [hname]; exact AList.lookup_insert _
      case isFalse hname => exact AList.lookup_insert_ne hname
    case isFalse h =>
      congr 1
      funext name
      rw [Function.update_apply]
      split
      case isTrue hname => rw [hname]; exact AList.lookup_erase _ _
      case isFalse hname => exact AList.lookup_erase_ne hname

theorem entry_addMiner (hengine : ∀ p ∈ params, p.1 ≠ engineKey) :
    entry { c with settings := s.addMiner (withEngine coin params) } =
      assign (stored coin params) fun name => s.m_settingsImpl.m_settings.lookup name := by
  have hwithout : (withEngine coin params).without engineKey = params := by
    rw [withEngine, QVariantMap.without, List.filter_cons_of_neg (by simp)]
    exact List.filter_eq_self.mpr fun p hp => by simpa using hengine p hp
  have hvalue : ((withEngine coin params).value engineKey).toString = coin := by
    simp [withEngine, QVariantMap.value, QVariant.toString]
  have hgroups : s.m_settingsImpl.m_groups ++ [minersGroup] ++ [coin] = [minersGroup, coin] := by
    rw [s.closed]
    rfl
  have hassign := lookup_addMinerParams_assign params
    ((s.m_settingsImpl.beginGroup minersGroup).beginGroup coin)
  simp only [MemorySettings.beginGroup, hgroups] at hassign
  rw [stored]
  simp only [paramName]
  rw [← hassign]
  funext name
  simp only [entry, Settings.addMiner, Settings.inGroups, hwithout, hvalue,
    MemorySettings.endGroup, MemorySettings.beginGroup, hgroups]

theorem lookup_writeMinerParam (s : Settings) (coin key : QString) (v : QVariant) :
    (fun name => (s.writeMinerParam coin key false v).m_settingsImpl.m_settings.lookup name) =
      assign [(paramName coin key, some v)] fun name => s.m_settingsImpl.m_settings.lookup name := by
  have hgroups : s.m_settingsImpl.m_groups ++ [minersGroup] ++ [coin] = [minersGroup, coin] := by
    rw [s.closed]
    rfl
  funext name
  simp only [Settings.writeMinerParam, Settings.inGroups, Settings.minersOf, Bool.false_eq_true,
    if_false, MemorySettings.endGroup, MemorySettings.beginGroup, MemorySettings.setValue, hgroups,
    assign, List.foldl_cons, List.foldl_nil, Function.update_apply, paramName]
  split
  case isTrue hname => rw [hname, AList.lookup_insert]
  case isFalse hname => rw [AList.lookup_insert_ne hname]

theorem mergedPoolKey_eq (coin : QString) :
    mergedPoolKey coin = mergedPoolsGroup ++ '/' :: coin := by
  have htext : "mergedPools/%1".toList = mergedPoolsGroup ++ ['/', '%', '1'] := by decide
  rw [mergedPoolKey, htext]
  simp [arg, markers, marker, markerNumber, digitValue, replaceMarker, mergedPoolsGroup]

theorem paramName_eq (coin key : QString) :
    paramName coin key = join (filled [minersGroup, coin] key) := by
  apply buildPrefix_join
  simp [join_cons_cons]

theorem separator_mem_paramName (coin key : QString) : '\\' ∈ paramName coin key := by
  rw [paramName_eq, filled]
  simp [join_cons_cons]

/-- Names without a separator are in no group, and `init` leaves them alone. -/
def SameRoot (s t : Settings) : Prop :=
  ∀ name, '\\' ∉ name →
    s.m_settingsImpl.m_settings.lookup name = t.m_settingsImpl.m_settings.lookup name

theorem readParam_eq (name : QString) (d : QVariant) :
    s.readParam name d = (s.m_settingsImpl.m_settings.lookup name).getD d := by
  rw [Settings.readParam, MemorySettings.value, s.closed]
  rfl

theorem SameRoot.readParam (h : SameRoot s t) (hname : '\\' ∉ name) (d : QVariant) :
    s.readParam name d = t.readParam name d := by
  rw [readParam_eq, readParam_eq, h name hname]

theorem separator_notMem_of_isEth (h : isEth coin = true) : '\\' ∉ coin := by
  intro hmem
  have hlower : '\\' ∈ coin.map Char.toLower := List.mem_map.mpr ⟨_, hmem, by decide⟩
  simp only [isEth, Bool.or_eq_true, decide_eq_true_eq] at h
  rcases h with h | h <;>
  · rw [h] at hlower
    exact absurd hlower (by decide)

theorem separator_notMem_arg (h : '\\' ∉ coin) : '\\' ∉ arg "%1_port".toList coin := by
  rw [arg]
  split
  · intro hmem
    rcases mem_replaceMarker hmem with hmem | hmem
    · exact absurd hmem (by decide)
    · exact h hmem
  · decide

theorem ethHardCode_congr (h : SameRoot s t) (a : Address) :
    ethHardCode s coin a = ethHardCode t coin a := by
  rw [ethHardCode, ethHardCode]
  split
  case isTrue heth =>
    have hport := separator_notMem_arg (separator_notMem_of_isEth heth)
    rw [h.readParam (by decide), h.readParam hport]
  case isFalse => rfl

theorem mergedPools_engine : ∀ p ∈ mergedPools (mergedMap e), p.1 ≠ engineKey := by
  intro p hp
  obtain ⟨q, -, rfl⟩ := List.mem_map.mp hp
  rw [mergedPoolKey_eq]
  simp [mergedPoolsGroup, engineKey]

theorem poolKey_ne_engineKey : MemorySettings.poolKey ≠ engineKey := by decide

theorem poolParams_engine : ∀ p ∈ poolParams e, p.1 ≠ engineKey := by
  intro p hp
  rw [poolParams] at hp
  rcases List.mem_append.mp hp with hp | hp
  · exact mergedPools_engine p hp
  · cases List.mem_singleton.mp hp
    exact poolKey_ne_engineKey

theorem minerParams_engine {miner_config : Option MinerMap} :
    ∀ p ∈ minerParams s miner_config e, p.1 ≠ engineKey := by
  have hmining : mergedMiningKey ≠ engineKey := by decide
  intro p hp
  rw [minerParams] at hp
  rcases List.mem_append.mp hp with hp | hp
  · split at hp
    · rcases List.mem_pair.mp hp with rfl | rfl
      · exact hmining
      · decide
    · rcases List.mem_cons.mp hp with rfl | hp
      · exact hmining
      · exact mergedPools_engine p hp
  · cases List.mem_singleton.mp hp
    exact poolKey_ne_engineKey

theorem initParams_congr (h : SameRoot s t) : initParams s mm e = initParams t mm e := by
  simp only [initParams, minerParams, ethHardCode_congr h]

theorem entry_initMiner (mm : AList fun _ : QString => MinerMap) (c : Core) (e : String × Json) :
    entry (initMiner mm c e) = assign (stored e.1.toList (initParams c.settings mm e)) (entry c) := by
  rw [initMiner, initParams]
  by_cases hkey : e.1.toList = []
  · simp only [hkey, if_true]
    rfl
  · simp only [hkey, if_false]
    have hvisible := lookup_writeMinerParam c.settings e.1.toList visibleKey
      (.bool (visible (mm.lookup e.1.toList) e))
    by_cases hfamily : knownFamily e = true
    · simp only [hfamily, if_true]
      refine Eq.trans (entry_addMiner (c := { c with m_miners := _ }) minerParams_engine) ?_
      rw [hvisible, ← assign_append]
      rfl
    · simp only [hfamily]
      exact hvisible

theorem last_stored_of_root (hname : '\\' ∉ name) : last (stored coin params) name = none := by
  rw [last_eq_none]
  rintro w hw rfl
  obtain ⟨p, -, rfl⟩ := List.mem_map.mp hw
  exact hname (separator_mem_paramName coin p.1)

theorem entry_foldl_initMiner (h : SameRoot c'.settings c.settings) :
    entry (D.foldl (initMiner mm) c') =
      assign (storedAll (initParams c.settings mm) D) (entry c') := by
  induction D generalizing c' with
  | nil => rfl
  | cons e D ih =>
    have hentry := entry_initMiner mm c' e
    rw [initParams_congr h] at hentry
    have hroot : SameRoot (initMiner mm c' e).settings c.settings := by
      intro name hname
      have hsame := congrFun hentry name
      rw [assign_eq, last_stored_of_root hname] at hsame
      exact hsame.trans (h name hname)
    rw [List.foldl_cons, ih hroot, hentry, ← assign_append]
    rfl

/-- The entries that `init` leaves: of those that are not empty, `visible`, and of those of a known
family the pools. -/
theorem entry_init :
    entry (c.init D) = assign (storedAll (initParams c.settings c.settings.minerList) D) (entry c) :=
  entry_foldl_initMiner fun _ _ => rfl

theorem entry_refresh : entry (c.refresh D) = assign (storedAll poolParams D) (entry c) := by
  induction D generalizing c with
  | nil => rfl
  | cons e D ih =>
    have hentry : entry (refreshMiner c e) = assign (stored e.1.toList (poolParams e)) (entry c) :=
      entry_addMiner poolParams_engine
    rw [refresh, List.foldl_cons, ← refresh, ih, hentry, ← assign_append]
    rfl

theorem refresh_settings (h : c.settings = c'.settings) :
    (c.refresh D).settings = (c'.refresh D).settings := by
  induction D generalizing c c' with
  | nil => exact h
  | cons e D ih =>
    apply ih
    rw [refreshMiner, refreshMiner, h]

/-- With coins, a response is one more reading of the pools. -/
theorem poolResp_settings (hcoins : c.m_miners ≠ []) (hD : D ≠ []) :
    (c.poolResp D).settings = (c.refresh D).settings := by
  have hempty : D.isEmpty = false := by simpa using hD
  have hminers : c.m_miners.isEmpty = false := by simpa using hcoins
  rw [poolResp, hempty]
  simp only [Bool.false_eq_true, if_false]
  split
  · rw [hminers]
    rfl
  · simp only [hminers, Bool.false_eq_true, if_false]
    exact refresh_settings rfl

end Entries
end Core
end MinerGate
