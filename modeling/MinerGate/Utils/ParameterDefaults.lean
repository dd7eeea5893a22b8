import MinerGate.Lib.ReadThrough
import MinerGate.Miner.OclWorkSizes
import MinerGate.Utils.AbstractSettings

/-!
# Parameters with a default in the settings

The readers of five parameters store a default where there is no value: a number that is 0, a path
that is empty, and a flag that `childKeys` does not list. A run of such reads is stable, whatever
the back end, as long as the flag is not among them: its reader stores `false` and returns `true`,
and `childKeys` without a group does not list what is stored in memory.
-/

namespace MinerGate

set_option autoImplicit false

open QString

/-- `value<quint32>()`: the low bits of the number, or of the one that a text writes. -/
def QVariant.toQuint32 : QVariant → UInt32
  | .invalid => 0
  | .bool b => if b then 1 else 0
  | .int n => UInt32.ofNat (n % 4294967296).toNat
  | .string s => UInt32.ofNat (toULongLong (String.ofList s))

/-- `(int)HashFamily` -/
def HashFamily.toInt : HashFamily → Nat
  | Unknown => 0
  | CryptoNight => 1
  | CryptoNightLite => 2
  | Ethereum => 3

/-- The path of a file in the directory. -/
def absoluteFilePath (dir fileName : QString) : QString :=
  if ['/'] <:+ dir then dir ++ fileName else dir ++ '/' :: fileName

def GRID_SIZE : QString := ['g', 'r', 'i', 'd', 'S', 'i', 'z', 'e']
def LOCAL_WORK : QString := ['c', 'l', 'L', 'o', 'c', 'a', 'l', 'W', 'o', 'r', 'k']
def GLOBAL_WORK : QString := ['c', 'l', 'G', 'l', 'o', 'b', 'a', 'l', 'W', 'o', 'r', 'k']
def CUDA : QString := ['C', 'U', 'D', 'A', '-', 'E', 'T', 'H']
def OCL : QString := ['O', 'C', 'L']
def DAG_DIR : QString := ['d', 'a', 'g', 'D', 'i', 'r']
def DAG_IN_MEMORY : QString := ['d', 'a', 'g', 'I', 'n', 'M', 'e', 'm', 'o', 'r', 'y']

/-- `.ethash-minergate` -/
def DEFAULT_DAG_DIR : QString :=
  ['.', 'e', 't', 'h', 'a', 's', 'h', '-', 'm', 'i', 'n', 'e', 'r', 'g', 'a', 't', 'e']

def CUDA_DEFAULT_GRIDSIZE : UInt32 := 32
def OCL_DEFAULT_LOCAL_WORK_SIZE_CRYPTONOTE : UInt32 := 16
def OCL_DEFAULT_GLOBAL_WORK_SIZE_MULTIPLIER_CRYPTONOTE : UInt32 := 16
def OCL_DEFAULT_LOCAL_WORK_SIZE_ETH : UInt32 := 64
def OCL_DEFAULT_GLOBAL_WORK_SIZE_MULTIPLIER_ETH : UInt32 := 4096

def defaultLocalWork (family : HashFamily) : UInt32 :=
  if family = .Ethereum then OCL_DEFAULT_LOCAL_WORK_SIZE_ETH
  else OCL_DEFAULT_LOCAL_WORK_SIZE_CRYPTONOTE

def defaultGlobalWork (family : HashFamily) : UInt32 :=
  if family = .Ethereum then OCL_DEFAULT_GLOBAL_WORK_SIZE_MULTIPLIER_ETH
  else OCL_DEFAULT_GLOBAL_WORK_SIZE_MULTIPLIER_CRYPTONOTE

namespace SettingsPrivate

def ethCudaSetGridSize (d : SettingsPrivate) (deviceNo value : UInt32) : SettingsPrivate :=
  d.setValue [CUDA, number deviceNo.toNat] GRID_SIZE (.int value.toNat)

def setClLocalWork (d : SettingsPrivate) (deviceNo : UInt32) (family : HashFamily)
    (value : UInt32) : SettingsPrivate :=
  d.setValue [OCL, number deviceNo.toNat, number family.toInt] LOCAL_WORK (.int value.toNat)

def setClGlobalWork (d : SettingsPrivate) (deviceNo : UInt32) (family : HashFamily)
    (value : UInt32) : SettingsPrivate :=
  d.setValue [OCL, number deviceNo.toNat, number family.toInt] GLOBAL_WORK (.int value.toNat)

def setDagDir (d : SettingsPrivate) (value : QString) : SettingsPrivate :=
  d.setValue [] DAG_DIR (.string value)

/-- A number that is 0 is replaced by the default, which is stored. -/
def numberOr (d : SettingsPrivate) (value default : UInt32) (store : UInt32 → SettingsPrivate) :
    UInt32 × SettingsPrivate :=
  if value = 0 then (default, store default) else (value, d)

def ethCudaGridSize (d : SettingsPrivate) (deviceNo : UInt32) : UInt32 × SettingsPrivate :=
  d.numberOr (d.value [CUDA, number deviceNo.toNat] GRID_SIZE).toQuint32 CUDA_DEFAULT_GRIDSIZE
    (d.ethCudaSetGridSize deviceNo)

def clLocalWork (d : SettingsPrivate) (deviceNo : UInt32) (family : HashFamily) :
    UInt32 × SettingsPrivate :=
  d.numberOr (d.value [OCL, number deviceNo.toNat, number family.toInt] LOCAL_WORK).toQuint32
    (defaultLocalWork family) (d.setClLocalWork deviceNo family)

def clGlobalWork (d : SettingsPrivate) (deviceNo : UInt32) (family : HashFamily) :
    UInt32 × SettingsPrivate :=
  d.numberOr (d.value [OCL, number deviceNo.toNat, number family.toInt] GLOBAL_WORK).toQuint32
    (defaultGlobalWork family) (d.setClGlobalWork deviceNo family)

/-- `homeDir` is the path of `Env::homeDir()`. -/
def dagDir (d : SettingsPrivate) (homeDir : QString) : QString × SettingsPrivate :=
  let value := (d.value [] DAG_DIR).toString
  if value = [] then
    let value := absoluteFilePath homeDir DEFAULT_DAG_DIR
    (value, d.setDagDir value)
  else (value, d)

def dagInMemory (d : SettingsPrivate) : Bool × SettingsPrivate :=
  if DAG_IN_MEMORY ∈ d.childKeys then ((d.value [] DAG_IN_MEMORY).toBool, d)
  else (true, d.setValue [] DAG_IN_MEMORY (.bool false))

end SettingsPrivate

inductive Param where
  | ethCudaGridSize (deviceNo : UInt32)
  | clLocalWork (deviceNo : UInt32) (family : HashFamily)
  | clGlobalWork (deviceNo : UInt32) (family : HashFamily)
  | dagDir
  | dagInMemory
deriving DecidableEq, Repr

inductive ParamValue where
  | number (n : UInt32)
  | path (s : QString)
  | flag (b : Bool)
deriving DecidableEq, Repr

def SettingsPrivate.read (homeDir : QString) (d : SettingsPrivate) :
    Param → ParamValue × SettingsPrivate
  | .ethCudaGridSize deviceNo => (d.ethCudaGridSize deviceNo).map .number id
  | .clLocalWork deviceNo family => (d.clLocalWork deviceNo family).map .number id
  | .clGlobalWork deviceNo family => (d.clGlobalWork deviceNo family).map .number id
  | .dagDir => (d.dagDir homeDir).map .path id
  | .dagInMemory => d.dagInMemory.map .flag id

namespace Param

/-- The groups of the parameter. -/
def groups : Param → List QString
  | ethCudaGridSize deviceNo => [CUDA, number deviceNo.toNat]
  | clLocalWork deviceNo family => [OCL, number deviceNo.toNat, number family.toInt]
  | clGlobalWork deviceNo family => [OCL, number deviceNo.toNat, number family.toInt]
  | dagDir => []
  | dagInMemory => []

def key : Param → QString
  | ethCudaGridSize _ => GRID_SIZE
  | clLocalWork _ _ => LOCAL_WORK
  | clGlobalWork _ _ => GLOBAL_WORK
  | dagDir => DAG_DIR
  | dagInMemory => DAG_IN_MEMORY

/-- What an entry counts as: 0 and the empty path count as nothing. -/
def decode (v : QVariant) : Param → Option ParamValue
  | ethCudaGridSize _ | clLocalWork _ _ | clGlobalWork _ _ =>
    if v.toQuint32 = 0 then none else some (.number v.toQuint32)
  | dagDir => if v.toString = [] then none else some (.path v.toString)
  | dagInMemory => some (.flag v.toBool)

/-- The default that the reader stores. -/
def saved (homeDir : QString) : Param → ParamValue
  | ethCudaGridSize _ => .number CUDA_DEFAULT_GRIDSIZE
  | clLocalWork _ family => .number (defaultLocalWork family)
  | clGlobalWork _ family => .number (defaultGlobalWork family)
  | dagDir => .path (absoluteFilePath homeDir DEFAULT_DAG_DIR)
  | dagInMemory => .flag false

/-- The default that it returns. -/
def returned (homeDir : QString) : Param → ParamValue
  | dagInMemory => .flag true
  | p => p.saved homeDir

end Param

def ParamValue.toQVariant : ParamValue → QVariant
  | number n => .int n.toNat
  | path s => .string s
  | flag b => .bool b

namespace SettingsPrivate

/-- The value that is stored for the parameter. -/
def stored (d : SettingsPrivate) (p : Param) : Option ParamValue :=
  (d.entry p.groups p.key).bind p.decode

/-- The value that its reader finds. -/
def found (d : SettingsPrivate) : Param → Option ParamValue
  | .dagInMemory =>
    if DAG_IN_MEMORY ∈ d.childKeys then some (.flag (d.value [] DAG_IN_MEMORY).toBool) else none
  | p => d.stored p

end SettingsPrivate

def parameterReader (homeDir : QString) : ReadThrough SettingsPrivate Param ParamValue where
  find := SettingsPrivate.found
  load := SettingsPrivate.stored
  save d p := d.setValue p.groups p.key (p.saved homeDir).toQVariant
  returned := Param.returned homeDir
  saved := Param.saved homeDir

namespace Param
variable {homeDir : QString} {p q : Param}

theorem toInt_inj {family family' : HashFamily} (h : family.toInt = family'.toInt) :
    family = family' := by
  cases family <;> cases family' <;> first | rfl | cases h

theorem number_toNat_inj {m n : UInt32} (h : number m.toNat = number n.toNat) : m = n :=
  UInt32.toNat_inj.mp (number_inj h)

theorem plain_path (p : Param) : ∀ x ∈ p.groups ++ [p.key], PlainName x := by
  intro x hx
  cases p with
  | ethCudaGridSize deviceNo =>
    simp only [groups, key, List.cons_append, List.nil_append, List.mem_cons, List.not_mem_nil,
      or_false] at hx
    rcases hx with rfl | rfl | rfl
    · decide
    · exact plainName_number _
    · decide
  | clLocalWork deviceNo family | clGlobalWork deviceNo family =>
    simp only [groups, key, List.cons_append, List.nil_append, List.mem_cons, List.not_mem_nil,
      or_false] at hx
    rcases hx with rfl | rfl | rfl | rfl
    · decide
    · exact plainName_number _
    · exact plainName_number _
    · decide
  | dagDir | dagInMemory =>
    cases List.mem_singleton.mp hx
    decide

theorem ocl_groups_inj {m n : UInt32} {family family' : HashFamily}
    (h : [OCL, number m.toNat, number family.toInt] =
      [OCL, number n.toNat, number family'.toInt]) : m = n ∧ family = family' := by
  have hnames := (List.cons.inj h).2
  have hfamily := (List.cons.inj (List.cons.inj hnames).2).1
  exact ⟨number_toNat_inj (List.cons.inj hnames).1, toInt_inj (number_inj hfamily)⟩

/-- Two parameters have two paths. -/
theorem path_inj (h : p.groups ++ [p.key] = q.groups ++ [q.key]) : p = q := by
  obtain ⟨hgroups, hkey⟩ := List.append_inj' h rfl
  cases p <;> cases q
  all_goals simp [key, GRID_SIZE, LOCAL_WORK, GLOBAL_WORK, DAG_DIR, DAG_IN_MEMORY] at hkey
  case ethCudaGridSize.ethCudaGridSize m n =>
    rw [number_toNat_inj (List.cons.inj (List.cons.inj hgroups).2).1]
  case clLocalWork.clLocalWork m family n family' =>
    obtain ⟨hm, hfamily⟩ := ocl_groups_inj hgroups
    rw [hm, hfamily]
  case clGlobalWork.clGlobalWork m family n family' =>
    obtain ⟨hm, hfamily⟩ := ocl_groups_inj hgroups
    rw [hm, hfamily]
  case dagDir.dagDir => rfl
  case dagInMemory.dagInMemory => rfl

theorem absoluteFilePath_ne_nil (dir : QString) {fileName : QString} (h : fileName ≠ []) :
    absoluteFilePath dir fileName ≠ [] := by
  rw [absoluteFilePath]
  split
  · exact fun heq => h (List.append_eq_nil_iff.mp heq).2
  · simp

theorem toQuint32_int (n : UInt32) : (QVariant.int n.toNat).toQuint32 = n := by
  have hlt := n.toNat_lt
  have hmod : ((n.toNat : Int) % 4294967296).toNat = n.toNat := by omega
  rw [QVariant.toQuint32, hmod]
  exact UInt32.ofNat_toNat

/-- Every default that is stored passes the check of its reader. -/
theorem decode_saved (p : Param) :
    p.decode (p.saved homeDir).toQVariant = some (p.saved homeDir) := by
  have hnumber : ∀ n : UInt32, n ≠ 0 →
      (if (QVariant.int n.toNat).toQuint32 = 0 then none
        else some (ParamValue.number (QVariant.int n.toNat).toQuint32)) = some (.number n) := by
    intro n hn
    rw [toQuint32_int, if_neg hn]
  cases p with
  | ethCudaGridSize deviceNo => exact hnumber CUDA_DEFAULT_GRIDSIZE (by decide)
  | clLocalWork deviceNo family =>
    exact hnumber (defaultLocalWork family) (by cases family <;> decide)
  | clGlobalWork deviceNo family =>
    exact hnumber (defaultGlobalWork family) (by cases family <;> decide)
  | dagDir => exact if_neg (absoluteFilePath_ne_nil homeDir (by decide))
  | dagInMemory => rfl

theorem decode_invalid (h : p ≠ dagInMemory) : p.decode .invalid = none := by
  cases p with
  | dagInMemory => exact absurd rfl h
  | _ => rfl

theorem returned_eq_saved (h : p ≠ dagInMemory) : p.returned homeDir = p.saved homeDir := by
  cases p with
  | dagInMemory => exact absurd rfl h
  | _ => rfl

end Param

namespace SettingsPrivate
variable {homeDir : QString} {d : SettingsPrivate} {p q : Param} {v : QVariant}

theorem stored_eq (h : p.decode .invalid = none) :
    d.stored p = p.decode (d.value p.groups p.key) := by
  rw [stored, value_eq]
  cases d.entry p.groups p.key with
  | none => exact h.symm
  | some v => rfl

theorem stored_setValue_self : (d.setValue p.groups p.key v).stored p = p.decode v := by
  rw [stored, entry_setValue_self, Option.bind_some]

theorem entry_setValue_ne (h : q ≠ p) :
    (d.setValue p.groups p.key v).entry q.groups q.key = d.entry q.groups q.key :=
  entry_setValue_of_ne p.plain_path q.plain_path fun hpath => h (Param.path_inj hpath)

theorem stored_setValue_ne (h : q ≠ p) : (d.setValue p.groups p.key v).stored q = d.stored q := by
  rw [stored, entry_setValue_ne h, stored]

theorem found_eq_stored (h : p ≠ .dagInMemory) : d.found p = d.stored p := by
  cases p with
  | dagInMemory => exact absurd rfl h
  | _ => rfl

theorem found_of_listed (h : DAG_IN_MEMORY ∈ d.childKeys) :
    d.found .dagInMemory = some (.flag (d.value [] DAG_IN_MEMORY).toBool) := if_pos h

theorem found_of_not_listed (h : DAG_IN_MEMORY ∉ d.childKeys) : d.found .dagInMemory = none :=
  if_neg h

theorem found_setValue_ne (h : q ≠ p) : (d.setValue p.groups p.key v).found q = d.found q := by
  by_cases hflag : q = .dagInMemory
  · subst hflag
    have hpath : p.groups ++ [p.key] ≠ [DAG_IN_MEMORY] := by
      intro hpath
      exact h (Param.path_inj (q := p) hpath.symm)
    have hentry := entry_setValue_ne (d := d) (v := v) h
    simp only [found, mem_childKeys_setValue p.plain_path hpath, value_eq]
    rw [Param.groups, Param.key] at hentry
    rw [hentry]
  · rw [found_eq_stored hflag, stored_setValue_ne h, found_eq_stored hflag]

section NumberOr
variable {value default : UInt32} {store : UInt32 → SettingsPrivate} {u : ParamValue}

theorem numberOr_of_some
    (h : (if value = 0 then none else some (ParamValue.number value)) = some u) :
    (d.numberOr value default store).map ParamValue.number id = (u, d) := by
  obtain ⟨hvalue, hu⟩ := Option.ite_none_left_eq_some.mp h
  rw [numberOr, if_neg hvalue, ← Option.some.inj hu]
  rfl

theorem numberOr_of_none
    (h : (if value = 0 then none else some (ParamValue.number value)) = none) :
    (d.numberOr value default store).map ParamValue.number id =
      (.number default, store default) := by
  have hvalue : value = 0 := by
    by_contra hne
    rw [if_neg hne] at h
    cases h
  rw [numberOr, if_pos hvalue]
  rfl

end NumberOr

theorem read_of_some {u : ParamValue} (hflag : p ≠ .dagInMemory)
    (h : p.decode (d.value p.groups p.key) = some u) : d.read homeDir p = (u, d) := by
  cases p with
  | dagInMemory => exact absurd rfl hflag
  | dagDir =>
    obtain ⟨hne, hu⟩ : (d.value [] DAG_DIR).toString ≠ [] ∧
        some (ParamValue.path (d.value [] DAG_DIR).toString) = some u :=
      Option.ite_none_left_eq_some.mp h
    rw [read, dagDir]
    simp only [if_neg hne]
    rw [← Option.some.inj hu]
    rfl
  | ethCudaGridSize deviceNo | clLocalWork deviceNo family | clGlobalWork deviceNo family =>
    exact numberOr_of_some h

theorem read_of_none (hflag : p ≠ .dagInMemory) (h : p.decode (d.value p.groups p.key) = none) :
    d.read homeDir p =
      (p.returned homeDir, d.setValue p.groups p.key (p.saved homeDir).toQVariant) := by
  cases p with
  | dagInMemory => exact absurd rfl hflag
  | dagDir =>
    have hempty : (d.value [] DAG_DIR).toString = [] := by
      by_contra hne
      rw [Param.decode, Param.groups, Param.key, if_neg hne] at h
      cases h
    rw [read, dagDir]
    simp only [if_pos hempty]
    rfl
  | ethCudaGridSize deviceNo | clLocalWork deviceNo family | clGlobalWork deviceNo family =>
    exact numberOr_of_none h

/-- The readers of the source are those that the rule for stable reads is about. -/
theorem read_eq (homeDir : QString) (d : SettingsPrivate) (p : Param) :
    d.read homeDir p = (parameterReader homeDir).get d p := by
  by_cases hflag : p = .dagInMemory
  · subst hflag
    by_cases hlisted : DAG_IN_MEMORY ∈ d.childKeys
    · refine Eq.trans ?_ (ReadThrough.get_of_find (found_of_listed hlisted)).symm
      rw [read, dagInMemory, if_pos hlisted]
      rfl
    · refine Eq.trans ?_ (ReadThrough.get_of_none (found_of_not_listed hlisted)).symm
      rw [read, dagInMemory, if_neg hlisted]
      rfl
  · have hfind : (parameterReader homeDir).find d p = p.decode (d.value p.groups p.key) :=
      (found_eq_stored hflag).trans (stored_eq (Param.decode_invalid hflag))
    cases hvalue : p.decode (d.value p.groups p.key) with
    | some u => rw [ReadThrough.get_of_find (hfind.trans hvalue), read_of_some hflag hvalue]
    | none =>
      rw [ReadThrough.get_of_none (hfind.trans hvalue), read_of_none hflag hvalue]
      rfl

theorem parameterReader_lawful (homeDir : QString) : (parameterReader homeDir).Lawful where
  load_save_self d p := stored_setValue_self.trans p.decode_saved
  load_save_ne d p q h := stored_setValue_ne h
  find_save_ne d p q h := found_setValue_ne h
  find_save_self d p h := by
    have hstored : (d.setValue p.groups p.key (p.saved homeDir).toQVariant).stored p =
        some (p.saved homeDir) := stored_setValue_self.trans p.decode_saved
    by_cases hflag : p = .dagInMemory
    · subst hflag
      have hentry : (d.setValue [] DAG_IN_MEMORY (.bool false)).entry [] DAG_IN_MEMORY =
          some (.bool false) := entry_setValue_self
      change found (d.setValue [] DAG_IN_MEMORY (.bool false)) .dagInMemory = none ∨
        found (d.setValue [] DAG_IN_MEMORY (.bool false)) .dagInMemory = some (.flag false)
      rw [found, value_eq, hentry]
      split
      · exact Or.inr rfl
      · exact Or.inl rfl
    · exact Or.inr ((found_eq_stored hflag).trans hstored)

/-- Whether the flag is stored where its reader looks for it. -/
def FlagListed (d : SettingsPrivate) : Prop :=
  DAG_IN_MEMORY ∈ d.childKeys ∧ (d.entry [] DAG_IN_MEMORY).isSome = true

/-- In a file the flag is listed once it is stored. -/
theorem flagListed_file {f : FileSettings} (hf : f.m_groups = []) :
    FlagListed ⟨.file f, hf⟩ ↔ DAG_IN_MEMORY ∈ f.m_settings := by
  have hslash : '/' ∉ DAG_IN_MEMORY := by decide
  have hlisted : DAG_IN_MEMORY ∈ f.childKeys ↔ DAG_IN_MEMORY ∈ f.m_settings := by
    rw [FileSettings.mem_childKeys, hf]
    exact and_iff_left hslash
  refine (and_congr hlisted AList.lookup_isSome).trans ?_
  exact and_self_iff

/-- In memory it takes an entry whose name begins with a backslash as well. -/
theorem flagListed_memory {m : MemorySettings} (hm : m.m_groups = []) :
    FlagListed ⟨.memory m, hm⟩ ↔ (∃ name ∈ m.m_settings, ['\\'] <+: name ∧
      (QString.remove name ['\\']).splitOn '\\' = [DAG_IN_MEMORY]) ∧
        DAG_IN_MEMORY ∈ m.m_settings :=
  and_congr (AbstractSettings.mem_childKeys (s := .memory m) hm) AList.lookup_isSome

theorem stored_flag_iff :
    d.stored .dagInMemory = some (.flag (d.value [] DAG_IN_MEMORY).toBool) ↔
      (d.entry [] DAG_IN_MEMORY).isSome = true := by
  rw [value_eq]
  change (d.entry [] DAG_IN_MEMORY).bind _ = _ ↔ _
  cases d.entry [] DAG_IN_MEMORY with
  | none => exact iff_of_false (fun h => (by cases h)) (fun h => (by cases h))
  | some v => exact iff_of_true rfl rfl

theorem steady_iff :
    (parameterReader homeDir).Steady d p ↔ (p = .dagInMemory → d.FlagListed) := by
  by_cases hflag : p = .dagInMemory
  · subst hflag
    by_cases hlisted : DAG_IN_MEMORY ∈ d.childKeys
    · have hsteady : (parameterReader homeDir).Steady d .dagInMemory ↔
          (d.entry [] DAG_IN_MEMORY).isSome = true :=
        (ReadThrough.steady_of_find (found_of_listed hlisted)).trans stored_flag_iff
      rw [hsteady]
      exact ⟨fun h _ => ⟨hlisted, h⟩, fun h => (h rfl).2⟩
    · refine iff_of_false (fun h => ?_) fun h => hlisted (h rfl).1
      obtain ⟨hdefault, -⟩ := (ReadThrough.steady_of_none (found_of_not_listed hlisted)).mp h
      cases hdefault
  · refine iff_of_true ?_ fun h => absurd h hflag
    exact ReadThrough.steady_of_find_eq (found_eq_stored hflag) (Param.returned_eq_saved hflag)

/-- The OpenCL miners set their sizes up from what these two readers return. -/
theorem clWork_eq (deviceNo : UInt32) (family : HashFamily) :
    let groups := [OCL, number deviceNo.toNat, number family.toInt]
    let settings : OclWorkSizes.ClSettings :=
      ⟨(d.value groups LOCAL_WORK).toQuint32, (d.value groups GLOBAL_WORK).toQuint32⟩
    (d.clLocalWork deviceNo family).1 = OclWorkSizes.clLocalWork settings family ∧
      (d.clGlobalWork deviceNo family).1 = OclWorkSizes.clGlobalWork settings family := by
  constructor
  · rw [clLocalWork, numberOr, OclWorkSizes.clLocalWork]
    split <;> rfl
  · rw [clGlobalWork, numberOr, OclWorkSizes.clGlobalWork]
    split <;> rfl

/-- What the reads of the parameters return, one after the other. -/
def readAll (homeDir : QString) (d : SettingsPrivate) (ps : List Param) :
    List (Param × ParamValue) × SettingsPrivate :=
  ReadThrough.readAll (read homeDir) d ps

def ReadsStable (homeDir : QString) (d : SettingsPrivate) (ps : List Param) : Prop :=
  ReadThrough.Stable stored d (d.readAll homeDir ps).1 (d.readAll homeDir ps).2

theorem readsStable_iff (homeDir : QString) (d : SettingsPrivate) (ps : List Param) :
    d.ReadsStable homeDir ps ↔ (.dagInMemory ∈ ps → d.FlagListed) := by
  have hread : read homeDir = (parameterReader homeDir).get := by
    funext d p
    exact read_eq homeDir d p
  rw [ReadsStable, readAll, hread]
  refine (ReadThrough.stable_readAll_iff (parameterReader_lawful homeDir)).trans ?_
  constructor
  · intro h hmem
    exact steady_iff.mp (h _ hmem) rfl
  · intro h p hp
    apply steady_iff.mpr
    rintro rfl
    exact h hp

/-- The settings at the start of the program. -/
def new : SettingsPrivate := ⟨.memory .new, rfl⟩

theorem flag_default_differs :
    ¬ ∀ (homeDir : QString) (d : SettingsPrivate) (ps : List Param), d.ReadsStable homeDir ps := by
  intro h
  have hafter := (h [] new [.dagInMemory]).after .dagInMemory (.flag true) List.mem_cons_self
  have hstored : (new.readAll [] [.dagInMemory]).2.stored .dagInMemory = some (.flag false) := rfl
  rw [hstored] at hafter
  cases hafter

/-- In a file with no entry the second read finds what the first one stored. -/
example : ((⟨.file ⟨∅, []⟩, rfl⟩ : SettingsPrivate).readAll [] [.dagInMemory, .dagInMemory]).1 =
    [(.dagInMemory, .flag true), (.dagInMemory, .flag false)] := by decide

end SettingsPrivate
end MinerGate
