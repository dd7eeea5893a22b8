import MinerGate.Qt.Numbers
import MinerGate.Utils.MemorySettings

/-!
# The two back ends of the settings

`AbstractSettings` has two implementations: the hash of `MemorySettings`, and `FileSettings` over a
`QSettings`, which joins its names by slashes. Both hold one value for each full name, and a name
without separators and place markers keeps its entry apart from all others in both.
-/

namespace MinerGate

set_option autoImplicit false

open QString

/-- The entries of the `QSettings` and its open groups, the outermost first. -/
structure FileSettings where
  m_settings : AList fun _ : QString => QVariant
  m_groups : List QString

namespace FileSettings

def groupPrefix (groups : List QString) : QString := groups.flatMap fun name => name ++ ['/']

def beginGroup (s : FileSettings) (name : QString) : FileSettings :=
  { s with m_groups := s.m_groups ++ [name] }

def endGroup (s : FileSettings) : FileSettings := { s with m_groups := s.m_groups.dropLast }

def setValue (s : FileSettings) (key : QString) (value : QVariant) : FileSettings :=
  { s with m_settings := s.m_settings.insert (groupPrefix s.m_groups ++ key) value }

def value (s : FileSettings) (key : QString) (defaultValue : QVariant) : QVariant :=
  (s.m_settings.lookup (groupPrefix s.m_groups ++ key)).getD defaultValue

/-- The names that start with the open groups and go on without a further one. -/
def childKeys (s : FileSettings) : List QString :=
  ((s.m_settings.keys.filter fun name => (groupPrefix s.m_groups).isPrefixOf name).map
    fun name => name.drop (groupPrefix s.m_groups).length).filter fun key => '/' ∉ key

end FileSettings

inductive AbstractSettings where
  | memory (s : MemorySettings)
  | file (s : FileSettings)

namespace AbstractSettings

def beginGroup (s : AbstractSettings) (name : QString) : AbstractSettings :=
  match s with
  | memory s => memory (s.beginGroup name)
  | file s => file (s.beginGroup name)

def endGroup (s : AbstractSettings) : AbstractSettings :=
  match s with
  | memory s => memory s.endGroup
  | file s => file s.endGroup

def setValue (s : AbstractSettings) (key : QString) (value : QVariant) : AbstractSettings :=
  match s with
  | memory s => memory (s.setValue key value)
  | file s => file (s.setValue key value)

def value (s : AbstractSettings) (key : QString) (defaultValue : QVariant) : QVariant :=
  match s with
  | memory s => s.value key defaultValue
  | file s => s.value key defaultValue

def childKeys (s : AbstractSettings) : List QString :=
  match s with
  | memory s => s.childKeys
  | file s => s.childKeys

/-- The open groups. -/
def groups (s : AbstractSettings) : List QString :=
  match s with
  | memory s => s.m_groups
  | file s => s.m_groups

def entries (s : AbstractSettings) : AList fun _ : QString => QVariant :=
  match s with
  | memory s => s.m_settings
  | file s => s.m_settings

/-- The full name of a key in the groups. -/
def realKey (s : AbstractSettings) (groups : List QString) (key : QString) : QString :=
  match s with
  | memory _ => MemorySettings.buildPrefix groups key
  | file _ => FileSettings.groupPrefix groups ++ key

/-- The value of the key in the groups, each of which is closed again. -/
def valueIn (s : AbstractSettings) (key : QString) : List QString → QVariant
  | [] => s.value key .invalid
  | name :: names => (s.beginGroup name).valueIn key names

def setValueIn (s : AbstractSettings) (key : QString) (value : QVariant) :
    List QString → AbstractSettings
  | [] => s.setValue key value
  | name :: names => ((s.beginGroup name).setValueIn key value names).endGroup

/-- With no group open, `childKeys` has the key for the full name: in memory a name counts only when
it begins with a backslash, and all its backslashes go. -/
def Shows (s : AbstractSettings) (key name : QString) : Prop :=
  match s with
  | memory _ => ['\\'] <+: name ∧ (QString.remove name ['\\']).splitOn '\\' = [key]
  | file _ => name = key ∧ '/' ∉ key

variable {s : AbstractSettings} {key key' name : QString} {value : QVariant}
  {names names' : List QString}

@[simp] theorem groups_beginGroup : (s.beginGroup name).groups = s.groups ++ [name] := by
  cases s <;> rfl

@[simp] theorem groups_endGroup : s.endGroup.groups = s.groups.dropLast := by
  cases s <;> rfl

@[simp] theorem groups_setValue : (s.setValue key value).groups = s.groups := by
  cases s <;> rfl

@[simp] theorem entries_beginGroup : (s.beginGroup name).entries = s.entries := by
  cases s <;> rfl

@[simp] theorem entries_endGroup : s.endGroup.entries = s.entries := by
  cases s <;> rfl

@[simp] theorem entries_setValue :
    (s.setValue key value).entries = s.entries.insert (s.realKey s.groups key) value := by
  cases s <;> rfl

@[simp] theorem realKey_beginGroup : (s.beginGroup name).realKey = s.realKey := by
  cases s <;> rfl

@[simp] theorem realKey_endGroup : s.endGroup.realKey = s.realKey := by
  cases s <;> rfl

@[simp] theorem realKey_setValue : (s.setValue key value).realKey = s.realKey := by
  cases s <;> rfl

theorem value_eq (defaultValue : QVariant) :
    s.value key defaultValue = (s.entries.lookup (s.realKey s.groups key)).getD defaultValue := by
  cases s <;> rfl

theorem valueIn_eq : s.valueIn key names =
    (s.entries.lookup (s.realKey (s.groups ++ names) key)).getD .invalid := by
  induction names generalizing s with
  | nil => rw [valueIn, value_eq, List.append_nil]
  | cons name names ih =>
    rw [valueIn, ih, entries_beginGroup, realKey_beginGroup, groups_beginGroup, List.append_assoc,
      List.singleton_append]

@[simp] theorem groups_setValueIn : (s.setValueIn key value names).groups = s.groups := by
  induction names generalizing s with
  | nil => exact groups_setValue
  | cons name names ih =>
    rw [setValueIn, groups_endGroup, ih, groups_beginGroup, List.dropLast_concat]

@[simp] theorem realKey_setValueIn : (s.setValueIn key value names).realKey = s.realKey := by
  induction names generalizing s with
  | nil => exact realKey_setValue
  | cons name names ih => rw [setValueIn, realKey_endGroup, ih, realKey_beginGroup]

@[simp] theorem shows_beginGroup : (s.beginGroup name).Shows = s.Shows := by
  cases s <;> rfl

@[simp] theorem shows_endGroup : s.endGroup.Shows = s.Shows := by
  cases s <;> rfl

@[simp] theorem shows_setValue : (s.setValue key value).Shows = s.Shows := by
  cases s <;> rfl

@[simp] theorem shows_setValueIn : (s.setValueIn key value names).Shows = s.Shows := by
  induction names generalizing s with
  | nil => exact shows_setValue
  | cons name names ih => rw [setValueIn, shows_endGroup, ih, shows_beginGroup]

theorem entries_setValueIn : (s.setValueIn key value names).entries =
    s.entries.insert (s.realKey (s.groups ++ names) key) value := by
  induction names generalizing s with
  | nil => rw [setValueIn, entries_setValue, List.append_nil]
  | cons name names ih =>
    rw [setValueIn, entries_endGroup, ih, entries_beginGroup, realKey_beginGroup, groups_beginGroup,
      List.append_assoc, List.singleton_append]

end AbstractSettings

/-- A name that neither back end takes apart or fills in. -/
def PlainName (name : QString) : Prop := ValidName name ∧ '/' ∉ name ∧ '%' ∉ name

instance (name : QString) : Decidable (PlainName name) := inferInstanceAs (Decidable (_ ∧ _))

theorem plainName_number (n : Nat) : PlainName (number n) := by
  have hnot : ∀ c : Char, c.isDigit = false → c ∉ number n := by
    intro c hc hmem
    exact ne_of_isDigit (isDigit_of_mem_number hmem) hc rfl
  exact ⟨⟨number_ne_nil n, hnot '\\' rfl⟩, hnot '/' rfl, hnot '%' rfl⟩

namespace FileSettings

theorem groupPrefix_append (groups : List QString) (key : QString) :
    groupPrefix groups ++ key = ['/'].intercalate (groups ++ [key]) := by
  induction groups with
  | nil => simp [groupPrefix]
  | cons name groups ih =>
    rw [groupPrefix] at ih ⊢
    rw [List.flatMap_cons, List.append_assoc, ih]
    cases groups with
    | nil => simp [List.intercalate_cons_cons]
    | cons name' groups => simp [List.intercalate_cons_cons]

theorem groupPrefix_inj {groups groups' : List QString} {key key' : QString}
    (h : ∀ x ∈ groups ++ [key], '/' ∉ x) (h' : ∀ x ∈ groups' ++ [key'], '/' ∉ x)
    (heq : groupPrefix groups ++ key = groupPrefix groups' ++ key') :
    groups ++ [key] = groups' ++ [key'] := by
  rw [groupPrefix_append, groupPrefix_append] at heq
  rw [← List.splitOn_intercalate '/' h (by simp), ← List.splitOn_intercalate '/' h' (by simp)]
  exact congrArg (List.splitOn '/') heq

theorem mem_childKeys {s : FileSettings} {key : QString} :
    key ∈ s.childKeys ↔ groupPrefix s.m_groups ++ key ∈ s.m_settings ∧ '/' ∉ key := by
  rw [childKeys, List.mem_filter, decide_eq_true_eq, List.mem_map]
  refine and_congr_left fun _ => ?_
  constructor
  · rintro ⟨name, hname, rfl⟩
    obtain ⟨hmem, hprefix⟩ := List.mem_filter.mp hname
    obtain ⟨rest, rfl⟩ := List.isPrefixOf_iff_prefix.mp hprefix
    rw [List.drop_left]
    exact AList.mem_keys.mpr hmem
  · intro h
    refine ⟨groupPrefix s.m_groups ++ key, List.mem_filter.mpr ⟨AList.mem_keys.mp h, ?_⟩, ?_⟩
    · exact List.isPrefixOf_iff_prefix.mpr (List.prefix_append _ _)
    · exact List.drop_left

end FileSettings

namespace MemorySettings

theorem mem_childKeys {s : MemorySettings} {key : QString} :
    key ∈ s.childKeys ↔ ∃ name ∈ s.m_settings, s.curGroup <+: name ∧
      (QString.remove name s.curGroup).splitOn '\\' = [key] := by
  rw [childKeys, List.mem_filterMap]
  constructor
  · rintro ⟨path, hpath, hkey⟩
    obtain ⟨name, hname, rfl⟩ := List.mem_map.mp hpath
    obtain ⟨hmem, hprefix⟩ := List.mem_filter.mp hname
    obtain ⟨hlength, hhead⟩ := Option.ite_none_right_eq_some.mp hkey
    refine ⟨name, AList.mem_keys.mpr hmem, List.isPrefixOf_iff_prefix.mp hprefix, ?_⟩
    obtain ⟨x, hx⟩ := List.length_eq_one_iff.mp hlength
    rw [hx, List.head?_cons, Option.some.injEq] at hhead
    rw [hx, hhead]
  · rintro ⟨name, hmem, hprefix, hpath⟩
    refine ⟨[key], List.mem_map.mpr ⟨name, List.mem_filter.mpr ⟨AList.mem_keys.mp hmem, ?_⟩, hpath⟩,
      rfl⟩
    exact List.isPrefixOf_iff_prefix.mpr hprefix

end MemorySettings

namespace AbstractSettings
variable {s : AbstractSettings} {key key' : QString} {value : QVariant}
  {names names' : List QString}

theorem realKey_memory (m : MemorySettings) (h : ∀ x ∈ names ++ [key], PlainName x) :
    (memory m).realKey names key = join (names ++ [key]) := by
  have hnames : ∀ g ∈ names, PlainName g := fun g hg => h g (List.mem_append_left _ hg)
  have hmark : ∀ g ∈ names, ∀ n ∈ markers g, 2 < n := by
    intro g hg n hn
    rw [markers_eq_nil (hnames g hg).2.2] at hn
    cases hn
  rw [realKey, buildPrefix_eq fun g hg => (hnames g hg).1]
  exact congrArg join (filled_of_unmarked hmark)

/-- Plain names keep their entries apart on either back end. -/
theorem realKey_inj (h : ∀ x ∈ names ++ [key], PlainName x)
    (h' : ∀ x ∈ names' ++ [key'], PlainName x)
    (heq : s.realKey names key = s.realKey names' key') : names ++ [key] = names' ++ [key'] := by
  cases s with
  | memory m =>
    rw [realKey_memory m h, realKey_memory m h'] at heq
    exact join_injective (fun x hx => (h x hx).1.2) (fun x hx => (h' x hx).1.2) (by simp) (by simp)
      heq
  | file f =>
    exact FileSettings.groupPrefix_inj (fun x hx => (h x hx).2.1) (fun x hx => (h' x hx).2.1) heq

theorem mem_childKeys (hs : s.groups = []) :
    key ∈ s.childKeys ↔ ∃ name ∈ s.entries, s.Shows key name := by
  cases s with
  | memory m =>
    have hgroups : m.m_groups = [] := hs
    have hcur : m.curGroup = ['\\'] := by
      rw [MemorySettings.curGroup, hgroups]
      rfl
    rw [childKeys, MemorySettings.mem_childKeys, hcur]
    rfl
  | file f =>
    have hgroups : f.m_groups = [] := hs
    rw [childKeys, FileSettings.mem_childKeys, hgroups]
    constructor
    · rintro ⟨hmem, hslash⟩
      exact ⟨key, hmem, rfl, hslash⟩
    · rintro ⟨name, hmem, rfl, hslash⟩
      exact ⟨hmem, hslash⟩

theorem not_shows_realKey (h : ∀ x ∈ names ++ [key'], PlainName x) (hne : names ++ [key'] ≠ [key]) :
    ¬ s.Shows key (s.realKey names key') := by
  cases s with
  | memory m =>
    rintro ⟨⟨rest, hrest⟩, -⟩
    rw [realKey_memory m h] at hrest
    exact join_ne_separator (fun x hx => (h x hx).1) hrest.symm
  | file f =>
    rintro ⟨hname, hslash⟩
    have hkey : ∀ x ∈ [] ++ [key], '/' ∉ x := by
      intro x hx
      rw [List.mem_singleton.mp hx]
      exact hslash
    exact hne (FileSettings.groupPrefix_inj (fun x hx => (h x hx).2.1) hkey hname)

/-- A value that is written changes the root's `childKeys` for no other key. -/
theorem mem_childKeys_setValueIn (hs : s.groups = []) (h : ∀ x ∈ names ++ [key'], PlainName x)
    (hne : names ++ [key'] ≠ [key]) :
    key ∈ (s.setValueIn key' value names).childKeys ↔ key ∈ s.childKeys := by
  rw [mem_childKeys (by rw [groups_setValueIn, hs]), mem_childKeys hs, entries_setValueIn,
    shows_setValueIn, hs, List.nil_append]
  refine exists_congr fun name => and_congr_left fun hshows => ?_
  rw [AList.mem_insert, or_iff_right]
  rintro rfl
  exact not_shows_realKey h hne hshows

end AbstractSettings

/-- Between the calls no group is open. -/
structure SettingsPrivate where
  m_settingsImpl : AbstractSettings
  closed : m_settingsImpl.groups = []

namespace SettingsPrivate

def value (d : SettingsPrivate) (names : List QString) (key : QString) : QVariant :=
  d.m_settingsImpl.valueIn key names

def setValue (d : SettingsPrivate) (names : List QString) (key : QString) (value : QVariant) :
    SettingsPrivate where
  m_settingsImpl := d.m_settingsImpl.setValueIn key value names
  closed := AbstractSettings.groups_setValueIn.trans d.closed

def childKeys (d : SettingsPrivate) : List QString := d.m_settingsImpl.childKeys

/-- The value that is stored under the key in the groups. -/
def entry (d : SettingsPrivate) (names : List QString) (key : QString) : Option QVariant :=
  d.m_settingsImpl.entries.lookup (d.m_settingsImpl.realKey names key)

variable {d : SettingsPrivate} {key key' : QString} {v : QVariant} {names names' : List QString}

theorem value_eq : d.value names key = (d.entry names key).getD .invalid := by
  rw [value, AbstractSettings.valueIn_eq, d.closed]
  rfl

@[simp] theorem entry_setValue_self : (d.setValue names key v).entry names key = some v := by
  rw [entry, setValue, AbstractSettings.entries_setValueIn, AbstractSettings.realKey_setValueIn,
    d.closed]
  exact AList.lookup_insert _

theorem entry_setValue_of_ne (h : ∀ x ∈ names ++ [key], PlainName x)
    (h' : ∀ x ∈ names' ++ [key'], PlainName x) (hne : names' ++ [key'] ≠ names ++ [key]) :
    (d.setValue names key v).entry names' key' = d.entry names' key' := by
  rw [entry, setValue, AbstractSettings.entries_setValueIn, AbstractSettings.realKey_setValueIn,
    d.closed]
  refine AList.lookup_insert_ne fun heq => ?_
  exact hne (AbstractSettings.realKey_inj h' h heq)

theorem mem_childKeys_setValue (h : ∀ x ∈ names ++ [key'], PlainName x)
    (hne : names ++ [key'] ≠ [key]) :
    key ∈ (d.setValue names key' v).childKeys ↔ key ∈ d.childKeys :=
  AbstractSettings.mem_childKeys_setValueIn d.closed h hne

end SettingsPrivate
end MinerGate
