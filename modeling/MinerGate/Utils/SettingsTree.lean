import MinerGate.Lib.Transition
import MinerGate.Utils.Settings

/-!
# The settings as a tree

What the settings in memory are to stand for: a tree of groups with values at its keys, which the
operations on `MemorySettings` change beside the hash. `childKeys` and `childGroups` do not see it:
the name of the open group already ends with the separator when they add one, and the name of
the root is nothing but that separator.
-/

namespace MinerGate

set_option autoImplicit false

open Transition QString

namespace SettingsTree

/-- The settings with the tree they stand for: the value at a path, which is the names of its groups
and its key. -/
structure Tracked where
  settings : MemorySettings
  tree : List QString → Option QVariant

def initial : Tracked := ⟨.new, fun _ => none⟩

inductive Op where
  | beginGroup (name : QString)
  | endGroup
  | setValue (key : QString) (value : QVariant)
  | remove (key : QString)
deriving DecidableEq, Repr

/-- The operations with valid names, and as many groups closed as opened. -/
def step (s : Tracked) : Op → Option Tracked
  | .beginGroup name =>
    if ValidName name then some { s with settings := s.settings.beginGroup name } else none
  | .endGroup =>
    if s.settings.m_groups ≠ [] then some { s with settings := s.settings.endGroup } else none
  | .setValue key value =>
    if ValidName key then
      some ⟨s.settings.setValue key value,
        Function.update s.tree (s.settings.m_groups ++ [key]) (some value)⟩
    else none
  | .remove key =>
    if ValidName key then
      some ⟨s.settings.remove key, Function.update s.tree (s.settings.m_groups ++ [key]) none⟩
    else none

/-- The list has every element of the kind, once, and no other. -/
def Lists {α : Type} (xs : List α) (P : α → Prop) : Prop := xs.Nodup ∧ ∀ x, x ∈ xs ↔ P x

def Tracked.between (s : Tracked) : Settings := ⟨s.settings.under [], false, rfl⟩

/-- The settings show what is in the tree: under any groups the keys and the groups that hold a key,
and through `Settings` the devices that are running and the parameters of the miners. -/
structure Tracked.Enumerates (s : Tracked) : Prop where
  childKeys : ∀ groups, (∀ g ∈ groups, ValidName g) →
    Lists (s.settings.under groups).childKeys fun key => (s.tree (groups ++ [key])).isSome
  childGroups : ∀ groups, (∀ g ∈ groups, ValidName g) →
    Lists (s.settings.under groups).childGroups fun group =>
      ∃ path, path ≠ [] ∧ (s.tree (groups ++ group :: path)).isSome
  isGpuRunning : ∀ coin device value, s.tree [GPU_STATE, coin, device] = some value →
    value.toBool = true → s.between.isGpuRunning coin [] = true
  minerList : ∀ miner key value, s.tree [minersGroup, miner, key] = some value →
    ∃ m, s.between.minerList.lookup miner = some m ∧ m.params.lookup key = some value
  customMinerList : ∀ miner key value, s.tree [customMinersGroup, miner, key] = some value →
    ∃ m, s.between.customMinerList.lookup miner = some m ∧ m.lookup key = some value

/-- The groups are valid, and what is in the hash or in the tree has a valid path; nothing is in the
hash that is not in the tree. -/
structure Tracked.Valid (s : Tracked) : Prop where
  groups : ∀ g ∈ s.settings.m_groups, ValidName g
  hash : ∀ name ∈ s.settings.m_settings, ∃ groups key, (∀ g ∈ groups, ValidName g) ∧
    ValidName key ∧ (s.tree (groups ++ [key])).isSome = true ∧
      name = MemorySettings.buildPrefix groups key
  tree : ∀ path, (s.tree path).isSome = true → path ≠ []

variable {s t : Tracked} {ops : List Op} {op : Op}

theorem Tracked.Valid.initial : initial.Valid :=
  ⟨nofun, fun _ h => absurd h (AList.notMem_empty _), nofun⟩

theorem Tracked.Valid.step (hs : s.Valid) (h : step s op = some t) : t.Valid := by
  cases op with
  | beginGroup name =>
    obtain ⟨hname, h⟩ := Option.ite_none_right_eq_some.mp h
    cases h
    refine ⟨fun g hg => ?_, hs.hash, hs.tree⟩
    rcases List.mem_append.mp hg with hg | hg
    · exact hs.groups g hg
    · cases List.mem_singleton.mp hg
      exact hname
  | endGroup =>
    obtain ⟨-, h⟩ := Option.ite_none_right_eq_some.mp h
    cases h
    exact ⟨fun g hg => hs.groups g (List.dropLast_subset _ hg), hs.hash, hs.tree⟩
  | setValue key value =>
    obtain ⟨hkey, h⟩ := Option.ite_none_right_eq_some.mp h
    cases h
    refine ⟨hs.groups, fun name hname => ?_, fun path hpath => ?_⟩
    · rcases (AList.mem_insert _).mp hname with rfl | hname
      · exact ⟨_, key, hs.groups, hkey, by simp, rfl⟩
      · obtain ⟨groups, k, hgroups, hk, hsome, heq⟩ := hs.hash name hname
        refine ⟨groups, k, hgroups, hk, ?_, heq⟩
        simp only [Function.update_apply]
        split
        · rfl
        · exact hsome
    · rintro rfl
      simp only [Function.update_apply] at hpath
      split at hpath
      case isTrue heq => simp at heq
      case isFalse => exact hs.tree [] hpath rfl
  | remove key =>
    obtain ⟨hkey, h⟩ := Option.ite_none_right_eq_some.mp h
    cases h
    refine ⟨hs.groups, fun name hname => ?_, fun path hpath => ?_⟩
    · obtain ⟨hne, hname⟩ := AList.mem_erase.mp hname
      obtain ⟨groups, k, hgroups, hk, hsome, rfl⟩ := hs.hash name hname
      have hpath : groups ++ [k] ≠ s.settings.m_groups ++ [key] := by
        intro heq
        obtain ⟨hg, hk⟩ := List.append_inj' heq rfl
        cases hg
        cases hk
        exact hne rfl
      refine ⟨groups, k, hgroups, hk, ?_, rfl⟩
      simp only [Function.update_of_ne hpath]
      exact hsome
    · simp only [Function.update_apply] at hpath
      split at hpath
      · cases hpath
      · exact hs.tree path hpath

section Names
variable {names : List QString} {p q : QString}

theorem join_ne_double (h : ∀ x ∈ names, ValidName x) : join names ≠ p ++ '\\' :: '\\' :: q := by
  induction names generalizing p with
  | nil => simp [join]
  | cons x names ih =>
    obtain ⟨hx, hnames⟩ := List.forall_mem_cons.mp h
    cases names with
    | nil =>
      intro heq
      apply hx.2
      rw [show x = join [x] by simp [join], heq]
      simp
    | cons y names =>
      rw [join_cons_cons]
      intro heq
      rcases List.append_eq_append_iff.mp heq with ⟨r, -, hr⟩ | ⟨r, hxp, hr⟩
      · cases r with
        | nil =>
          rw [List.nil_append, List.cons.injEq] at hr
          exact join_ne_separator hnames hr.2
        | cons c r =>
          rw [List.cons_append, List.cons.injEq] at hr
          exact ih hnames hr.2
      · cases r with
        | nil =>
          rw [List.nil_append, List.cons.injEq] at hr
          exact join_ne_separator hnames hr.2.symm
        | cons c r =>
          rw [List.cons_append, List.cons.injEq] at hr
          apply hx.2
          rw [hxp, ← hr.1]
          simp

end Names

/-- No entry has a name that begins with what `childKeys` and `childGroups` look for, when the
second call of `arg` fills its own marker. -/
theorem below_eq_nil {groups : List QString} (hs : s.Valid) (hgroups : ∀ g ∈ groups, ValidName g)
    (hfill : fillMarker groups = 2) :
    (s.settings.under groups).below (s.settings.under groups).curGroup = [] := by
  have hnone : ∀ name ∈ s.settings.m_settings,
      ¬ (s.settings.under groups).curGroup <+: name := by
    rintro name hname ⟨r, hr⟩
    obtain ⟨path, key, hpath, hkey, -, rfl⟩ := hs.hash name hname
    rw [MemorySettings.curGroup, MemorySettings.under, buildPrefix_eq hgroups,
      buildPrefix_eq hpath] at hr
    have hvalid := filled_valid hpath hkey
    by_cases hroot : groups = []
    · refine join_ne_separator hvalid (q := r) ?_
      rw [← hr]
      simp [filled, hroot, join]
    · refine join_ne_double hvalid (p := join (groups.map (replaceMarker 2 [] 0))) (q := r) ?_
      rw [← hr, filled, if_neg hroot, hfill, if_pos rfl, join_concat (by simpa using hroot)]
      simp
  have hfilter : (s.settings.under groups).m_settings.keys.filter
      (fun name => (s.settings.under groups).curGroup.isPrefixOf name) = [] := by
    rw [List.filter_eq_nil_iff]
    intro name hname hpre
    exact hnone name (AList.mem_keys.mpr hname) (List.isPrefixOf_iff_prefix.mp hpre)
  rw [MemorySettings.below, hfilter, List.map_nil]

theorem childKeys_eq_nil (groups : List QString) (hs : s.Valid) (hgroups : ∀ g ∈ groups, ValidName g)
    (hfill : fillMarker groups = 2) : (s.settings.under groups).childKeys = [] := by
  rw [MemorySettings.childKeys, below_eq_nil hs hgroups hfill, List.filterMap_nil]

theorem childGroups_eq_nil (groups : List QString) (hs : s.Valid)
    (hgroups : ∀ g ∈ groups, ValidName g) (hfill : fillMarker groups = 2) :
    (s.settings.under groups).childGroups = [] := by
  rw [MemorySettings.childGroups, below_eq_nil hs hgroups hfill, List.filterMap_nil]

theorem valid_of_run (hrun : exec step initial ops = some s) : s.Valid :=
  exec_invariant_of_step (fun _ _ _ hI h => hI.step h) .initial hrun

/-- Whatever is stored, the lists of the miners are empty. -/
theorem lists_no_miner (hrun : exec step initial ops = some s) :
    s.between.minerList = ∅ ∧ s.between.customMinerList = ∅ := by
  have hs := valid_of_run hrun
  have hnone : ∀ custom,
      (s.between.m_settingsImpl.beginGroup (Settings.minersOf custom)).childGroups = [] := by
    intro custom
    exact childGroups_eq_nil [Settings.minersOf custom] hs (by cases custom <;> decide)
      (by cases custom <;> decide)
  have hminers := hnone false
  have hcustom := hnone true
  simp only [Settings.minersOf, Bool.false_eq_true, if_false, if_true] at hminers hcustom
  constructor
  · rw [Settings.minerList]
    simp only [hminers, List.foldl_nil]
  · rw [Settings.customMinerList]
    simp only [hcustom, List.foldl_nil]

/-- Nothing is running for a coin whose name has no marker that the second `arg` can fill. -/
theorem isGpuRunning_eq_false {coin : QString} (hrun : exec step initial ops = some s)
    (hcoin : ValidName coin) (hfill : fillMarker [GPU_STATE, coin] = 2) :
    s.between.isGpuRunning coin [] = false := by
  have hs := valid_of_run hrun
  have hkeys : ((s.between.m_settingsImpl.beginGroup GPU_STATE).beginGroup coin).childKeys = [] := by
    refine childKeys_eq_nil [GPU_STATE, coin] hs ?_ hfill
    simpa using ⟨by decide, hcoin⟩
  rw [Settings.isGpuRunning]
  simp only [if_true, hkeys, List.any_nil]

section Calls

/-- The calls of `Settings` that write entries of a device or of a miner. -/
inductive Write where
  | setGpuRunning (coin device : QString) (value : Bool)
  | addMiner (params : QVariantMap)
  | addCustomMiner (params : QVariantMap)
deriving DecidableEq, Repr

def Write.apply (s : Settings) : Write → Settings
  | .setGpuRunning coin device value => s.setGpuRunning coin device value
  | .addMiner params => s.addMiner params
  | .addCustomMiner params => s.addCustomMiner params

def ValidParams (params : QVariantMap) : Prop :=
  ValidName (params.value engineKey).toString ∧ ∀ e ∈ params.without engineKey, ValidName e.1

def Write.Valid : Write → Prop
  | .setGpuRunning coin device _ => ValidName coin ∧ ValidName device
  | .addMiner params | .addCustomMiner params => ValidParams params

theorem between_settings (hroot : s.settings.m_groups = []) :
    s.between.m_settingsImpl = s.settings := by
  obtain ⟨⟨settings, groups⟩, tree⟩ := s
  cases hroot
  rfl

theorem inGroups_run {outer inner : QString} {f : MemorySettings → MemorySettings}
    (hf : ∀ u, (f u).m_groups = u.m_groups) (houter : ValidName outer) (hinner : ValidName inner)
    (hroot : s.settings.m_groups = [])
    (hinside : ∀ u : Tracked, ∃ ops t, exec step u ops = some t ∧ t.settings = f u.settings) :
    ∃ ops t, exec step s ops = some t ∧
      t.settings = (s.between.inGroups outer inner f hf).m_settingsImpl := by
  obtain ⟨ops, t, hrun, ht⟩ :=
    hinside ⟨(s.settings.beginGroup outer).beginGroup inner, s.tree⟩
  have hgroups : t.settings.m_groups = [outer, inner] := by
    rw [ht, hf]
    simp [MemorySettings.beginGroup, hroot]
  refine ⟨.beginGroup outer :: .beginGroup inner :: (ops ++ [.endGroup, .endGroup]),
    ⟨t.settings.endGroup.endGroup, t.tree⟩, ?_, ?_⟩
  · apply exec_cons.mpr
    refine ⟨_, if_pos houter, exec_cons.mpr ⟨_, if_pos hinner, exec_append.mpr ⟨t, hrun, ?_⟩⟩⟩
    refine exec_cons.mpr ⟨_, if_pos ?_, exec_cons.mpr ⟨_, if_pos ?_, rfl⟩⟩
    · simp [hgroups]
    · simp [MemorySettings.endGroup, hgroups]
  · show t.settings.endGroup.endGroup =
      (f ((s.between.m_settingsImpl.beginGroup outer).beginGroup inner)).endGroup.endGroup
    rw [ht, between_settings hroot]

/-- The body of `setGpuRunning`, between its groups. -/
def writeFlag (device : QString) (value : Bool) (gCoin : MemorySettings) : MemorySettings :=
  if MemorySettings.toQuint8 (gCoin.value device .invalid) ≠ value.toNat then
    gCoin.setValue device (.bool value)
  else gCoin

theorem writeFlag_m_groups (device : QString) (value : Bool) (u : MemorySettings) :
    (writeFlag device value u).m_groups = u.m_groups := by
  rw [writeFlag]
  split <;> rfl

theorem writeFlag_run {device : QString} {value : Bool} (hdevice : ValidName device)
    (u : Tracked) :
    ∃ ops t, exec step u ops = some t ∧ t.settings = writeFlag device value u.settings := by
  rw [writeFlag]
  split
  case isTrue =>
    exact ⟨[.setValue device (.bool value)], _, exec_cons.mpr ⟨_, if_pos hdevice, rfl⟩, rfl⟩
  case isFalse => exact ⟨[], u, rfl, rfl⟩

theorem addMinerParams_run {params : QVariantMap} (hvalid : ∀ e ∈ params, ValidName e.1)
    (u : Tracked) :
    ∃ ops t, exec step u ops = some t ∧ t.settings = Settings.addMinerParams params u.settings := by
  induction params generalizing u with
  | nil => exact ⟨[], u, rfl, rfl⟩
  | cons e params ih =>
    have hparams := fun d hd => hvalid d (List.mem_cons_of_mem e hd)
    have hkey := hvalid e List.mem_cons_self
    rw [Settings.addMinerParams, List.foldl_cons, ← Settings.addMinerParams]
    split
    case isTrue =>
      obtain ⟨ops, t, hrun, ht⟩ := ih hparams ⟨u.settings.setValue e.1 e.2, _⟩
      exact ⟨.setValue e.1 e.2 :: ops, t, exec_cons.mpr ⟨_, if_pos hkey, hrun⟩, ht⟩
    case isFalse =>
      obtain ⟨ops, t, hrun, ht⟩ := ih hparams ⟨u.settings.remove e.1, _⟩
      exact ⟨.remove e.1 :: ops, t, exec_cons.mpr ⟨_, if_pos hkey, hrun⟩, ht⟩

theorem addCustomMinerParams_run {params : QVariantMap} (hvalid : ∀ e ∈ params, ValidName e.1)
    (u : Tracked) :
    ∃ ops t, exec step u ops = some t ∧
      t.settings = Settings.addCustomMinerParams params u.settings := by
  induction params generalizing u with
  | nil => exact ⟨[], u, rfl, rfl⟩
  | cons e params ih =>
    have hparams := fun d hd => hvalid d (List.mem_cons_of_mem e hd)
    have hkey := hvalid e List.mem_cons_self
    rw [Settings.addCustomMinerParams, List.foldl_cons, ← Settings.addCustomMinerParams]
    obtain ⟨ops, t, hrun, ht⟩ := ih hparams ⟨u.settings.setValue e.1 e.2, _⟩
    exact ⟨.setValue e.1 e.2 :: ops, t, exec_cons.mpr ⟨_, if_pos hkey, hrun⟩, ht⟩

/-- The calls are operations on the tree. -/
theorem write_run {w : Write} (hw : w.Valid) (hroot : s.settings.m_groups = []) :
    ∃ ops t, exec step s ops = some t ∧ t.settings = (w.apply s.between).m_settingsImpl := by
  cases w with
  | setGpuRunning coin device value =>
    exact inGroups_run (writeFlag_m_groups device value) (by decide) hw.1 hroot
      (writeFlag_run hw.2)
  | addMiner params =>
    exact inGroups_run (Settings.addMinerParams_groups _) (by decide) hw.1 hroot
      (addMinerParams_run hw.2)
  | addCustomMiner params =>
    exact inGroups_run (Settings.addCustomMinerParams_groups _) (by decide) hw.1 hroot
      (addCustomMinerParams_run hw.2)

/-- What the calls write is not seen by those that list it. -/
theorem written_not_listed {w : Write} {coin : QString} (hrun : exec step initial ops = some s)
    (hroot : s.settings.m_groups = []) (hw : w.Valid) (hcoin : ValidName coin)
    (hfill : fillMarker [GPU_STATE, coin] = 2) :
    (w.apply s.between).minerList = ∅ ∧ (w.apply s.between).customMinerList = ∅ ∧
      (w.apply s.between).isGpuRunning coin [] = false := by
  obtain ⟨ops', t, hrun', ht⟩ := write_run hw hroot
  have hrun'' := exec_append.mpr ⟨s, hrun, hrun'⟩
  have hlists := lists_no_miner hrun''
  have hdevices := isGpuRunning_eq_false hrun'' hcoin hfill
  have hbetween : t.between.m_settingsImpl = (w.apply s.between).m_settingsImpl := by
    rw [← ht]
    apply between_settings
    rw [ht, (w.apply s.between).closed]
  rw [Settings.minerList, Settings.customMinerList, hbetween] at hlists
  rw [Settings.isGpuRunning, hbetween] at hdevices
  exact ⟨hlists.1, hlists.2, hdevices⟩

end Calls

theorem Lists.nil_iff {α : Type} {P : α → Prop} : Lists [] P ↔ ∀ x, ¬ P x := by
  simp [Lists]

/-- The settings show what is in the tree exactly when nothing is. -/
theorem enumerates_iff (hrun : exec step initial ops = some s) :
    s.Enumerates ↔ ∀ path, s.tree path = none := by
  have hs := valid_of_run hrun
  constructor
  · intro h path
    have hkeys := h.childKeys [] (by simp)
    have hgroups := h.childGroups [] (by simp)
    rw [childKeys_eq_nil [] hs (by simp) rfl, Lists.nil_iff] at hkeys
    rw [childGroups_eq_nil [] hs (by simp) rfl, Lists.nil_iff] at hgroups
    by_contra hsome
    have hsome := Option.ne_none_iff_isSome.mp hsome
    cases path with
    | nil => exact hs.tree [] hsome rfl
    | cons x path =>
      cases path with
      | nil => exact hkeys x hsome
      | cons y path => exact hgroups x ⟨y :: path, by simp, hsome⟩
  · intro hnone
    have hempty : ∀ groups curGroup, (s.settings.under groups).below curGroup = [] := by
      intro groups curGroup
      have hkeys : (s.settings.under groups).m_settings.keys = [] := by
        rw [List.eq_nil_iff_forall_not_mem]
        intro name hname
        obtain ⟨path, key, -, -, hsome, -⟩ := hs.hash name (AList.mem_keys.mp hname)
        rw [hnone] at hsome
        cases hsome
      rw [MemorySettings.below, hkeys]
      rfl
    refine ⟨fun groups _ => ?_, fun groups _ => ?_, ?_, ?_, ?_⟩
    · rw [MemorySettings.childKeys, hempty, List.filterMap_nil, Lists.nil_iff]
      simp [hnone]
    · rw [MemorySettings.childGroups, hempty, List.filterMap_nil, Lists.nil_iff]
      simp [hnone]
    all_goals simp [hnone]

def writeRemove : List Op :=
  [.beginGroup minersGroup, .setValue ['k'] (.bool true), .remove ['k'], .endGroup]

theorem enumerates_writeRemove : ∃ s, exec step initial writeRemove = some s ∧ s.Enumerates := by
  have hrun : exec step initial writeRemove = some _ := rfl
  refine ⟨_, hrun, (enumerates_iff hrun).mpr fun path => ?_⟩
  have hgroups : ((MemorySettings.new.beginGroup minersGroup).setValue ['k'] (.bool true)).m_groups =
      (MemorySettings.new.beginGroup minersGroup).m_groups := rfl
  simp [initial, Function.update_apply, hgroups]

theorem root_key_not_listed :
    ¬ ∀ (ops : List Op) (s : Tracked), exec step initial ops = some s → s.Enumerates := by
  intro h
  have hkeys := (h [.setValue ['k'] (.bool true)] _ rfl).childKeys [] (by simp)
  exact absurd ((hkeys.2 ['k']).mpr rfl) (by decide)

end SettingsTree
end MinerGate
