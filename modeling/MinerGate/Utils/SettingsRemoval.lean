import MinerGate.Utils.Settings

/-!
# Removing the entries of a miner

`QSettings::remove` deletes a key and everything below it; the settings in memory only delete the
one entry that has the name of the key. So `removeCustomMiner`, which names a group, removes none
of the miner's parameters, and an invalid value given to `addMiner` none of its merged pools.
-/

namespace MinerGate

set_option autoImplicit false

open QString

namespace Settings

inductive Removal where
  | removeCustomMiner (key : QString)
  | addMiner (params : QVariantMap)
deriving DecidableEq, Repr

namespace Removal

def apply (s : Settings) : Removal → Settings
  | .removeCustomMiner key => s.removeCustomMiner key
  | .addMiner params => s.addMiner params

def groups : Removal → List QString
  | .removeCustomMiner _ => [customMinersGroup]
  | .addMiner params => [minersGroup, (params.value engineKey).toString]

def removed : Removal → List QString
  | .removeCustomMiner key => [key]
  | .addMiner params => ((params.without engineKey).filter fun e => !e.2.isValid).map (·.1)

def written : Removal → List QString
  | .removeCustomMiner _ => []
  | .addMiner params => ((params.without engineKey).filter fun e => e.2.isValid).map (·.1)

def Writes (c : Removal) (name : QString) : Prop :=
  ∃ key ∈ c.written, MemorySettings.buildPrefix c.groups key = name

/-- The entry has the name of a key that the call removes. -/
def Erases (c : Removal) (name : QString) : Prop :=
  ∃ key ∈ c.removed, MemorySettings.buildPrefix c.groups key = name

instance (c : Removal) (name : QString) : Decidable (c.Writes name) :=
  inferInstanceAs (Decidable (∃ key ∈ c.written, _))

instance (c : Removal) (name : QString) : Decidable (c.Erases name) :=
  inferInstanceAs (Decidable (∃ key ∈ c.removed, _))

end Removal

/-- The path of a name as `QSettings` takes it apart: either slash separates. -/
def keyPath (name : QString) : List QString :=
  (name.splitOnP fun c => c = '\\' ∨ c = '/').filter (· ≠ [])

/-- `QSettings::remove` would remove the entry with one of the keys. -/
def Removal.ErasesBelow (c : Removal) (name : QString) : Prop :=
  ∃ key ∈ c.removed, keyPath (MemorySettings.buildPrefix c.groups key) <+: keyPath name

instance (c : Removal) (name : QString) : Decidable (c.ErasesBelow name) :=
  inferInstanceAs (Decidable (∃ key ∈ c.removed, _))

/-- The entry is a parameter of a group that the call removes: one of its keys, or one that is
written with the group and a slash before it. -/
def Removal.Parameter (c : Removal) (name : QString) : Prop :=
  ∃ key ∈ c.removed, (∃ k, MemorySettings.buildPrefix (c.groups ++ [key]) k = name) ∨
    ∃ k, MemorySettings.buildPrefix c.groups (key ++ '/' :: k) = name

/-- The call removes all that is below its keys: what it has not written itself reads as the default
there, and is as `QSettings` would leave it everywhere. -/
structure Removes (s : Settings) (c : Removal) : Prop where
  params : ∀ key ∈ c.removed, ∀ name default,
    ¬ c.Writes (MemorySettings.buildPrefix (c.groups ++ [key]) name) →
      ((c.apply s).m_settingsImpl.under (c.groups ++ [key])).value name default = default
  slashed : ∀ key ∈ c.removed, ∀ name default,
    ¬ c.Writes (MemorySettings.buildPrefix c.groups (key ++ '/' :: name)) →
      ((c.apply s).m_settingsImpl.under c.groups).value (key ++ '/' :: name) default = default
  others : ∀ name, ¬ c.Writes name →
    (c.apply s).m_settingsImpl.m_settings.lookup name =
      if c.ErasesBelow name then none else s.m_settingsImpl.m_settings.lookup name

/-- Nothing is stored below the keys that the call removes, beside what it names itself. -/
def NothingBelow (s : Settings) (c : Removal) : Prop :=
  ∀ name, c.ErasesBelow name ∨ c.Parameter name → ¬ c.Writes name → ¬ c.Erases name →
    name ∉ s.m_settingsImpl.m_settings

variable {s : Settings} {c : Removal} {key name coin : QString} {custom : Bool} {d v : QVariant}
  {params : QVariantMap}

theorem readMinerParam_eq :
    s.readMinerParam coin name custom d =
      (s.m_settingsImpl.under [minersOf custom, coin]).value name d := by
  have hgroups : s.m_settingsImpl.m_groups ++ [minersOf custom] ++ [coin] =
      [minersOf custom, coin] := by
    rw [s.closed]
    rfl
  simp only [readMinerParam, MemorySettings.under, MemorySettings.beginGroup, MemorySettings.value]
  rw [hgroups]

theorem lookup_removeCustomMiner :
    (s.removeCustomMiner key).m_settingsImpl.m_settings.lookup name =
      if MemorySettings.buildPrefix [customMinersGroup] key = name then none
      else s.m_settingsImpl.m_settings.lookup name := by
  have hgroups : s.m_settingsImpl.m_groups ++ [customMinersGroup] = [customMinersGroup] := by
    rw [s.closed, List.nil_append]
  simp only [removeCustomMiner, MemorySettings.endGroup, MemorySettings.remove,
    MemorySettings.beginGroup, hgroups]
  split
  case isTrue h => rw [h, AList.lookup_erase]
  case isFalse h => rw [AList.lookup_erase_ne (Ne.symm h)]

/-- An entry that `addMiner` does not write is gone when it has the name of a key with an invalid
value, and is as it was otherwise. -/
theorem lookup_addMinerParams {t : MemorySettings}
    (h : ∀ e ∈ params, e.2.isValid = true → MemorySettings.buildPrefix t.m_groups e.1 ≠ name) :
    (addMinerParams params t).m_settings.lookup name =
      if ∃ e ∈ params,
          e.2.isValid = false ∧ MemorySettings.buildPrefix t.m_groups e.1 = name then none
      else t.m_settings.lookup name := by
  induction params generalizing t with
  | nil => simp [addMinerParams]
  | cons e params ih =>
    obtain ⟨he, hparams⟩ := List.forall_mem_cons.mp h
    rw [addMinerParams, List.foldl_cons, ← addMinerParams]
    simp only [List.exists_mem_cons_iff]
    by_cases hvalid : e.2.isValid = true
    · rw [if_pos hvalid, ih (t := t.setValue e.1 e.2) hparams]
      simp only [hvalid, Bool.true_eq_false, false_and, false_or, MemorySettings.setValue]
      rw [AList.lookup_insert_ne (Ne.symm (he hvalid))]
      congr
    · rw [if_neg hvalid, ih (t := t.remove e.1) hparams]
      have hinvalid := Bool.not_eq_true _ ▸ hvalid
      simp only [hinvalid, true_and, MemorySettings.remove]
      by_cases hname : MemorySettings.buildPrefix t.m_groups e.1 = name
      · simp only [hname, AList.lookup_erase, ite_self, true_or, if_true]
      · simp only [hname, false_or]
        rw [AList.lookup_erase_ne (Ne.symm hname)]
        congr

theorem Removal.lookup_apply (h : ¬ c.Writes name) :
    (c.apply s).m_settingsImpl.m_settings.lookup name =
      if c.Erases name then none else s.m_settingsImpl.m_settings.lookup name := by
  cases c with
  | removeCustomMiner key =>
    rw [apply, lookup_removeCustomMiner]
    simp [Erases, removed, groups]
  | addMiner params =>
    have hgroups : ((s.m_settingsImpl.beginGroup minersGroup).beginGroup
        (params.value engineKey).toString).m_groups = groups (.addMiner params) := by
      simp [MemorySettings.beginGroup, s.closed, groups]
    have hwritten : ∀ e ∈ params.without engineKey, e.2.isValid = true →
        MemorySettings.buildPrefix ((s.m_settingsImpl.beginGroup minersGroup).beginGroup
          (params.value engineKey).toString).m_groups e.1 ≠ name := by
      intro e he hvalid heq
      refine h ⟨e.1, List.mem_map.mpr ⟨e, List.mem_filter.mpr ⟨he, hvalid⟩, rfl⟩, ?_⟩
      rw [← hgroups]
      exact heq
    have hlookup := lookup_addMinerParams hwritten
    rw [hgroups] at hlookup
    have herases : (∃ e ∈ params.without engineKey, e.2.isValid = false ∧
        MemorySettings.buildPrefix (groups (.addMiner params)) e.1 = name) ↔
          Erases (.addMiner params) name := by
      constructor
      · rintro ⟨e, he, hinvalid, heq⟩
        have hmem : e ∈ (params.without engineKey).filter fun e => !e.2.isValid :=
          List.mem_filter.mpr ⟨he, by simpa using hinvalid⟩
        exact ⟨e.1, List.mem_map.mpr ⟨e, hmem, rfl⟩, heq⟩
      · rintro ⟨key, hkey, heq⟩
        obtain ⟨e, hmem, rfl⟩ := List.mem_map.mp hkey
        obtain ⟨he, hinvalid⟩ := List.mem_filter.mp hmem
        exact ⟨e, he, by simpa using hinvalid, heq⟩
    simp only [herases] at hlookup
    exact hlookup

theorem buildPrefix_param_ne {group : QString} (hgroup : group ≠ []) (hmark : markers group = []) :
    MemorySettings.buildPrefix [group, key] name ≠ MemorySettings.buildPrefix [group] key := by
  have hkeep : ∀ n, replaceMarker n name 0 group = group := by
    intro n
    apply replaceMarker_of_not_mem
    simp [hmark]
  have hparam : MemorySettings.buildPrefix [group, key] name = join (filled [group, key] name) := by
    apply buildPrefix_join
    simp [join_cons_cons]
  have hname : MemorySettings.buildPrefix [group] key = join [group, key] := by
    rw [buildPrefix_join (by simpa [join] using hgroup), filled_of_unmarked (by simp [hmark])]
    rfl
  intro heq
  rw [hparam, hname] at heq
  have hcount := congrArg (List.count '\\') heq
  have hkey : (key.drop 0).count '\\' ≤
      (replaceMarker (fillMarker [group, key]) name 0 key).count '\\' :=
    count_le_replaceMarker isPlain_backslash
  simp only [count_join, filled, reduceCtorEq, if_false, List.map_cons, List.map_nil,
    List.cons_append,
    List.nil_append, List.sum_cons, List.sum_nil, List.length_cons, List.length_nil, hkeep,
    List.drop_zero] at hcount hkey
  omega

/-- `removeCustomMiner` removes no parameter of the miner. -/
theorem removeCustomMiner_keeps :
    (s.removeCustomMiner key).readMinerParam key name true d = s.readMinerParam key name true d := by
  have hne : MemorySettings.buildPrefix [customMinersGroup] key ≠
      MemorySettings.buildPrefix [customMinersGroup, key] name :=
    (buildPrefix_param_ne (by decide) (by decide)).symm
  have hlookup := (lookup_removeCustomMiner (s := s)).trans (if_neg hne)
  simp only [readMinerParam_eq, MemorySettings.under, MemorySettings.value]
  exact congrArg (·.getD d) hlookup

theorem getD_eq_iff {o : Option QVariant} : (∀ d, o.getD d = d) ↔ o = none := by
  constructor
  · intro h
    cases o with
    | none => rfl
    | some v =>
      have hfalse := h (.bool false)
      have htrue := h (.bool true)
      rw [Option.getD_some] at hfalse htrue
      rw [hfalse] at htrue
      cases htrue
  · rintro rfl d
    rfl

theorem notMem_iff : name ∉ s.m_settingsImpl.m_settings ↔
    s.m_settingsImpl.m_settings.lookup name = none := by
  rw [AList.lookup_eq_none]

/-- A call removes all that is below its keys exactly when nothing is stored there. -/
theorem removes_iff : s.Removes c ↔ s.NothingBelow c := by
  constructor
  · rintro h name hbelow hwrites herases
    rw [notMem_iff]
    have hlookup := Removal.lookup_apply (s := s) hwrites
    rw [if_neg herases] at hlookup
    rw [← hlookup]
    rcases hbelow with hbelow | ⟨key, hkey, hparam | hslash⟩
    · rw [h.others name hwrites, if_pos hbelow]
    · obtain ⟨k, rfl⟩ := hparam
      exact getD_eq_iff.mp fun d => h.params key hkey k d hwrites
    · obtain ⟨k, rfl⟩ := hslash
      exact getD_eq_iff.mp fun d => h.slashed key hkey k d hwrites
  · intro h
    have hnone : ∀ name, c.ErasesBelow name ∨ c.Parameter name → ¬ c.Writes name →
        (c.apply s).m_settingsImpl.m_settings.lookup name = none := by
      intro name hbelow hwrites
      rw [Removal.lookup_apply hwrites]
      by_cases herases : c.Erases name
      · rw [if_pos herases]
      · rw [if_neg herases, ← notMem_iff]
        exact h name hbelow hwrites herases
    refine ⟨fun key hkey name d hwrites => ?_, fun key hkey name d hwrites => ?_,
      fun name hwrites => ?_⟩
    · exact getD_eq_iff.mpr (hnone _ (Or.inr ⟨key, hkey, Or.inl ⟨name, rfl⟩⟩) hwrites) d
    · exact getD_eq_iff.mpr (hnone _ (Or.inr ⟨key, hkey, Or.inr ⟨name, rfl⟩⟩) hwrites) d
    · split
      case isTrue hbelow => exact hnone name (Or.inl hbelow) hwrites
      case isFalse hbelow =>
        have herases : ¬ c.Erases name := by
          rintro ⟨key, hkey, rfl⟩
          exact hbelow ⟨key, hkey, List.prefix_rfl⟩
        rw [Removal.lookup_apply hwrites, if_neg herases]

def mergedPool : QVariantMap :=
  [(engineKey, .string ['e']), (mergedPoolsGroup ++ ['/', 'c'], .string ['u'])]

def noMergedPools : QVariantMap := [(engineKey, .string ['e']), (mergedPoolsGroup, .invalid)]

theorem parameters_survive :
    ¬ (∀ (s : Settings) (key : QString), s.Removes (.removeCustomMiner key)) ∧
      ¬ ∀ (s : Settings) (params : QVariantMap), s.Removes (.addMiner params) := by
  constructor
  · intro h
    have hread := (h (new.writeMinerParam ['k'] ['n'] true (.bool true)) ['k']).params ['k']
      (by decide) ['n'] .invalid (by decide)
    exact absurd hread (by decide)
  · intro h
    have hread := (h (new.addMiner mergedPool) noMergedPools).slashed mergedPoolsGroup
      (by decide) ['c'] .invalid (by decide)
    exact absurd hread (by decide)

end Settings
end MinerGate
