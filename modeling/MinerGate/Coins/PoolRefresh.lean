import MinerGate.Coins.PoolConfig

/-!
# The pool document read again

The loop for the later responses writes the pools of every entry. So it changes what `init` has left
for the entries that `init` skips and for an address that the settings have in place of the one of
the document, and pools that are no longer in the document stay.
-/

namespace MinerGate

set_option autoImplicit false

open Assignments QString

namespace Core

def IsPoolKey (key : QString) : Prop :=
  key = MemorySettings.poolKey ∨ ∃ coin, key = mergedPoolKey coin

/-- Every parameter of a coin is the same. -/
def ParamsAlike (c c' : Core) : Prop :=
  ∀ coin key d, c.settings.readMinerParam coin key false d =
    c'.settings.readMinerParam coin key false d

def PoolsAlike (c c' : Core) : Prop :=
  ∀ coin key d, IsPoolKey key →
    c.settings.readMinerParam coin key false d = c'.settings.readMinerParam coin key false d

def Holds (c : Core) (coin : QString) (p : QString × QVariant) : Prop :=
  ∀ d, c.settings.readMinerParam coin p.1 false d = p.2

/-- `init` makes a coin of the entry. -/
def Loads (e : String × Json) : Prop := e.1.toList ≠ [] ∧ knownFamily e = true

instance (e : String × Json) : Decidable (Loads e) := inferInstanceAs (Decidable (_ ∧ _))

/-- Reading the entry again finds its pools in place: the settings have no other address for a coin
that `init` makes, and they have had the pools of any other entry already. -/
def Ready (c : Core) (e : String × Json) : Prop :=
  if Loads e then
    (ethHardCode c.settings e.1.toList (Address.ofMap (serverMap e))).url =
      (Address.ofMap (serverMap e)).url
  else ∀ p ∈ poolParams e, Holds c e.1.toList p

def initPools (s : Settings) (e : String × Json) : QVariantMap :=
  mergedPools (mergedMap e) ++ pool (ethHardCode s e.1.toList (Address.ofMap (serverMap e)))

/-- The pools of the first document that the second one no longer names have been in the settings
before. -/
def NoneLeft (c : Core) (D D' : JsonObject) : Prop :=
  ∀ e ∈ D, Loads e → ∀ p ∈ initPools c.settings e,
    (∃ e' ∈ D', e'.1 = e.1 ∧ ∃ q ∈ poolParams e', q.1 = p.1) ∨ Holds c e.1.toList p

/-- A name that `QString::arg` does not read as a pattern, and that is one level of the settings. -/
def PlainName (coin : QString) : Prop := '\\' ∉ coin ∧ ∀ n ∈ markers coin, 2 < n

instance (coin : QString) : Decidable (PlainName coin) := inferInstanceAs (Decidable (_ ∧ _))

/-- A document with plain names, where no name stands twice. -/
structure Plain (D : JsonObject) : Prop where
  names : ∀ e ∈ D, PlainName e.1.toList
  entries : (D.map (·.1)).Nodup
  merged : ∀ e ∈ D, ((mergedMap e).map (·.1)).Nodup

abbrev initStored (c : Core) (D : JsonObject) : List (QString × Option QVariant) :=
  storedAll (initParams c.settings c.settings.minerList) D

abbrev poolStored (D : JsonObject) : List (QString × Option QVariant) := storedAll poolParams D

section Read
variable {c c' : Core} {s : Settings} {coin coin' key key' name : QString} {v : QVariant}
  {e e' : String × Json} {D D' : JsonObject} {params : QVariantMap}
  {f : String × Json → QVariantMap} {mm : AList fun _ : QString => MinerMap}

theorem readMinerParam_entry {d : QVariant} :
    c.settings.readMinerParam coin key false d = (entry c (paramName coin key)).getD d :=
  Settings.readMinerParam_eq

theorem getD_ext {o o' : Option QVariant} : (∀ d, o.getD d = o'.getD d) ↔ o = o' := by
  constructor
  · intro h
    cases o with
    | none => exact (Settings.getD_eq_iff.mp fun d => (h d).symm).symm
    | some v =>
      cases o' with
      | none => exact Settings.getD_eq_iff.mp h
      | some w => exact congrArg some (h v)
  · rintro rfl d
    rfl

theorem holds_iff : Holds c coin (key, v) ↔ entry c (paramName coin key) = some v := by
  simp only [Holds, readMinerParam_entry]
  show (∀ d, _ = (some v).getD d) ↔ _
  exact getD_ext

theorem paramsAlike_iff : ParamsAlike c c' ↔
    ∀ coin key, entry c (paramName coin key) = entry c' (paramName coin key) := by
  simp only [ParamsAlike, readMinerParam_entry, getD_ext]

theorem poolsAlike_iff : PoolsAlike c c' ↔ ∀ coin key, IsPoolKey key →
    entry c (paramName coin key) = entry c' (paramName coin key) := by
  constructor
  · intro h coin key hkey
    rw [← getD_ext]
    intro d
    rw [← readMinerParam_entry, ← readMinerParam_entry, h coin key d hkey]
  · intro h coin key d hkey
    rw [readMinerParam_entry, readMinerParam_entry, h coin key hkey]

theorem entry_refresh_init :
    entry ((c.init D).refresh D') = assign (initStored c D ++ poolStored D') (entry c) := by
  rw [entry_refresh, entry_init, assign_append]

/-- The second reading keeps a parameter where the lists of what the loops write end alike. -/
theorem paramsAlike_iff_endAlike : ParamsAlike ((c.init D).refresh D) (c.init D) ↔
    ∀ coin key, EndAlike (initStored c D ++ poolStored D) (initStored c D) (entry c)
      (paramName coin key) := by
  rw [paramsAlike_iff]
  simp only [endAlike_iff, entry_refresh_init, entry_init]

theorem poolsAlike_iff_endAlike : PoolsAlike ((c.init D).refresh D') (c.init D') ↔
    ∀ coin key, IsPoolKey key →
      EndAlike (initStored c D ++ poolStored D') (initStored c D') (entry c)
        (paramName coin key) := by
  rw [poolsAlike_iff]
  simp only [endAlike_iff, entry_refresh_init, entry_init]

theorem poolsAlike_next_iff_endAlike : PoolsAlike (c.refresh D) (c.init D) ↔
    ∀ coin key, IsPoolKey key →
      EndAlike (poolStored D) (initStored c D) (entry c) (paramName coin key) := by
  rw [poolsAlike_iff]
  simp only [endAlike_iff, entry_refresh, entry_init]

theorem paramName_join (h : PlainName coin) :
    paramName coin key = join [minersGroup, coin, key] :=
  MemorySettings.buildPrefix_pair (by decide) h.2

theorem paramName_inj (h : PlainName coin) (h' : PlainName coin') :
    paramName coin key = paramName coin' key' ↔ coin = coin' ∧ key = key' :=
  MemorySettings.buildPrefix_pair_inj (by decide) h h'

/-- A key without a separator stands last in its name, whatever the other coin is called. -/
theorem key_eq_of_paramName (h : PlainName coin) (hkey : '\\' ∉ key) (hmarker : key ≠ ['%', '2'])
    (heq : paramName coin' key' = paramName coin key) : key' = key := by
  rw [paramName_join h, paramName_eq] at heq
  have hplain : ∀ x ∈ [minersGroup, coin, key], '\\' ∉ x := by
    intro x hx
    simp only [List.mem_cons, List.not_mem_nil, or_false] at hx
    rcases hx with rfl | rfl | rfl
    · decide
    · exact h.1
    · exact hkey
  have hcount := congrArg (List.count '\\') heq
  rw [count_join, count_join] at hcount
  have hzero : ([minersGroup, coin, key].map (·.count '\\')).sum = 0 := by
    rw [List.sum_eq_zero_iff_forall_eq_nat]
    intro n hn
    obtain ⟨x, hx, rfl⟩ := List.mem_map.mp hn
    exact List.count_eq_zero.mpr (hplain x hx)
  have hlength : (filled [minersGroup, coin'] key').length = 3 := rfl
  have hfilled : ∀ x ∈ filled [minersGroup, coin'] key', '\\' ∉ x := by
    rw [hzero, hlength] at hcount
    have hsum : ((filled [minersGroup, coin'] key').map (·.count '\\')).sum = 0 := by
      simp only [List.length_cons, List.length_nil] at hcount
      omega
    intro x hx
    rw [List.sum_eq_zero_iff_forall_eq_nat] at hsum
    exact List.count_eq_zero.mp (hsum _ (List.mem_map.mpr ⟨x, hx, rfl⟩))
  have hnames := join_injective hfilled hplain filled_ne_nil (by simp) heq
  have hlast := congrArg List.getLast? hnames
  simp only [filled, reduceCtorEq, if_false, List.getLast?_concat] at hlast
  split at hlast
  case isTrue => simpa using hlast
  case isFalse => exact absurd (by simpa using hlast.symm) hmarker

theorem last_stored_self (h : PlainName coin) :
    last (stored coin params) (paramName coin key) = (last params key).map kept := by
  induction params with
  | nil => rfl
  | cons p params ih =>
    rw [stored, List.map_cons, ← stored, last, last, ih]
    simp only [paramName_inj h h, true_and]
    cases last params key with
    | some v => rfl
    | none =>
      by_cases hkey : p.1 = key
      · simp [hkey]
      · simp [hkey]

theorem last_stored_other (h : PlainName coin) (h' : PlainName coin') (hne : coin ≠ coin') :
    last (stored coin params) (paramName coin' key) = none := by
  rw [last_eq_none]
  intro w hw heq
  obtain ⟨p, -, rfl⟩ := List.mem_map.mp hw
  exact hne ((paramName_inj h h').mp heq).1

theorem last_storedAll (hD : Plain D) (he : e ∈ D) :
    last (storedAll f D) (paramName e.1.toList key) = (last (f e) key).map kept := by
  obtain ⟨hnames, hentries, -⟩ := hD
  induction D with
  | nil => cases he
  | cons e' D ih =>
    rw [List.map_cons, List.nodup_cons] at hentries
    rw [List.forall_mem_cons] at hnames
    rw [storedAll, List.flatMap_cons, ← storedAll, last_append]
    rcases List.mem_cons.mp he with rfl | he
    · have hother : last (storedAll f D) (paramName e.1.toList key) = none := by
        rw [last_eq_none]
        intro w hw heq
        obtain ⟨e', he', hw⟩ := List.mem_flatMap.mp hw
        obtain ⟨p, -, rfl⟩ := List.mem_map.mp hw
        have hcoin := ((paramName_inj (hnames.2 e' he') hnames.1).mp heq).1
        exact hentries.1 (List.mem_map.mpr ⟨e', he', String.toList_injective hcoin⟩)
      rw [hother, last_stored_self hnames.1, Option.none_or]
    · have hne : e'.1.toList ≠ e.1.toList := by
        intro heq
        exact hentries.1 (List.mem_map.mpr ⟨e, he, (String.toList_injective heq).symm⟩)
      rw [ih he hnames.2 hentries.2, last_stored_other hnames.1 (hnames.2 e he) hne, Option.or_none]

theorem storedAll_mem {w : Option QVariant} (h : last (storedAll f D) name = some w) :
    ∃ e ∈ D, ∃ p ∈ f e, paramName e.1.toList p.1 = name := by
  obtain ⟨e, he, hw⟩ := List.mem_flatMap.mp (last_mem h)
  obtain ⟨p, hp, hname⟩ := List.mem_map.mp hw
  exact ⟨e, he, p, hp, congrArg (·.1) hname⟩

theorem mergedPoolKey_injective : Function.Injective mergedPoolKey := by
  intro coin coin' h
  rw [mergedPoolKey_eq, mergedPoolKey_eq, List.append_cancel_left_eq] at h
  exact List.tail_eq_of_cons_eq h

theorem poolKey_ne_mergedPoolKey : MemorySettings.poolKey ≠ mergedPoolKey coin := by
  rw [mergedPoolKey_eq]
  simp [MemorySettings.poolKey, mergedPoolsGroup]

theorem mergedPools_key {m : JsonObject} {p : QString × QVariant} (h : p ∈ mergedPools m) :
    ∃ coin, p.1 = mergedPoolKey coin := by
  obtain ⟨q, -, rfl⟩ := List.mem_map.mp h
  exact ⟨q.1.toList, rfl⟩

theorem last_pool {m : JsonObject} {a : Address} :
    last (mergedPools m ++ pool a) key =
      if key = MemorySettings.poolKey then some (.string a.url) else last (mergedPools m) key := by
  rw [last_append, pool, last, last, Option.none_or]
  by_cases hkey : key = MemorySettings.poolKey
  · simp [hkey]
  · simp [hkey, Ne.symm hkey]

/-- Of its pools `init` writes for an entry that it loads, and for no other. -/
theorem last_initParams (hkey : IsPoolKey key) :
    last (initParams s mm e) key = if Loads e then last (initPools s e) key else none := by
  have hvisible : visibleKey ≠ key := by
    rcases hkey with rfl | ⟨coin, rfl⟩
    · decide
    · rw [mergedPoolKey_eq]
      simp [visibleKey, mergedPoolsGroup]
  have hmining : mergedMiningKey ≠ key := by
    rcases hkey with rfl | ⟨coin, rfl⟩
    · decide
    · rw [mergedPoolKey_eq]
      simp [mergedMiningKey, mergedPoolsGroup]
  have hgroup : mergedPoolsGroup ≠ key := by
    rcases hkey with rfl | ⟨coin, rfl⟩
    · decide
    · rw [mergedPoolKey_eq]
      simp
  rw [initParams]
  by_cases hempty : e.1.toList = []
  · simp [hempty, Loads, last]
  · by_cases hfamily : knownFamily e = true
    · simp only [hempty, if_false, hfamily, if_true, Loads, ne_eq, not_false_eq_true, and_self]
      rw [last, if_neg hvisible, Option.or_none, minerParams, initPools, last_append, last_append]
      congr 1
      split
      case isTrue hnone =>
        have hmerged : mergedMap e = [] := List.isEmpty_iff.mp hnone
        simp [last, hmining, hgroup, hmerged, mergedPools]
      case isFalse => rw [last, if_neg hmining, Option.or_none]
    · simp [hempty, hfamily, Loads, last, hvisible]

theorem pools_key {m : JsonObject} {a : Address} {p : QString × QVariant}
    (h : p ∈ mergedPools m ++ pool a) : IsPoolKey p.1 ∧ kept p.2 = some p.2 := by
  rcases List.mem_append.mp h with h | h
  · obtain ⟨q, -, rfl⟩ := List.mem_map.mp h
    exact ⟨Or.inr ⟨q.1.toList, rfl⟩, rfl⟩
  · cases List.mem_singleton.mp h
    exact ⟨Or.inl rfl, rfl⟩

theorem last_pools_eq_none {m : JsonObject} {a a' : Address}
    (h : last (mergedPools m ++ pool a) key = none) :
    last (mergedPools m ++ pool a') key = none := by
  rw [last_pool] at h ⊢
  split at h
  case isTrue => cases h
  case isFalse hkey => rw [if_neg hkey, h]

theorem nodup_pools {m : JsonObject} {a : Address} (h : (m.map (·.1)).Nodup) :
    ((mergedPools m ++ pool a).map (·.1)).Nodup := by
  rw [List.map_append, List.nodup_append]
  refine ⟨?_, by simp [pool], ?_⟩
  · have hkeys : (mergedPools m).map (·.1) = (m.map (·.1)).map fun k => mergedPoolKey k.toList := by
      rw [mergedPools, List.map_map, List.map_map]
      rfl
    rw [hkeys]
    exact h.map fun k k' heq => String.toList_injective (mergedPoolKey_injective heq)
  · intro k hk k' hk' heq
    obtain ⟨p, hp, rfl⟩ := List.mem_map.mp hk
    obtain ⟨coin, hcoin⟩ := mergedPools_key hp
    cases List.mem_singleton.mp hk'
    exact poolKey_ne_mergedPoolKey (heq.symm.trans hcoin)

theorem initParams_key {p : QString × QVariant} (h : p ∈ initParams s mm e) :
    IsPoolKey p.1 ∨ ('\\' ∉ p.1 ∧ p.1 ≠ ['%', '2']) := by
  rw [initParams] at h
  split at h
  case isTrue => cases h
  case isFalse =>
    rcases List.mem_cons.mp h with rfl | h
    · exact Or.inr (by simp [visibleKey])
    · split at h
      case isFalse => cases h
      case isTrue =>
        rw [minerParams] at h
        rcases List.mem_append.mp h with h | h
        · split at h
          · rcases List.mem_pair.mp h with rfl | rfl
            · exact Or.inr (by simp [mergedMiningKey])
            · exact Or.inr (by simp [mergedPoolsGroup])
          · rcases List.mem_cons.mp h with rfl | h
            · exact Or.inr (by simp [mergedMiningKey])
            · exact Or.inl (Or.inr (mergedPools_key h))
        · cases List.mem_singleton.mp h
          exact Or.inl (Or.inl rfl)

/-- Whatever the settings have been, an entry that is ready gives its pools the values of the
document, and only such an entry does. -/
theorem ready_iff (mm : AList fun _ : QString => MinerMap)
    (hmerged : ((mergedMap e).map (·.1)).Nodup) :
    Ready c e ↔ ∀ key v, last (poolParams e) key = some v →
      ((last (initParams c.settings mm e) key).map kept).getD
        (entry c (paramName e.1.toList key)) = some v := by
  have hpools : ∀ {key v}, last (poolParams e) key = some v → (key, v) ∈ poolParams e := last_mem
  rw [Ready]
  split
  case isTrue hloads =>
    constructor
    · intro hurl key v hlast
      have hv := (pools_key (hpools hlast)).2
      rw [last_initParams (pools_key (hpools hlast)).1, if_pos hloads, initPools, last_pool]
      rw [poolParams, last_pool] at hlast
      by_cases hkey : key = MemorySettings.poolKey
      · rw [if_pos hkey] at hlast ⊢
        cases hlast
        rw [hurl]
        rfl
      · rw [if_neg hkey] at hlast ⊢
        rw [hlast]
        exact hv
    · intro h
      have hpool := h MemorySettings.poolKey _ (last_pool.trans (if_pos rfl))
      rw [last_initParams (Or.inl rfl), if_pos hloads, initPools, last_pool, if_pos rfl] at hpool
      simpa [kept, QVariant.isValid] using hpool
  case isFalse hloads =>
    constructor
    · intro h key v hlast
      rw [last_initParams (pools_key (hpools hlast)).1, if_neg hloads]
      exact holds_iff.mp (h (key, v) (hpools hlast))
    · rintro h ⟨key, v⟩ hp
      have hlast : last (poolParams e) key = some v := (last_eq_some (nodup_pools hmerged)).mpr hp
      have hheld := h key v hlast
      rw [last_initParams (pools_key hp).1, if_neg hloads] at hheld
      exact holds_iff.mpr hheld

theorem last_poolStored (hD : Plain D) (he : e ∈ D) (hlast : last (poolParams e) key = some v) :
    last (poolStored D) (paramName e.1.toList key) = some (some v) := by
  rw [last_storedAll hD he, hlast, Option.map_some, (pools_key (last_mem hlast)).2]

/-- What the document says of a name comes from one parameter of one entry. -/
theorem poolStored_cases {w : Option QVariant} (hD : Plain D)
    (h : last (poolStored D) name = some w) :
    ∃ e ∈ D, ∃ key v, paramName e.1.toList key = name ∧ last (poolParams e) key = some v ∧
      w = some v := by
  obtain ⟨e, he, p, hp, rfl⟩ := storedAll_mem h
  rw [last_storedAll hD he] at h
  obtain ⟨v, hv, rfl⟩ := Option.map_eq_some_iff.mp h
  exact ⟨e, he, p.1, v, rfl, hv, (pools_key (last_mem hv)).2⟩

/-- Where `init` writes a pool, an entry of its document loads and has it. -/
theorem initStored_cases {w : Option QVariant} (hD : Plain D) (hkey : IsPoolKey key)
    (h : last (storedAll (initParams s mm) D) (paramName coin key) = some w) :
    ∃ e ∈ D, Loads e ∧ ∃ key' v, paramName e.1.toList key' = paramName coin key ∧
      last (initPools s e) key' = some v ∧ w = some v := by
  obtain ⟨e, he, p, hp, hname⟩ := storedAll_mem h
  have hpool : IsPoolKey p.1 := by
    rcases initParams_key hp with hpool | ⟨hseparator, hmarker⟩
    · exact hpool
    · rw [← key_eq_of_paramName (hD.names e he) hseparator hmarker hname.symm]
      exact hkey
  rw [← hname, last_storedAll hD he, last_initParams hpool] at h
  split at h
  case isFalse => cases h
  case isTrue hloads =>
    obtain ⟨v, hv, rfl⟩ := Option.map_eq_some_iff.mp h
    exact ⟨e, he, hloads, p.1, v, hname, hv, (pools_key (last_mem hv)).2⟩

/-- A pool that the document does not name is not written by `init` either. -/
theorem initStored_none (hD : Plain D) (hkey : IsPoolKey key)
    (h : last (poolStored D) (paramName coin key) = none) :
    last (storedAll (initParams s mm) D) (paramName coin key) = none := by
  by_contra hne
  obtain ⟨w, hw⟩ := Option.ne_none_iff_exists'.mp hne
  obtain ⟨e, he, -, key', v, hname, hv, -⟩ := initStored_cases hD hkey hw
  rw [← hname, last_storedAll hD he, Option.map_eq_none_iff] at h
  rw [initPools, last_pools_eq_none h] at hv
  cases hv

theorem paramsAlike_iff_ready (hD : Plain D) :
    ParamsAlike ((c.init D).refresh D) (c.init D) ↔ ∀ e ∈ D, Ready c e := by
  rw [paramsAlike_iff_endAlike]
  simp only [endAlike_append]
  constructor
  · intro h e he
    rw [ready_iff c.settings.minerList (hD.merged e he)]
    intro key v hlast
    have hw := h e.1.toList key _ (last_poolStored hD he hlast)
    rw [last_storedAll hD he] at hw
    exact hw
  · intro h coin key w hw
    obtain ⟨e, he, key', v, hname, hlast, rfl⟩ := poolStored_cases hD hw
    rw [← hname, last_storedAll hD he]
    exact (ready_iff _ (hD.merged e he)).mp (h e he) key' v hlast

theorem poolsAlike_next_iff_ready (hD : Plain D) :
    PoolsAlike (c.refresh D) (c.init D) ↔ ∀ e ∈ D, Ready c e := by
  rw [poolsAlike_next_iff_endAlike]
  constructor
  · intro h e he
    rw [ready_iff c.settings.minerList (hD.merged e he)]
    intro key v hlast
    have halike := h e.1.toList key (pools_key (last_mem hlast)).1
    rw [EndAlike, last_poolStored hD he hlast, last_storedAll hD he] at halike
    exact halike.symm
  · intro h coin key hkey
    rw [EndAlike]
    cases hw : last (poolStored D) (paramName coin key) with
    | none => rw [initStored_none hD hkey hw]
    | some w =>
      obtain ⟨e, he, key', v, hname, hlast, rfl⟩ := poolStored_cases hD hw
      rw [← hname, last_storedAll hD he]
      exact ((ready_iff _ (hD.merged e he)).mp (h e he) key' v hlast).symm

/-- A document names a pool of a coin in the one entry that it has for the coin. -/
theorem poolStored_eq_none (hD : Plain D) (hcoin : PlainName e.1.toList) :
    last (poolStored D) (paramName e.1.toList key) = none ↔
      ¬ ∃ e' ∈ D, e'.1 = e.1 ∧ ∃ q ∈ poolParams e', q.1 = key := by
  constructor
  · rintro hnone ⟨e', he', hcoin', q, hq, rfl⟩
    have hlast := (last_eq_some (nodup_pools (hD.merged e' he'))).mpr hq
    rw [← hcoin', last_poolStored hD he' hlast] at hnone
    cases hnone
  · intro h
    by_contra hne
    obtain ⟨w, hw⟩ := Option.ne_none_iff_exists'.mp hne
    obtain ⟨e', he', key', v, hname, hlast, -⟩ := poolStored_cases hD hw
    obtain ⟨hcoin', rfl⟩ := (paramName_inj (hD.names e' he') hcoin).mp hname
    exact h ⟨e', he', String.toList_injective hcoin', _, last_mem hlast, rfl⟩

theorem poolsAlike_iff_ready (hD : Plain D) (hD' : Plain D') :
    PoolsAlike ((c.init D).refresh D') (c.init D') ↔
      (∀ e ∈ D', Ready c e) ∧ NoneLeft c D D' := by
  rw [poolsAlike_iff_endAlike]
  constructor
  · intro h
    refine ⟨fun e he => ?_, fun e he hloads p hp => ?_⟩
    · rw [ready_iff c.settings.minerList (hD'.merged e he)]
      intro key v hlast
      have halike := h e.1.toList key (pools_key (last_mem hlast)).1
      rw [EndAlike, last_append, last_poolStored hD' he hlast, last_storedAll hD' he] at halike
      exact halike.symm
    · by_contra hnot
      obtain ⟨hnamed, hheld⟩ := not_or.mp hnot
      have hkey := (pools_key hp).1
      have hlast : last (initPools c.settings e) p.1 = some p.2 :=
        (last_eq_some (nodup_pools (hD.merged e he))).mpr hp
      have hnone := (poolStored_eq_none hD' (hD.names e he)).mpr hnamed
      have halike := h e.1.toList p.1 hkey
      rw [EndAlike, last_append, hnone, initStored_none hD' hkey hnone, last_storedAll hD he,
        last_initParams hkey, if_pos hloads, hlast, Option.map_some, (pools_key hp).2] at halike
      exact hheld (holds_iff.mpr halike.symm)
  · rintro ⟨hready, hleft⟩ coin key hkey
    rw [EndAlike, last_append]
    cases hw : last (poolStored D') (paramName coin key) with
    | some w =>
      obtain ⟨e, he, key', v, hname, hlast, rfl⟩ := poolStored_cases hD' hw
      rw [← hname, last_storedAll hD' he]
      exact ((ready_iff _ (hD'.merged e he)).mp (hready e he) key' v hlast).symm
    | none =>
      rw [initStored_none hD' hkey hw, Option.none_or]
      cases hold : last (initStored c D) (paramName coin key) with
      | none => rfl
      | some w =>
        obtain ⟨e, he, hloads, key', v, hname, hlast, rfl⟩ := initStored_cases hD hkey hold
        rw [← hname, poolStored_eq_none hD' (hD.names e he)] at hw
        rcases hleft e he hloads (key', v) (last_mem hlast) with hnamed | hheld
        · exact absurd hnamed hw
        · rw [← hname, holds_iff.mp hheld]
          rfl

/-- A response read after `init` does what `init` with it would, and nothing when it is the same,
exactly when what it writes ends like what `init` writes. For plain names this is so when every
entry is one that `init` loads with the address of the document, or one whose pools the settings
have had, and when it names all pools that `init` has written. -/
theorem refresh_follows_init (c : Core) (D D' : JsonObject) :
    (ParamsAlike ((c.init D).refresh D) (c.init D) ↔
        ∀ coin key, EndAlike (initStored c D ++ poolStored D) (initStored c D) (entry c)
          (paramName coin key)) ∧
      (PoolsAlike ((c.init D).refresh D') (c.init D') ↔
        ∀ coin key, IsPoolKey key →
          EndAlike (initStored c D ++ poolStored D') (initStored c D') (entry c)
            (paramName coin key)) ∧
      (PoolsAlike ((c.init D).refresh D') ((c.init D).init D') ↔
        ∀ coin key, IsPoolKey key →
          EndAlike (poolStored D') (initStored (c.init D) D') (entry (c.init D))
            (paramName coin key)) ∧
      (Plain D → Plain D' →
        (ParamsAlike ((c.init D).refresh D) (c.init D) ↔ ∀ e ∈ D, Ready c e) ∧
        (PoolsAlike ((c.init D).refresh D') (c.init D') ↔
          (∀ e ∈ D', Ready c e) ∧ NoneLeft c D D') ∧
        (PoolsAlike ((c.init D).refresh D') ((c.init D).init D') ↔
          ∀ e ∈ D', Ready (c.init D) e)) :=
  ⟨paramsAlike_iff_endAlike, poolsAlike_iff_endAlike, poolsAlike_next_iff_endAlike,
    fun hD hD' => ⟨paramsAlike_iff_ready hD, poolsAlike_iff_ready hD hD',
      poolsAlike_next_iff_ready hD'⟩⟩

end Read

def oneCoin : JsonObject :=
  [("bcn", .obj [("family", .str "cryptonight"),
    ("server", .obj [("ip", .str "b"), ("stratumPort", .int 1)])])]

def noCoins : Core := ⟨.new, [], none⟩

theorem oneCoin_kept :
    ParamsAlike ((noCoins.init oneCoin).refresh oneCoin) (noCoins.init oneCoin) := by
  have hplain : Plain oneCoin := ⟨by decide, by decide, by decide⟩
  refine ((refresh_follows_init noCoins oneCoin oneCoin).2.2.2 hplain hplain).1.mpr ?_
  intro e he
  cases List.mem_singleton.mp he
  rw [Ready, if_pos (by decide)]
  rfl

/-- The pool for the fee of the developers, in an entry that is no coin. -/
def feeEntry : String × Json := ("devFeeCC", .obj [("ip", .str "f"), ("stratumPort", .int 2)])

def withDevFee : JsonObject := oneCoin ++ [feeEntry]

theorem fee_entry_gets_pool :
    ¬ (∀ (c : Core) (D : JsonObject), c.m_miners = [] →
        ParamsAlike ((c.init D).refresh D) (c.init D)) ∧
      ¬ ∀ (c : Core) (D D' : JsonObject), c.m_miners = [] →
        PoolsAlike ((c.init D).refresh D') (c.init D') := by
  have hplain : Plain withDevFee := ⟨by decide, by decide, by decide⟩
  have hready : ¬ ∀ e ∈ withDevFee, Ready noCoins e := by
    intro h
    have hfee := h feeEntry (List.mem_append_right oneCoin List.mem_cons_self)
    have hloads : ¬ Loads feeEntry := by decide
    rw [Ready, if_neg hloads] at hfee
    have hheld := holds_iff.mp (hfee (MemorySettings.poolKey, _) List.mem_cons_self)
    cases hheld
  constructor
  · intro h
    exact hready ((paramsAlike_iff_ready hplain).mp (h noCoins withDevFee rfl))
  · intro h
    exact hready ((poolsAlike_iff_ready hplain hplain).mp (h noCoins withDevFee withDevFee rfl)).1

end Core
end MinerGate
