import Mathlib.Data.List.AList
import MinerGate.Qt.QString

/-!
# The settings in memory

`MemorySettings` keeps the settings of the process in one hash. The name of an entry is made
of the names of the open groups and its key, joined by backslashes through two chained calls
of `QString::arg`: place markers in the names of the groups are filled in as well.
-/

namespace MinerGate

set_option autoImplicit false

open QString

inductive QVariant where
  | invalid
  | bool (b : Bool)
  | int (n : Int)
  | string (s : QString)
deriving DecidableEq, Repr

namespace QVariant

def isValid (v : QVariant) : Bool := v ≠ invalid

/-- A string is true unless it is empty, `0` or `false`. -/
def toBool : QVariant → Bool
  | invalid => false
  | bool b => b
  | int n => n ≠ 0
  | string s => s ≠ [] ∧ s ≠ ['0'] ∧ s.map Char.toLower ≠ ['f', 'a', 'l', 's', 'e']

def toString : QVariant → QString
  | invalid => []
  | bool b => if b then ['t', 'r', 'u', 'e'] else ['f', 'a', 'l', 's', 'e']
  | int n => (ToString.toString n).toList
  | string s => s

end QVariant

/-- `m_groups` is the stack of the open groups, the outermost first. The hash has no order that
anything could depend on. -/
structure MemorySettings where
  m_settings : AList fun _ : QString => QVariant
  m_groups : List QString

def join (names : List QString) : QString := ['\\'].intercalate names

namespace MemorySettings

def new : MemorySettings := ⟨∅, []⟩

def buildPrefix (groups : List QString) (key : QString) : QString :=
  let prefix' := join groups
  if prefix' = [] then key else arg (arg ['%', '1', '\\', '%', '2'] prefix') key

def beginGroup (s : MemorySettings) (name : QString) : MemorySettings :=
  { s with m_groups := s.m_groups ++ [name] }

def endGroup (s : MemorySettings) : MemorySettings := { s with m_groups := s.m_groups.dropLast }

def setValue (s : MemorySettings) (key : QString) (value : QVariant) : MemorySettings :=
  { s with m_settings := s.m_settings.insert (buildPrefix s.m_groups key) value }

def value (s : MemorySettings) (key : QString) (defaultValue : QVariant) : QVariant :=
  (s.m_settings.lookup (buildPrefix s.m_groups key)).getD defaultValue

def remove (s : MemorySettings) (key : QString) : MemorySettings :=
  { s with m_settings := s.m_settings.erase (buildPrefix s.m_groups key) }

/-- The names in the hash that start with `curGroup`, without it and taken apart. -/
def below (s : MemorySettings) (curGroup : QString) : List (List QString) :=
  (s.m_settings.keys.filter fun realKey => curGroup.isPrefixOf realKey).map fun realKey =>
    (QString.remove realKey curGroup).splitOn '\\'

def curGroup (s : MemorySettings) : QString := buildPrefix s.m_groups [] ++ ['\\']

def childGroups (s : MemorySettings) : List QString :=
  (s.below s.curGroup).filterMap fun path => if 1 < path.length then path.head? else none

def childKeys (s : MemorySettings) : List QString :=
  (s.below s.curGroup).filterMap fun path => if path.length = 1 then path.head? else none

def under (s : MemorySettings) (groups : List QString) : MemorySettings :=
  { s with m_groups := groups }

end MemorySettings

def ValidName (name : QString) : Prop := name ≠ [] ∧ '\\' ∉ name

instance (name : QString) : Decidable (ValidName name) := inferInstanceAs (Decidable (_ ∧ _))

/-- The number of the marker that the second call of `arg` fills: the lowest one in the names of the
groups, or its own. -/
def fillMarker (groups : List QString) : Nat := (groups.flatMap markers).foldr min 2

/-- The names of an entry as they are joined: the markers in the names of the groups are filled
with the key. One below `%2` takes the place of the key, which then reads `%2`. -/
def filled (groups : List QString) (key : QString) : List QString :=
  if groups = [] then [key]
  else
    groups.map (replaceMarker (fillMarker groups) key 0) ++
      [if fillMarker groups = 2 then key else ['%', '2']]

section Join
variable {xs ys groups : List QString} {x y key : QString}

theorem join_cons_cons : join (x :: y :: ys) = x ++ '\\' :: join (y :: ys) := by
  simp [join, List.intercalate_cons_cons]

theorem join_concat (h : xs ≠ []) : join (xs ++ [x]) = join xs ++ '\\' :: x := by
  induction xs with
  | nil => exact absurd rfl h
  | cons y ys ih =>
    cases ys with
    | nil => simp [join, List.intercalate_cons_cons]
    | cons z zs =>
      have ih := ih (List.cons_ne_nil z zs)
      rw [List.cons_append] at ih ⊢
      rw [List.cons_append, join_cons_cons, ih, join_cons_cons, List.append_assoc]
      rfl

theorem join_injective (hx : ∀ x ∈ xs, '\\' ∉ x) (hy : ∀ y ∈ ys, '\\' ∉ y) (hxs : xs ≠ [])
    (hys : ys ≠ []) (h : join xs = join ys) : xs = ys := by
  rw [← List.splitOn_intercalate '\\' hx hxs, ← List.splitOn_intercalate '\\' hy hys]
  exact congrArg (List.splitOn '\\') h

theorem join_ne_nil (h : xs ≠ []) (hx : ∀ x ∈ xs, x ≠ []) : join xs ≠ [] := by
  cases xs with
  | nil => exact absurd rfl h
  | cons x xs =>
    have hx := hx x List.mem_cons_self
    cases xs with
    | nil => simpa [join] using hx
    | cons y ys => simp [join_cons_cons, hx]

theorem join_ne_separator {q : QString} (h : ∀ x ∈ xs, ValidName x) : join xs ≠ '\\' :: q := by
  cases xs with
  | nil => simp [join]
  | cons x xs =>
    have hx := h x List.mem_cons_self
    have hcons : ∃ r, join (x :: xs) = x ++ r := by
      cases xs with
      | nil => exact ⟨[], by simp [join]⟩
      | cons y ys => exact ⟨_, join_cons_cons⟩
    obtain ⟨r, hr⟩ := hcons
    cases x with
    | nil => exact absurd rfl hx.1
    | cons c x =>
      intro heq
      rw [hr, List.cons_append, List.cons.injEq] at heq
      exact hx.2 (heq.1 ▸ List.mem_cons_self)

theorem count_join : (join xs).count '\\' = (xs.map (·.count '\\')).sum + (xs.length - 1) := by
  induction xs with
  | nil => rfl
  | cons x xs ih =>
    cases xs with
    | nil => simp [join]
    | cons y ys =>
      rw [join_cons_cons, List.count_append, List.count_cons_self, ih]
      simp only [List.map_cons, List.sum_cons, List.length_cons]
      omega

theorem isPlain_backslash : isPlain '\\' = true := by decide

theorem markers_join : markers (join xs) = xs.flatMap markers := by
  induction xs with
  | nil => rfl
  | cons x xs ih =>
    cases xs with
    | nil => simp [join]
    | cons y ys =>
      rw [join_cons_cons, markers_append isPlain_backslash, ih]
      rfl

theorem replaceMarker_join (n : Nat) (a : QString) :
    replaceMarker n a 0 (join xs) = join (xs.map (replaceMarker n a 0)) := by
  induction xs with
  | nil => rfl
  | cons x xs ih =>
    cases xs with
    | nil => simp [join]
    | cons y ys =>
      rw [join_cons_cons, replaceMarker_append isPlain_backslash (Nat.zero_le _), ih]
      simp only [List.map_cons, join_cons_cons]

theorem min?_concat (ns : List Nat) (n : Nat) : (ns ++ [n]).min? = some (ns.foldr min n) := by
  induction ns with
  | nil => rfl
  | cons m ns ih => rw [List.cons_append, List.min?_cons, ih]; rfl

theorem replaceMarker_second (n : Nat) (key : QString) :
    replaceMarker n key 0 ['%', '2'] = if n = 2 then key else ['%', '2'] := by
  have hm : marker ['%', '2'] = some (2, 2) := by decide
  have htail : marker ['2'] = none := by decide
  rw [replaceMarker, hm]
  by_cases h : n = 2
  · simp [h, replaceMarker]
  · have hne : 2 ≠ n := fun heq => h heq.symm
    simp [h, hne, replaceMarker, htail]

theorem buildPrefix_join (h : join groups ≠ []) :
    MemorySettings.buildPrefix groups key = join (filled groups key) := by
  have hgroups : groups ≠ [] := by
    rintro rfl
    exact h rfl
  have hfirst : arg ['%', '1', '\\', '%', '2'] (join groups) = join groups ++ ['\\', '%', '2'] := rfl
  have hmarkers : markers (join groups ++ ['\\', '%', '2']) = groups.flatMap markers ++ [2] := by
    rw [markers_append isPlain_backslash, markers_join]
    rfl
  rw [MemorySettings.buildPrefix]
  simp only [if_neg h, hfirst]
  rw [arg, hmarkers, min?_concat]
  simp only
  rw [← fillMarker, replaceMarker_append isPlain_backslash (Nat.zero_le _), replaceMarker_join,
    filled,
    if_neg hgroups, join_concat (by simpa using hgroups), replaceMarker_second]

theorem buildPrefix_eq (hgroups : ∀ g ∈ groups, ValidName g) (key : QString) :
    MemorySettings.buildPrefix groups key = join (filled groups key) := by
  by_cases h : groups = []
  · subst h
    simp [MemorySettings.buildPrefix, filled, join]
  · exact buildPrefix_join (join_ne_nil h fun g hg => (hgroups g hg).1)

theorem filled_ne_nil : filled groups key ≠ [] := by
  unfold filled
  split <;> simp

theorem filled_valid (hgroups : ∀ g ∈ groups, ValidName g) (hkey : ValidName key) :
    ∀ x ∈ filled groups key, ValidName x := by
  intro x hx
  unfold filled at hx
  split at hx
  case isTrue =>
    cases List.mem_singleton.mp hx
    exact hkey
  case isFalse =>
    rcases List.mem_append.mp hx with hx | hx
    · obtain ⟨g, hg, rfl⟩ := List.mem_map.mp hx
      refine ⟨replaceMarker_ne_nil (hgroups g hg).1 hkey.1, fun hmem => ?_⟩
      rcases mem_replaceMarker hmem with h | h
      · exact (hgroups g hg).2 h
      · exact hkey.2 h
    · cases List.mem_singleton.mp hx
      split
      · exact hkey
      · decide

/-- Without the markers that the second call can fill, the names are the path. -/
theorem filled_of_unmarked (h : ∀ g ∈ groups, ∀ n ∈ markers g, 2 < n) :
    filled groups key = groups ++ [key] := by
  have hfill : fillMarker groups = 2 := by
    have hall : ∀ ns : List Nat, (∀ n ∈ ns, 2 < n) → ns.foldr min 2 = 2 := by
      intro ns hns
      induction ns with
      | nil => rfl
      | cons n ns ih =>
        have hn := hns n List.mem_cons_self
        rw [List.foldr_cons, ih fun m hm => hns m (List.mem_cons_of_mem n hm)]
        omega
    refine hall _ fun n hn => ?_
    obtain ⟨g, hg, hn⟩ := List.mem_flatMap.mp hn
    exact h g hg n hn
  by_cases hgroups : groups = []
  · simp [filled, hgroups]
  · rw [filled, if_neg hgroups, hfill, if_pos rfl]
    congr 1
    calc groups.map (replaceMarker 2 key 0)
        = groups.map id := List.map_congr_left fun g hg =>
          replaceMarker_of_not_mem fun hmem => Nat.lt_irrefl 2 (h g hg 2 hmem)
      _ = groups := List.map_id groups

end Join

namespace MemorySettings

variable {groups groups' : List QString} {key key' : QString}

theorem buildPrefix_inj (hgroups : ∀ g ∈ groups, ValidName g) (hkey : ValidName key)
    (hgroups' : ∀ g ∈ groups', ValidName g) (hkey' : ValidName key') :
    buildPrefix groups key = buildPrefix groups' key' ↔ filled groups key = filled groups' key' := by
  rw [buildPrefix_eq hgroups, buildPrefix_eq hgroups']
  constructor
  · exact join_injective (fun x hx => (filled_valid hgroups hkey x hx).2)
      (fun x hx => (filled_valid hgroups' hkey' x hx).2) filled_ne_nil filled_ne_nil
  · exact congrArg join

theorem append_separator_inj {x y t u : QString} (hx : '\\' ∉ x) (hy : '\\' ∉ y) :
    x ++ '\\' :: t = y ++ '\\' :: u ↔ x = y ∧ t = u := by
  induction x generalizing y with
  | nil =>
    cases y with
    | nil => simp
    | cons c y => simp [List.ne_of_not_mem_cons hy]
  | cons b x ih =>
    cases y with
    | nil => simp [(List.ne_of_not_mem_cons hx).symm]
    | cons c y =>
      have ih := ih (List.not_mem_of_not_mem_cons hx) (List.not_mem_of_not_mem_cons hy)
      simp only [List.cons_append, List.cons.injEq, ih, and_assoc]

theorem buildPrefix_pair {group name : QString} (hgroup : ∀ n ∈ markers group, 2 < n)
    (hname : ∀ n ∈ markers name, 2 < n) :
    buildPrefix [group, name] key = join [group, name, key] := by
  have hmark : ∀ g ∈ [group, name], ∀ n ∈ markers g, 2 < n := by
    intro g hg
    rcases List.mem_pair.mp hg with rfl | rfl
    · exact hgroup
    · exact hname
  have hjoin : join [group, name] ≠ [] := by simp [join_cons_cons]
  rw [buildPrefix_join hjoin, filled_of_unmarked hmark]
  rfl

/-- Two names in one group, without a separator and without the markers that the second call of `arg`
can fill, keep all their entries apart. -/
theorem buildPrefix_pair_inj {group name name' : QString} (hgroup : ∀ n ∈ markers group, 2 < n)
    (h : '\\' ∉ name ∧ ∀ n ∈ markers name, 2 < n)
    (h' : '\\' ∉ name' ∧ ∀ n ∈ markers name', 2 < n) :
    buildPrefix [group, name] key = buildPrefix [group, name'] key' ↔ name = name' ∧ key = key' := by
  have hjoin : ∀ n k : QString, join [group, n, k] = group ++ '\\' :: (n ++ '\\' :: k) := by
    intro n k
    rw [join_cons_cons, join_cons_cons]
    simp [join]
  rw [buildPrefix_pair hgroup h.2, buildPrefix_pair hgroup h'.2, hjoin, hjoin,
    List.append_cancel_left_eq, List.cons.injEq]
  simp only [true_and]
  exact append_separator_inj h.1 h'.1

/-- What is written under one path is read there, and under no other one. -/
def PutGet (groups : List QString) (key : QString) (groups' : List QString) (key' : QString) :
    Prop :=
  ∀ (s : MemorySettings) (v d : QVariant),
    (((s.under groups).setValue key v).under groups).value key d = v ∧
      ((groups, key) ≠ (groups', key') →
        (((s.under groups).setValue key v).under groups').value key' d =
          (s.under groups').value key' d)

theorem value_setValue_self (s : MemorySettings) (v d : QVariant) :
    (((s.under groups).setValue key v).under groups).value key d = v := by
  simp [under, setValue, value]

theorem value_setValue_of_ne (s : MemorySettings) (v d : QVariant)
    (h : buildPrefix groups' key' ≠ buildPrefix groups key) :
    (((s.under groups).setValue key v).under groups').value key' d =
      (s.under groups').value key' d := by
  simp only [under, setValue, value]
  rw [AList.lookup_insert_ne h]

theorem putGet_of_ne (h : buildPrefix groups' key' ≠ buildPrefix groups key) :
    PutGet groups key groups' key' :=
  fun s v d => ⟨value_setValue_self s v d, fun _ => value_setValue_of_ne s v d h⟩

/-- Paths whose groups have no marker that the second call of `arg` could fill are kept apart. -/
theorem putGet_of_unmarked (hgroups : ∀ g ∈ groups, ValidName g) (hkey : ValidName key)
    (hgroups' : ∀ g ∈ groups', ValidName g) (hkey' : ValidName key')
    (hmark : ∀ g ∈ groups, ∀ n ∈ markers g, 2 < n)
    (hmark' : ∀ g ∈ groups', ∀ n ∈ markers g, 2 < n) (hne : (groups, key) ≠ (groups', key')) :
    PutGet groups key groups' key' := by
  apply putGet_of_ne
  rw [Ne, buildPrefix_inj hgroups' hkey' hgroups hkey, filled_of_unmarked hmark,
    filled_of_unmarked hmark']
  intro heq
  obtain ⟨hg, hk⟩ := List.append_inj' heq rfl
  cases hg
  cases hk
  exact hne rfl

/-- Two paths keep their entries apart exactly when they differ once the markers are filled in. -/
theorem put_get_iff (hgroups : ∀ g ∈ groups, ValidName g) (hkey : ValidName key)
    (hgroups' : ∀ g ∈ groups', ValidName g) (hkey' : ValidName key') :
    PutGet groups key groups' key' ↔
      (groups, key) = (groups', key') ∨ filled groups key ≠ filled groups' key' := by
  rw [← (buildPrefix_inj hgroups hkey hgroups' hkey').ne]
  constructor
  · intro h
    by_contra hnot
    obtain ⟨hpath, hname⟩ := not_or.mp hnot
    have hname : buildPrefix groups key = buildPrefix groups' key' := not_not.mp hname
    have hframe := (h new (.bool true) .invalid).2 hpath
    simp only [under, setValue, value, hname, AList.lookup_insert, new, AList.lookup_empty] at hframe
    cases hframe
  · rintro (hpath | hname)
    · exact fun s v d => ⟨value_setValue_self s v d, fun hne => absurd hpath hne⟩
    · exact putGet_of_ne hname.symm

/-- The parameters `pool` of the coins `x%2` and `xpool` are one entry. -/
def marked : List QString := [['m', 'i', 'n', 'e', 'r', 's'], ['x', '%', '2']]

def unmarked : List QString := [['m', 'i', 'n', 'e', 'r', 's'], ['x', 'p', 'o', 'o', 'l']]

def poolKey : QString := ['p', 'o', 'o', 'l']

theorem put_get_two_coins : PutGet unmarked poolKey (unmarked.take 1 ++ [['y']]) poolKey :=
  (put_get_iff (by decide) (by decide) (by decide) (by decide)).mpr (Or.inr (by decide))

theorem marked_coin_shares_entry :
    ¬ ∀ (groups : List QString) (key : QString) (groups' : List QString) (key' : QString),
      (∀ g ∈ groups, ValidName g) → ValidName key → (∀ g ∈ groups', ValidName g) →
        ValidName key' → PutGet groups key groups' key' := by
  intro h
  have hframe := (h marked poolKey unmarked poolKey (by decide) (by decide) (by decide) (by decide)
    new (.bool true) .invalid).2 (by decide)
  have hname : buildPrefix marked poolKey = buildPrefix unmarked poolKey := by decide
  simp only [under, setValue, value, hname, AList.lookup_insert, new, AList.lookup_empty] at hframe
  cases hframe

end MemorySettings
end MinerGate
