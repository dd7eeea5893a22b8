import Mathlib.Algebra.GroupWithZero.Nat
import Mathlib.Data.List.Basic

/-!
# Strings

`QString::arg` replaces every occurrence of the lowest-numbered place marker that the string holds, so
that a chain of calls also fills markers in the text that an earlier call has put in. A marker
is `%` or `%L` with one or two digits.
-/

namespace MinerGate

set_option autoImplicit false

abbrev QString := List Char

instance : LawfulBEq QString := inferInstance

namespace QString

def digitValue (c : Char) : Option Nat := if c.isDigit then some (c.toNat - '0'.toNat) else none

/-- The number of one or two digits that the string starts with, and its length. -/
def markerNumber : QString → Option (Nat × Nat)
  | [] => none
  | c :: s =>
    (digitValue c).map fun d =>
      match s.head?.bind digitValue with
      | some e => (10 * d + e, 2)
      | none => (d, 1)

/-- The place marker that the string starts with: its number and its length. -/
def marker : QString → Option (Nat × Nat)
  | [] => none
  | c :: s =>
    if c = '%' then
      if s.head? = some 'L' then (markerNumber s.tail).map fun p => (p.1, p.2 + 2)
      else (markerNumber s).map fun p => (p.1, p.2 + 1)
    else none

def markers : QString → List Nat
  | [] => []
  | c :: s => ((marker (c :: s)).map (·.1)).toList ++ markers s

/-- The string with `a` for every marker `n`, after the first `skip` characters, which are
dropped. -/
def replaceMarker (n : Nat) (a : QString) : Nat → QString → QString
  | _, [] => []
  | skip + 1, _ :: s => replaceMarker n a skip s
  | 0, c :: s =>
    match marker (c :: s) with
    | some (m, length) =>
      if m = n then a ++ replaceMarker n a (length - 1) s else c :: replaceMarker n a 0 s
    | none => c :: replaceMarker n a 0 s

def arg (s a : QString) : QString :=
  match s.markers.min? with
  | some n => replaceMarker n a 0 s
  | none => s

/-- The string without the occurrences of `sub`, after the first `skip` characters, which are
dropped. -/
def removeFrom (sub : QString) : Nat → QString → QString
  | _, [] => []
  | skip + 1, _ :: s => removeFrom sub skip s
  | 0, c :: s =>
    if sub.isPrefixOf (c :: s) then removeFrom sub (sub.length - 1) s
    else c :: removeFrom sub 0 s

def remove (s sub : QString) : QString := if sub = [] then s else removeFrom sub 0 s

def isPlain (c : Char) : Bool := c ≠ '%' && c ≠ 'L' && !c.isDigit

variable {c sep : Char} {s t a : QString} {n skip : Nat}

theorem digitValue_plain (h : isPlain sep = true) : digitValue sep = none := by
  simp only [isPlain, Bool.and_eq_true, Bool.not_eq_true'] at h
  rw [digitValue, if_neg (by rw [h.2]; decide)]

theorem markerNumber_append (h : isPlain sep = true) :
    markerNumber (s ++ sep :: t) = markerNumber s := by
  cases s with
  | nil => simp [markerNumber, digitValue_plain h]
  | cons c s =>
    cases s with
    | nil => simp [markerNumber, digitValue_plain h]
    | cons d s => simp [markerNumber]

theorem markerNumber_length {p : Nat × Nat} (h : markerNumber s = some p) :
    1 ≤ p.2 ∧ p.2 ≤ s.length := by
  cases s with
  | nil => cases h
  | cons c s =>
    obtain ⟨d, -, rfl⟩ := Option.map_eq_some_iff.mp h
    cases s with
    | nil => simp
    | cons e s =>
      simp only [List.head?_cons, Option.bind_some]
      split <;> simp

theorem marker_plain (h : isPlain sep = true) : marker (sep :: t) = none := by
  have hne : sep ≠ '%' := by
    rintro rfl
    cases h
  rw [marker, if_neg hne]

theorem head?_append_ne (h : isPlain sep = true) :
    (s ++ sep :: t).head? = some 'L' ↔ s.head? = some 'L' := by
  cases s with
  | nil =>
    simp only [List.nil_append, List.head?_cons, Option.some.injEq, List.head?_nil, reduceCtorEq,
      iff_false]
    rintro rfl
    cases h
  | cons c s => simp

/-- A marker does not reach over a character that is none of its own. -/
theorem marker_append (h : isPlain sep = true) :
    marker (c :: (s ++ sep :: t)) = marker (c :: s) := by
  simp only [marker, head?_append_ne h, markerNumber_append h]
  cases s with
  | nil => rfl
  | cons d s => rw [List.cons_append, List.tail_cons, List.tail_cons, markerNumber_append h]

theorem marker_length {p : Nat × Nat} (h : marker (c :: s) = some p) :
    1 ≤ p.2 ∧ p.2 - 1 ≤ s.length := by
  obtain ⟨-, h⟩ := Option.ite_none_right_eq_some.mp h
  split at h
  case isTrue hL =>
    obtain ⟨q, hq, rfl⟩ := Option.map_eq_some_iff.mp h
    have hlen := (markerNumber_length hq).2
    cases s with
    | nil => cases hL
    | cons d s =>
      simp only [List.tail_cons, List.length_cons] at hlen ⊢
      omega
  case isFalse =>
    obtain ⟨q, hq, rfl⟩ := Option.map_eq_some_iff.mp h
    have hlen := (markerNumber_length hq).2
    simp only
    omega

theorem markers_append (h : isPlain sep = true) :
    markers (s ++ sep :: t) = markers s ++ markers t := by
  induction s with
  | nil => simp [markers, marker_plain h]
  | cons c s ih => rw [List.cons_append, markers, marker_append h, ih, markers, List.append_assoc]

theorem markers_eq_nil (h : '%' ∉ s) : markers s = [] := by
  induction s with
  | nil => rfl
  | cons c s ih =>
    have hc : c ≠ '%' := (List.ne_of_not_mem_cons h).symm
    rw [markers, ih (List.not_mem_of_not_mem_cons h), marker, if_neg hc]
    rfl

theorem replaceMarker_append (h : isPlain sep = true) (hskip : skip ≤ s.length) :
    replaceMarker n a skip (s ++ sep :: t) =
      replaceMarker n a skip s ++ sep :: replaceMarker n a 0 t := by
  induction s generalizing skip with
  | nil =>
    obtain rfl : skip = 0 := by simpa using hskip
    simp [replaceMarker, marker_plain h]
  | cons c s ih =>
    cases skip with
    | succ skip =>
      rw [List.cons_append, replaceMarker, replaceMarker]
      exact ih (by simpa using hskip)
    | zero =>
      rw [List.cons_append, replaceMarker, marker_append h, replaceMarker]
      cases hm : marker (c :: s) with
      | none => simp [ih (Nat.zero_le _)]
      | some p =>
        by_cases hp : p.1 = n
        · simp [hp, ih (marker_length hm).2]
        · simp [hp, ih (Nat.zero_le _)]

theorem markerNumber_take {p : Nat × Nat} (h : isPlain sep = true) (hp : markerNumber s = some p) :
    sep ∉ s.take p.2 := by
  have hne : ∀ {c d}, digitValue c = some d → sep ≠ c := by
    rintro c d hc rfl
    rw [digitValue_plain h] at hc
    cases hc
  cases s with
  | nil => simp
  | cons c s =>
    obtain ⟨d, hd, rfl⟩ := Option.map_eq_some_iff.mp hp
    cases s with
    | nil => simpa using hne hd
    | cons e s =>
      simp only [List.head?_cons, Option.bind_some]
      split
      case h_1 k hk => simpa using ⟨hne hd, hne hk⟩
      case h_2 => simpa using hne hd

theorem marker_take {p : Nat × Nat} (h : isPlain sep = true) (hp : marker (c :: s) = some p) :
    sep ∉ (c :: s).take p.2 := by
  obtain ⟨hc, hmark⟩ := Option.ite_none_right_eq_some.mp hp
  subst hc
  have hpercent : sep ≠ '%' := by
    rintro rfl
    cases h
  split at hmark
  case isTrue hL =>
    obtain ⟨q, hq, rfl⟩ := Option.map_eq_some_iff.mp hmark
    have hq := markerNumber_take h hq
    have hl : sep ≠ 'L' := by
      rintro rfl
      cases h
    cases s with
    | nil => cases hL
    | cons d s =>
      cases hL
      simpa using ⟨hpercent, hl, hq⟩
  case isFalse =>
    obtain ⟨q, hq, rfl⟩ := Option.map_eq_some_iff.mp hmark
    simpa using ⟨hpercent, markerNumber_take h hq⟩

/-- A character that is none of a marker's is kept, as often as the text has it. -/
theorem count_le_replaceMarker (h : isPlain sep = true) :
    (s.drop skip).count sep ≤ (replaceMarker n a skip s).count sep := by
  induction s generalizing skip with
  | nil => simp
  | cons c s ih =>
    have hkeep : (c :: s).count sep ≤ (c :: replaceMarker n a 0 s).count sep := by
      have := @ih 0
      rw [List.drop_zero] at this
      simp only [List.count_cons]
      omega
    cases skip with
    | succ skip =>
      rw [replaceMarker, List.drop_succ_cons]
      exact ih
    | zero =>
      rw [replaceMarker, List.drop_zero]
      cases hm : marker (c :: s) with
      | none => exact hkeep
      | some p =>
        by_cases hp : p.1 = n
        · have hzero := List.count_eq_zero.mpr (marker_take h hm)
          have hlen := (marker_length hm).1
          have hdrop : (c :: s).drop p.2 = s.drop (p.2 - 1) := by
            rw [← Nat.sub_add_cancel hlen, List.drop_succ_cons, Nat.add_sub_cancel]
          have hsplit : (c :: s).count sep = (s.drop (p.2 - 1)).count sep := by
            rw [← List.take_append_drop p.2 (c :: s), List.count_append, hzero, hdrop, Nat.zero_add]
          simp only [hp, if_true, List.count_append, hsplit]
          exact Nat.le_add_left_of_le ih
        · simp only [hp, if_false]
          exact hkeep

theorem mem_replaceMarker {d : Char} (h : d ∈ replaceMarker n a skip s) : d ∈ s ∨ d ∈ a := by
  induction s generalizing skip with
  | nil => cases h
  | cons c s ih =>
    have hkeep : d ∈ c :: replaceMarker n a 0 s → d ∈ c :: s ∨ d ∈ a := by
      intro hd
      rcases List.mem_cons.mp hd with rfl | hd
      · exact Or.inl List.mem_cons_self
      · exact (ih hd).imp_left (List.mem_cons_of_mem c)
    cases skip with
    | succ skip => exact (ih h).imp_left (List.mem_cons_of_mem c)
    | zero =>
      rw [replaceMarker] at h
      split at h
      case h_2 => exact hkeep h
      case h_1 =>
        split at h
        · rcases List.mem_append.mp h with ha | hs
          · exact Or.inr ha
          · exact (ih hs).imp_left (List.mem_cons_of_mem c)
        · exact hkeep h

theorem replaceMarker_ne_nil (hs : s ≠ []) (ha : a ≠ []) : replaceMarker n a 0 s ≠ [] := by
  cases s with
  | nil => exact absurd rfl hs
  | cons c s =>
    rw [replaceMarker]
    split
    · split <;> simp [ha]
    · simp

theorem replaceMarker_of_not_mem (h : n ∉ markers s) : replaceMarker n a 0 s = s := by
  induction s with
  | nil => rfl
  | cons c s ih =>
    rw [markers, List.mem_append, not_or] at h
    rw [replaceMarker, ih h.2]
    cases hm : marker (c :: s) with
    | none => rfl
    | some p =>
      have hp : p.1 ≠ n := by
        rintro rfl
        exact h.1 (by simp [hm])
      simp [hp]

example : arg (arg ['%', '1', '-', '%', '2'] ['a', '%', '2']) ['b'] = ['a', 'b', '-', 'b'] := by
  decide

end QString
end MinerGate
