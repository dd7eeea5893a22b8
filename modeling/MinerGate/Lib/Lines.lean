import Mathlib.Data.List.Basic

/-!
# Lines and cuts

A text over any alphabet is cut at a separator into lines; the last one may be unfinished.
The lines of two pieces differ from the lines of the whole in the one line that the cut
falls into. A reader that ignores blanks around a line does not see the difference when
one of the two parts of that line is blank.
-/

namespace Lines

set_option autoImplicit false

universe u v
variable {α : Type u} {β : Type v}

section Blanks
variable (blank : α → Bool)

def Blank (s : List α) : Prop := s.all blank = true

instance (s : List α) : Decidable (Blank blank s) := inferInstanceAs (Decidable (_ = _))

def textLines (ls : List (List α)) : Nat := ls.countP fun l => ¬ Blank blank l

/-- A reader of single lines that finds nothing in a blank one and ignores blanks around a text. -/
structure IgnoresBlanks (f : List α → List β) : Prop where
  nothing : ∀ b, Blank blank b → f b = []
  left : ∀ b s, Blank blank b → f (b ++ s) = f s
  right : ∀ b s, Blank blank b → f (s ++ b) = f s

variable {blank}

theorem blank_nil : Blank blank [] := rfl

theorem blank_append {s t : List α} : Blank blank (s ++ t) ↔ Blank blank s ∧ Blank blank t := by
  simp [Blank]

theorem textLines_cons (l : List α) (ls : List (List α)) :
    textLines blank (l :: ls) = textLines blank ls + if Blank blank l then 0 else 1 := by
  rw [textLines, List.countP_cons, textLines]
  by_cases h : Blank blank l <;> simp [h]

theorem textLines_append (ls ms : List (List α)) :
    textLines blank (ls ++ ms) = textLines blank ls + textLines blank ms :=
  List.countP_append

end Blanks

variable [DecidableEq α] {sep : α}

def splitFirst (sep : α) : List α → List α × List α
  | [] => ([], [])
  | c :: cs => if c = sep then ([], cs) else (c :: (splitFirst sep cs).1, (splitFirst sep cs).2)

def lines (sep : α) : List α → List (List α)
  | [] => []
  | c :: cs =>
    if c = sep then [] :: lines sep cs
    else (c :: (lines sep cs).headD []) :: (lines sep cs).tail

def headLine (sep : α) (s : List α) : List α := (splitFirst sep s).1

def tailLine (sep : α) : List α → List α
  | [] => []
  | c :: cs => if c = sep ∨ sep ∈ cs then tailLine sep cs else c :: cs

theorem splitFirst_length (s : List α) (hs : s ≠ []) :
    (splitFirst sep s).2.length < s.length := by
  induction s with
  | nil => exact absurd rfl hs
  | cons c cs ih =>
    rw [splitFirst]
    split
    · exact Nat.lt_succ_self _
    · cases cs with
      | nil => exact Nat.succ_pos _
      | cons d ds => exact Nat.lt_succ_of_lt (ih (List.cons_ne_nil d ds))

theorem splitFirst_append {l : List α} (hl : sep ∉ l) (s : List α) :
    splitFirst sep (l ++ sep :: s) = (l, s) := by
  induction l with
  | nil => simp [splitFirst]
  | cons c cs ih =>
    rw [List.mem_cons, not_or] at hl
    rw [List.cons_append, splitFirst, if_neg (Ne.symm hl.1), ih hl.2]

theorem splitFirst_of_notMem {p : List α} (hp : sep ∉ p) : splitFirst sep p = (p, []) := by
  induction p with
  | nil => rfl
  | cons c cs ih =>
    rw [List.mem_cons, not_or] at hp
    rw [splitFirst, if_neg (Ne.symm hp.1), ih hp.2]

theorem lines_line {l : List α} (hl : sep ∉ l) (s : List α) :
    lines sep (l ++ sep :: s) = l :: lines sep s := by
  induction l with
  | nil => simp [lines]
  | cons c cs ih =>
    rw [List.mem_cons, not_or] at hl
    rw [List.cons_append, lines, if_neg (Ne.symm hl.1), ih hl.2]
    rfl

theorem lines_of_notMem {p : List α} (hp : sep ∉ p) (hne : p ≠ []) : lines sep p = [p] := by
  induction p with
  | nil => exact absurd rfl hne
  | cons c cs ih =>
    rw [List.mem_cons, not_or] at hp
    rw [lines, if_neg (Ne.symm hp.1)]
    cases cs with
    | nil => rfl
    | cons d ds => rw [ih hp.2 (List.cons_ne_nil d ds)]; rfl

/-- A text is one unfinished line, or a line, its separator and a text. -/
theorem line_induction (sep : α) {motive : List α → Prop} (open_line : ∀ p, sep ∉ p → motive p)
    (line : ∀ l s, sep ∉ l → motive s → motive (l ++ sep :: s)) (s : List α) : motive s := by
  by_cases hs : sep ∈ s
  · obtain ⟨l, t, rfl, hl⟩ := List.eq_append_cons_of_mem hs
    exact line l t hl (line_induction sep open_line line t)
  · exact open_line s hs
termination_by s.length
decreasing_by
  simp only [*, List.length_append, List.length_cons]
  omega

theorem lines_eq_splitFirst {s : List α} (hs : s ≠ []) :
    lines sep s = (splitFirst sep s).1 :: lines sep (splitFirst sep s).2 := by
  induction s using line_induction sep with
  | open_line p hp => rw [lines_of_notMem hp hs, splitFirst_of_notMem hp]; rfl
  | line l s hl _ => rw [lines_line hl, splitFirst_append hl]

theorem headLine_line {l : List α} (hl : sep ∉ l) (s : List α) :
    headLine sep (l ++ sep :: s) = l := by rw [headLine, splitFirst_append hl]

theorem headLine_of_notMem {p : List α} (hp : sep ∉ p) : headLine sep p = p := by
  rw [headLine, splitFirst_of_notMem hp]

theorem tailLine_line (l s : List α) : tailLine sep (l ++ sep :: s) = tailLine sep s := by
  induction l with
  | nil => simp [tailLine]
  | cons c cs ih =>
    rw [List.cons_append, tailLine, if_pos (Or.inr (by simp)), ih]

theorem tailLine_of_notMem {p : List α} (hp : sep ∉ p) : tailLine sep p = p := by
  cases p with
  | nil => rfl
  | cons c cs =>
    rw [List.mem_cons, not_or] at hp
    rw [tailLine, if_neg]
    rintro (h | h)
    · exact hp.1 h.symm
    · exact hp.2 h

theorem lines_append_of_notMem {p : List α} (hp : sep ∉ p) (hne : p ≠ []) (t : List α) :
    lines sep (p ++ t) = (p ++ headLine sep t) :: (lines sep t).tail := by
  by_cases ht : sep ∈ t
  · obtain ⟨l, s, rfl, hl⟩ := List.eq_append_cons_of_mem ht
    have hpl : sep ∉ p ++ l := fun h => (List.mem_append.mp h).elim hp hl
    rw [← List.append_assoc, lines_line hpl, headLine_line hl, lines_line hl]
    rfl
  · have hpt : sep ∉ p ++ t := fun h => (List.mem_append.mp h).elim hp ht
    rw [lines_of_notMem hpt (by simp [hne]), headLine_of_notMem ht]
    cases t with
    | nil => rfl
    | cons c cs => rw [lines_of_notMem ht (List.cons_ne_nil c cs)]; rfl

section Reader
variable (blank : α → Bool)

/-- The cut between `s` and `t` leaves text of one line on both of its sides. -/
def Splits (sep : α) (s t : List α) : Prop :=
  ¬ Blank blank (tailLine sep s) ∧ ¬ Blank blank (headLine sep t)

instance (s t : List α) : Decidable (Splits blank sep s t) := inferInstanceAs (Decidable (_ ∧ _))

variable {blank}

theorem splits_line {l s t : List α} :
    Splits blank sep (l ++ sep :: s) t ↔ Splits blank sep s t := by
  rw [Splits, Splits, tailLine_line]

theorem IgnoresBlanks.headLine {f : List α → List β} (hf : IgnoresBlanks blank f) (t : List α) :
    (lines sep t).flatMap f = f (headLine sep t) ++ (lines sep t).tail.flatMap f := by
  cases t with
  | nil => simp [lines, Lines.headLine, splitFirst, hf.nothing [] blank_nil]
  | cons c cs =>
    rw [lines_eq_splitFirst (List.cons_ne_nil c cs), List.flatMap_cons, List.tail_cons]
    rfl

/-- A cut that splits no text of a line is not seen by a reader that ignores blanks. -/
theorem IgnoresBlanks.flatMap_append {f : List α → List β} (hf : IgnoresBlanks blank f)
    {s t : List α} (h : ¬ Splits blank sep s t) :
    (lines sep (s ++ t)).flatMap f = (lines sep s).flatMap f ++ (lines sep t).flatMap f := by
  induction s using line_induction sep with
  | line l s hl ih =>
    rw [splits_line] at h
    rw [List.append_assoc, List.cons_append, lines_line hl, lines_line hl, List.flatMap_cons,
      List.flatMap_cons, ih h, List.append_assoc]
  | open_line p hp =>
    rw [Splits, tailLine_of_notMem hp, not_and_or, not_not, not_not] at h
    by_cases hne : p = []
    · subst hne; rfl
    · rw [lines_append_of_notMem hp hne, lines_of_notMem hp hne, hf.headLine t, List.flatMap_cons,
        List.flatMap_singleton, ← List.append_assoc]
      congr 1
      rcases h with h | h
      · rw [hf.left p _ h, hf.nothing p h, List.nil_append]
      · rw [hf.right _ p h, hf.nothing _ h, List.append_nil]

theorem textLines_headLine (t : List α) : textLines blank (lines sep t) =
    textLines blank (lines sep t).tail + if Blank blank (headLine sep t) then 0 else 1 := by
  cases t with
  | nil => simp [lines, headLine, splitFirst, blank_nil]
  | cons c cs =>
    rw [lines_eq_splitFirst (List.cons_ne_nil c cs), textLines_cons, List.tail_cons]
    rfl

/-- Every cut that splits a line's text makes two lines with text of one. -/
theorem textLines_lines_append (s t : List α) :
    textLines blank (lines sep s) + textLines blank (lines sep t) =
      textLines blank (lines sep (s ++ t)) + if Splits blank sep s t then 1 else 0 := by
  induction s using line_induction sep with
  | line l s hl ih =>
    rw [List.append_assoc, List.cons_append, lines_line hl, lines_line hl, textLines_cons,
      textLines_cons]
    by_cases hs : Splits blank sep s t
    · rw [if_pos hs] at ih
      rw [if_pos (splits_line.mpr hs)]
      omega
    · rw [if_neg hs] at ih
      rw [if_neg (mt splits_line.mp hs)]
      omega
  | open_line p hp =>
    simp only [Splits, tailLine_of_notMem hp]
    by_cases hne : p = []
    · simp [hne, blank_nil, lines, textLines]
    · rw [lines_append_of_notMem hp hne, lines_of_notMem hp hne, textLines_headLine t,
        textLines_cons, textLines_cons]
      have hnil : textLines blank ([] : List (List α)) = 0 := rfl
      by_cases hb : Blank blank p <;> by_cases ht : Blank blank (headLine sep t) <;>
        simp only [blank_append, hb, ht, hnil, and_self, and_true, and_false,
          not_true, not_false_iff, if_true, if_false] <;> omega

end Reader

section Cuts
variable (blank : α → Bool)

/-- No cut between consecutive segments splits the text of a line. -/
def CutsKeepLines (sep : α) : List (List α) → Prop
  | [] => True
  | s :: segs => ¬ Splits blank sep s segs.flatten ∧ CutsKeepLines sep segs

instance decidableCutsKeepLines : ∀ segs, Decidable (CutsKeepLines blank sep segs)
  | [] => .isTrue trivial
  | s :: segs =>
    haveI := decidableCutsKeepLines segs
    inferInstanceAs (Decidable (¬ Splits blank sep s segs.flatten ∧ CutsKeepLines blank sep segs))

variable {blank}

theorem IgnoresBlanks.flatMap_flatten {f : List α → List β} (hf : IgnoresBlanks blank f)
    {segs : List (List α)} (h : CutsKeepLines blank sep segs) :
    segs.flatMap (fun s => (lines sep s).flatMap f) = (lines sep segs.flatten).flatMap f := by
  induction segs with
  | nil => rfl
  | cons s segs ih =>
    rw [List.flatMap_cons, ih h.2, List.flatten_cons, hf.flatMap_append h.1]

theorem textLines_le_flatMap (segs : List (List α)) :
    textLines blank (lines sep segs.flatten) ≤
      textLines blank (segs.flatMap (lines sep)) := by
  induction segs with
  | nil => exact Nat.le_refl _
  | cons s segs ih =>
    have := @textLines_lines_append α _ sep blank s segs.flatten
    rw [List.flatten_cons, List.flatMap_cons, textLines_append]
    omega

/-- The segments hold as many lines with text as the whole exactly when no cut splits one. -/
theorem textLines_flatMap_iff (segs : List (List α)) :
    textLines blank (segs.flatMap (lines sep)) = textLines blank (lines sep segs.flatten) ↔
      CutsKeepLines blank sep segs := by
  induction segs with
  | nil => exact ⟨fun _ => trivial, fun _ => rfl⟩
  | cons s segs ih =>
    have happ := @textLines_lines_append α _ sep blank s segs.flatten
    have hle := @textLines_le_flatMap α _ sep blank segs
    rw [List.flatten_cons, List.flatMap_cons, CutsKeepLines, ← ih]
    rw [textLines_append]
    by_cases hs : Splits blank sep s segs.flatten
    · rw [if_pos hs] at happ
      simp only [hs, not_true, false_and, iff_false]
      omega
    · rw [if_neg hs] at happ
      simp only [hs, not_false_iff, true_and]
      omega

end Cuts

end Lines
