import Mathlib.Algebra.GroupWithZero.Nat
import MinerGate.Lib.Lines
import MinerGate.Qt.Json

/-!
# Framing of the received stream

`readyRead` takes one line after another from the socket until no byte is left and hands
each to `fromJson`. It does not ask whether the last line is finished.
-/

namespace MinerGate.JsonRpc

set_option autoImplicit false

open Lines

abbrev Text := List UInt8

def newline : UInt8 := 10
def carriageReturn : UInt8 := 13

/-- The blanks that JSON allows around a document. -/
def isBlank (c : UInt8) : Bool := c = 32 || c = 9 || c = newline || c = carriageReturn

def dropCarriageReturn (line : Text) : Text :=
  if line.getLast? = some carriageReturn then line.dropLast else line

/-- `QTextStream::readLine`: the line without its end, and the bytes after it. Without a
newline it is everything that is left. -/
def readLine (avail : Text) : Text × Text :=
  (dropCarriageReturn (splitFirst newline avail).1, (splitFirst newline avail).2)

section ReadyRead
variable (fromJson : Text → JsonObject)

def readyRead (avail : Text) : List JsonObject × Text :=
  if _h : avail = [] then ([], avail)
  else
    (fromJson (readLine avail).1 :: (readyRead (readLine avail).2).1,
      (readyRead (readLine avail).2).2)
termination_by avail.length
decreasing_by all_goals exact splitFirst_length avail _h

def receive : Text → List Text → List JsonObject
  | _, [] => []
  | unread, seg :: segs =>
    (readyRead fromJson (unread ++ seg)).1 ++
      receive (readyRead fromJson (unread ++ seg)).2 segs

/-- The non-empty objects that reach `processData` while the segments arrive. -/
def delivered (segs : List Text) : List JsonObject :=
  (receive fromJson [] segs).filter fun obj => !obj.isEmpty

def lineObjects (line : Text) : List JsonObject :=
  [fromJson (dropCarriageReturn line)].filter fun obj => !obj.isEmpty

theorem readyRead_eq_lines (avail : Text) :
    readyRead fromJson avail =
      ((lines newline avail).map fun line => fromJson (dropCarriageReturn line), []) := by
  induction avail using readyRead.induct with
  | case1 => rw [readyRead]; rfl
  | case2 avail hne ih =>
    rw [readyRead, dif_neg hne, ih, lines_eq_splitFirst hne]
    rfl

theorem receive_eq_lines (segs : List Text) :
    receive fromJson [] segs = segs.flatMap fun seg =>
      (lines newline seg).map fun line => fromJson (dropCarriageReturn line) := by
  induction segs with
  | nil => rfl
  | cons seg segs ih =>
    rw [receive, List.nil_append, readyRead_eq_lines, ih, List.flatMap_cons]

theorem filter_map_fromJson (ls : List Text) :
    (ls.map fun line => fromJson (dropCarriageReturn line)).filter (fun obj => !obj.isEmpty) =
      ls.flatMap (lineObjects fromJson) := by
  induction ls with
  | nil => rfl
  | cons l ls ih =>
    rw [List.map_cons, List.flatMap_cons, ← ih, ← List.singleton_append, List.filter_append]
    rfl

/-- Nothing is kept from one call to the next: every segment is read by itself. -/
theorem delivered_eq_lines (segs : List Text) :
    delivered fromJson segs = segs.flatMap fun seg =>
      (lines newline seg).flatMap (lineObjects fromJson) := by
  rw [delivered, receive_eq_lines, List.filter_flatMap]
  simp only [filter_map_fromJson]

end ReadyRead

/-- A text is a complete JSON document or not, whatever blanks stand around it. -/
structure IsDocument (complete : Text → Prop) : Prop where
  not_blank : ∀ b, Blank isBlank b → ¬ complete b
  left : ∀ b t, Blank isBlank b → (complete (b ++ t) ↔ complete t)
  right : ∀ b t, Blank isBlank b → (complete (t ++ b) ↔ complete t)

/-- What the client relies on in `QJsonDocument::fromJson(..).object()`. -/
structure ParsesDocuments (complete : Text → Prop) (fromJson : Text → JsonObject) : Prop where
  incomplete : ∀ t, ¬ complete t → fromJson t = []
  left : ∀ b t, Blank isBlank b → fromJson (b ++ t) = fromJson t
  right : ∀ b t, Blank isBlank b → fromJson (t ++ b) = fromJson t

def stream (msgs : List Text) : Text := (msgs.map fun m => m ++ [newline]).flatten

section Contract
variable {complete : Text → Prop} {fromJson : Text → JsonObject}

theorem blank_carriageReturn : Blank isBlank [carriageReturn] := by decide

theorem dropCarriageReturn_append (line : Text) :
    dropCarriageReturn line = line ∨ dropCarriageReturn line ++ [carriageReturn] = line := by
  rw [dropCarriageReturn]
  split
  case isTrue h => exact .inr (List.dropLast_append_getLast? _ h)
  case isFalse => exact .inl rfl

theorem ParsesDocuments.dropCarriageReturn (hp : ParsesDocuments complete fromJson)
    (line : Text) : fromJson (dropCarriageReturn line) = fromJson line := by
  rcases dropCarriageReturn_append line with h | h
  · rw [h]
  · conv_rhs => rw [← h]
    exact (hp.right _ _ blank_carriageReturn).symm

theorem ParsesDocuments.lineObjects_eq (hp : ParsesDocuments complete fromJson) (line : Text) :
    lineObjects fromJson line = [fromJson line].filter fun obj => !obj.isEmpty := by
  rw [lineObjects, hp.dropCarriageReturn]

/-- The client's treatment of one line ignores blanks, so the lines' general facts apply. -/
theorem ParsesDocuments.ignoresBlanks (hc : IsDocument complete)
    (hp : ParsesDocuments complete fromJson) : IgnoresBlanks isBlank (lineObjects fromJson) where
  nothing b hb := by rw [hp.lineObjects_eq, hp.incomplete b (hc.not_blank b hb)]; rfl
  left b t hb := by rw [hp.lineObjects_eq, hp.lineObjects_eq, hp.left b t hb]
  right b t hb := by rw [hp.lineObjects_eq, hp.lineObjects_eq, hp.right b t hb]

theorem delivered_of_cutsKeepLines (hc : IsDocument complete)
    (hp : ParsesDocuments complete fromJson) {segs : List Text}
    (h : CutsKeepLines isBlank newline segs) :
    delivered fromJson segs = delivered fromJson [segs.flatten] := by
  rw [delivered_eq_lines, delivered_eq_lines, List.flatMap_singleton]
  exact (hp.ignoresBlanks hc).flatMap_flatten h

end Contract

section Marking

def ink (t : Text) : Text := t.filter fun c => !isBlank c

def mark (t : Text) : JsonObject := [("text", .arr ((ink t).map fun c => .int c.toNat))]

def inkShown (obj : JsonObject) : Nat :=
  match obj.value "text" with
  | .arr items => items.length
  | _ => 0

/-- A parser whose objects show the text they were made from. -/
def marked (complete : Text → Prop) [DecidablePred complete] (t : Text) : JsonObject :=
  if complete t then mark t else []

theorem inkShown_mark (t : Text) : inkShown (mark t) = (ink t).length := by
  show ((ink t).map _).length = _
  rw [List.length_map]

theorem ink_append (s t : Text) : ink (s ++ t) = ink s ++ ink t := by
  rw [ink, List.filter_append]
  rfl

theorem ink_eq_nil_iff {t : Text} : ink t = [] ↔ Blank isBlank t := by
  rw [ink, List.filter_eq_nil_iff, Blank, List.all_eq_true]
  simp

theorem ink_lines (s : Text) :
    ((lines newline s).map fun l => (ink l).length).sum = (ink s).length := by
  induction s using line_induction newline with
  | open_line p hp =>
    cases p with
    | nil => rfl
    | cons c cs =>
      rw [lines_of_notMem hp (List.cons_ne_nil c cs), List.map_singleton, List.sum_singleton]
  | line l s hl ih =>
    have hnl : ink (newline :: s) = ink s := rfl
    rw [lines_line hl, List.map_cons, List.sum_cons, ih, ink_append, hnl, List.length_append]

theorem ink_pieces (segs : List Text) :
    ((segs.flatMap (lines newline)).map fun l => (ink l).length).sum =
      (ink segs.flatten).length := by
  induction segs with
  | nil => rfl
  | cons s segs ih =>
    rw [List.flatMap_cons, List.map_append, List.sum_append, ink_lines, ih, List.flatten_cons,
      ink_append, List.length_append]

theorem lines_stream {msgs : List Text} (hm : ∀ m ∈ msgs, newline ∉ m) :
    lines newline (stream msgs) = msgs := by
  induction msgs with
  | nil => rfl
  | cons m msgs ih =>
    have : stream (m :: msgs) = m ++ newline :: stream msgs := by simp [stream]
    rw [this, lines_line (hm m List.mem_cons_self), ih fun m' h => hm m' (List.mem_cons_of_mem m h)]

theorem filter_sum_le {α : Type*} (p : α → Bool) (w : α → Nat) (l : List α) :
    ((l.filter p).map w).sum ≤ (l.map w).sum := by
  induction l with
  | nil => exact Nat.le_refl _
  | cons a l ih =>
    rw [List.filter_cons]
    split
    · rw [List.map_cons, List.map_cons, List.sum_cons, List.sum_cons]
      omega
    · rw [List.map_cons, List.sum_cons]
      omega

theorem weight_zero_of_filter_sum {α : Type*} {p : α → Bool} {w : α → Nat} {l : List α}
    (h : (l.map w).sum = ((l.filter p).map w).sum) : ∀ x ∈ l, p x = false → w x = 0 := by
  induction l with
  | nil => simp
  | cons a l ih =>
    have hle := filter_sum_le p w l
    intro x hx hpx
    cases ha : p a with
    | true =>
      rw [List.filter_cons_of_pos ha, List.map_cons, List.map_cons, List.sum_cons,
        List.sum_cons] at h
      rcases List.mem_cons.mp hx with rfl | hx
      · rw [ha] at hpx
        cases hpx
      · exact ih (by omega) x hx hpx
    | false =>
      rw [List.filter_cons_of_neg (by simp [ha]), List.map_cons, List.sum_cons] at h
      rcases List.mem_cons.mp hx with rfl | hx
      · omega
      · exact ih (by omega) x hx hpx

variable {complete : Text → Prop} [DecidablePred complete]

theorem marked_parses (hc : IsDocument complete) : ParsesDocuments complete (marked complete) where
  incomplete t ht := if_neg ht
  left b t hb := by
    simp only [marked, mark, hc.left b t hb, ink_append, ink_eq_nil_iff.mpr hb, List.nil_append]
  right b t hb := by
    simp only [marked, mark, hc.right b t hb, ink_append, ink_eq_nil_iff.mpr hb, List.append_nil]

theorem delivered_marked (hc : IsDocument complete) (segs : List Text) :
    delivered (marked complete) segs =
      ((segs.flatMap (lines newline)).filter (complete ·)).map mark := by
  have hline : ∀ l, lineObjects (marked complete) l = ([l].filter (complete ·)).map mark := by
    intro l
    rw [(marked_parses hc).lineObjects_eq, marked]
    by_cases hl : complete l
    · simp [hl, mark]
    · simp [hl]
  rw [delivered_eq_lines, ← List.flatMap_assoc]
  induction segs.flatMap (lines newline) with
  | nil => rfl
  | cons l ls ih =>
    rw [List.flatMap_cons, ih, hline, ← List.map_append, ← List.filter_append,
      List.singleton_append]

/-- If the marks of the segments' lines are those of the messages, then every line with text
is one whole message. -/
theorem cutsKeepLines_of_marked (hc : IsDocument complete) {msgs segs : List Text}
    (hm : ∀ m ∈ msgs, newline ∉ m ∧ complete m) (hsegs : segs.flatten = stream msgs)
    (h : delivered (marked complete) segs = delivered (marked complete) [stream msgs]) :
    CutsKeepLines isBlank newline segs := by
  have hlines := lines_stream fun m hm' => (hm m hm').1
  have hwhole : msgs.filter (complete ·) = msgs :=
    List.filter_eq_self.mpr fun m hm' => decide_eq_true (hm m hm').2
  rw [delivered_marked hc, delivered_marked hc, List.flatMap_singleton, hlines, hwhole] at h
  have hink : ((segs.flatMap (lines newline)).filter (complete ·)).map (fun l => (ink l).length) =
      msgs.map fun m => (ink m).length := by
    have := congrArg (List.map inkShown) h
    simpa only [List.map_map, Function.comp_def, inkShown_mark] using this
  have hcount : (segs.flatMap (lines newline)).countP (complete ·) = msgs.length := by
    have := congrArg List.length h
    rwa [List.length_map, List.length_map, ← List.countP_eq_length_filter] at this
  have hsum : ((segs.flatMap (lines newline)).map fun l => (ink l).length).sum =
      (((segs.flatMap (lines newline)).filter (complete ·)).map fun l => (ink l).length).sum := by
    rw [ink_pieces, hink, hsegs, ← ink_lines, hlines]
  have hrest := weight_zero_of_filter_sum hsum
  have hcomplete : ∀ l ∈ segs.flatMap (lines newline), complete l ↔ ¬ Blank isBlank l := by
    intro l hl
    refine ⟨fun h hb => hc.not_blank l hb h, fun hb => ?_⟩
    by_contra hl'
    have := hrest l hl (decide_eq_false hl')
    exact hb (ink_eq_nil_iff.mp (List.length_eq_zero_iff.mp this))
  rw [← textLines_flatMap_iff, hsegs, hlines]
  have hpieces : textLines isBlank (segs.flatMap (lines newline)) = msgs.length := by
    rw [← hcount]
    exact List.countP_congr fun l hl => by simp [hcomplete l hl]
  have hmsgs : textLines isBlank msgs = msgs.length :=
    List.countP_eq_length.mpr fun m hm' => by
      have := mt (hc.not_blank m) (not_not.mpr (hm m hm').2)
      simpa using this
  rw [hpieces, hmsgs]

end Marking

/-- For one-line messages the segmentation is not seen, whatever the parser, exactly when no
cut leaves text of one line on both of its sides. -/
theorem delivered_segments_iff {complete : Text → Prop} (hc : IsDocument complete)
    {msgs segs : List Text} (hm : ∀ m ∈ msgs, newline ∉ m ∧ complete m)
    (hsegs : segs.flatten = stream msgs) :
    (∀ fromJson, ParsesDocuments complete fromJson →
      delivered fromJson segs = delivered fromJson [stream msgs]) ↔
      CutsKeepLines isBlank newline segs := by
  constructor
  · intro h
    classical
    exact cutsKeepLines_of_marked hc hm hsegs (h _ (marked_parses hc))
  · intro h fromJson hp
    rw [← hsegs]
    exact delivered_of_cutsKeepLines hc hp h

section Response

def response : Text := [123, 34, 105, 100, 34, 58, 49, 125]

abbrev IsResponse (t : Text) : Prop := ink t = response

def parseResponse (t : Text) : JsonObject := if IsResponse t then [("id", .int 1)] else []

theorem isResponse_document : IsDocument IsResponse where
  not_blank b hb := by rw [IsResponse, ink_eq_nil_iff.mpr hb]; decide
  left b t hb := by rw [IsResponse, ink_append, ink_eq_nil_iff.mpr hb]; rfl
  right b t hb := by rw [IsResponse, ink_append, ink_eq_nil_iff.mpr hb, List.append_nil]

theorem parseResponse_parses : ParsesDocuments IsResponse parseResponse where
  incomplete t ht := if_neg ht
  left b t hb := by simp only [parseResponse, isResponse_document.left b t hb]
  right b t hb := by simp only [parseResponse, isResponse_document.right b t hb]

/-- The newline may come in a segment of its own. -/
theorem late_newline_not_seen :
    (∀ m ∈ [response], newline ∉ m ∧ IsResponse m) ∧
      CutsKeepLines isBlank newline [response, [newline]] ∧
      delivered parseResponse [response, [newline]] = delivered parseResponse [stream [response]] :=
  have hm : ∀ m ∈ [response], newline ∉ m ∧ IsResponse m := by decide
  have hcuts : CutsKeepLines isBlank newline [response, [newline]] := by decide
  have hsegs : [response, [newline]].flatten = stream [response] := rfl
  ⟨hm, hcuts,
    (delivered_segments_iff isResponse_document hm hsegs).mpr hcuts _ parseResponse_parses⟩

/-- Cut after its key, the object is lost. -/
theorem cut_response_lost :
    ¬ ∀ (complete : Text → Prop) (fromJson : Text → JsonObject) (msgs segs : List Text),
      IsDocument complete → ParsesDocuments complete fromJson →
      (∀ m ∈ msgs, newline ∉ m ∧ complete m) → segs.flatten = stream msgs →
      delivered fromJson segs = delivered fromJson [stream msgs] := by
  intro h
  have := h IsResponse parseResponse [response] [response.take 5, response.drop 5 ++ [newline]]
    isResponse_document parseResponse_parses (by decide) rfl
  have hlength := congrArg List.length this
  rw [delivered_eq_lines, delivered_eq_lines] at hlength
  exact absurd hlength (by decide)

end Response

end MinerGate.JsonRpc
