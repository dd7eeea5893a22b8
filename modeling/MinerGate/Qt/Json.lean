import Mathlib.Data.List.Basic

/-!
# JSON values as the client reads them

A `QVariantMap` made from a JSON object has the object's entries, so both are one type
here. A null `QString` differs from an empty one and is `none`.
-/

namespace MinerGate

set_option autoImplicit false

inductive Json where
  | null
  | bool (b : Bool)
  | int (n : Int)
  /-- A number that is not an integer: the nearest one, and the number as it is written. -/
  | frac (nearest : Int) (text : String)
  | str (s : String)
  | arr (items : List Json)
  | obj (entries : List (String × Json))
deriving Inhabited

abbrev JsonObject := List (String × Json)

namespace JsonObject

def contains (o : JsonObject) (key : String) : Bool := (o.lookup key).isSome

/-- A missing key reads as an undefined value, which the client treats like null. -/
def value (o : JsonObject) (key : String) : Json := (o.lookup key).getD .null

def insert (o : JsonObject) (key : String) (v : Json) : JsonObject :=
  o.filter (fun e => e.1 ≠ key) ++ [(key, v)]

end JsonObject

namespace Json

def isNull : Json → Bool
  | null => true
  | _ => false

/-- `QJsonValue::toString`: only a string has one. -/
def toString : Json → String
  | str s => s
  | _ => ""

def toObject : Json → JsonObject
  | obj o => o
  | _ => []

/-- `QJsonValue::toInt`: an integral number in the range of `int`. -/
def toInt : Json → Int
  | int n => if -2147483648 ≤ n ∧ n ≤ 2147483647 then n else 0
  | _ => 0

def escapeChar (c : Char) : String :=
  if c = '"' then "\\\""
  else if c = '\\' then "\\\\"
  else if c = '\n' then "\\n"
  else if c = '\r' then "\\r"
  else if c = '\t' then "\\t"
  else if c.toNat = 8 then "\\b"
  else if c.toNat = 12 then "\\f"
  else if c.toNat < 32 then
    "\\u00" ++ String.ofList [Nat.digitChar (c.toNat / 16), Nat.digitChar (c.toNat % 16)]
  else String.singleton c

def quoted (s : String) : String :=
  "\"" ++ String.join (s.toList.map escapeChar) ++ "\""

mutual

/-- The text that `QJsonDocument::toJson(Compact)` writes for a value. -/
def compact : Json → String
  | null => "null"
  | bool b => if b then "true" else "false"
  | int n => ToString.toString n
  | frac _ text => text
  | str s => quoted s
  | arr items => "[" ++ compactItems items ++ "]"
  | obj entries => "\x7b" ++ compactEntries entries ++ "\x7d"

def compactItems : List Json → String
  | [] => ""
  | [v] => compact v
  | v :: vs => compact v ++ "," ++ compactItems vs

def compactEntries : List (String × Json) → String
  | [] => ""
  | [(key, v)] => quoted key ++ ":" ++ compact v
  | (key, v) :: es => quoted key ++ ":" ++ compact v ++ "," ++ compactEntries es

end

/-- `QVariant::toString` of the value; none is the null string. -/
def variantToString : Json → Option String
  | str s => some s
  | int n => some (ToString.toString n)
  | frac _ text => some text
  | bool b => some (if b then "true" else "false")
  | _ => none

def wrapInt (n : Int) : Int := (n + 2147483648) % 4294967296 - 2147483648

end Json

def quint64Modulus : Nat := 18446744073709551616

def trimmed (s : List Char) : List Char :=
  ((s.dropWhile Char.isWhitespace).reverse.dropWhile Char.isWhitespace).reverse

def withoutPlus : List Char → List Char
  | '+' :: ds => ds
  | ds => ds

/-- `QString::toULongLong`: blanks around and a plus sign are read over; what is no number
of 64 bits reads as 0. -/
def toULongLong (s : String) : Nat :=
  let digits := withoutPlus (trimmed s.toList)
  if digits ≠ [] ∧ digits.all Char.isDigit = true ∧
      Nat.ofDigitChars 10 digits 0 < quint64Modulus then
    Nat.ofDigitChars 10 digits 0
  else 0

def toLongLong (s : String) : Int :=
  let t := trimmed s.toList
  let (negative, digits) := match t with
    | '-' :: ds => (true, ds)
    | ds => (false, withoutPlus ds)
  let n := Nat.ofDigitChars 10 digits 0
  if digits ≠ [] ∧ digits.all Char.isDigit = true then
    if negative ∧ n ≤ 9223372036854775808 then -n
    else if n < 9223372036854775808 then n
    else 0
  else 0

def Json.variantToInt : Json → Int
  | .int n => wrapInt n
  | .frac nearest _ => wrapInt nearest
  | .bool b => if b then 1 else 0
  | .str s => wrapInt (toLongLong s)
  | _ => 0

theorem not_isWhitespace_of_isDigit {c : Char} (h : c.isDigit = true) :
    c.isWhitespace = false := by
  simp only [Char.isDigit, Bool.and_eq_true, decide_eq_true_eq] at h
  simp only [Char.isWhitespace, Bool.or_eq_false_iff, decide_eq_false_iff_not]
  refine ⟨⟨⟨?_, ?_⟩, ?_⟩, ?_⟩ <;>
  · rintro rfl
    exact absurd h (by decide)

theorem dropWhile_of_all_not {p : Char → Bool} {s : List Char} (h : ∀ c ∈ s, p c = false) :
    s.dropWhile p = s := by
  cases s with
  | nil => rfl
  | cons c cs => rw [List.dropWhile_cons, h c List.mem_cons_self]; rfl

theorem trimmed_of_digits {s : List Char} (h : ∀ c ∈ s, c.isDigit = true) : trimmed s = s := by
  have hblank : ∀ c ∈ s, c.isWhitespace = false := fun c hc =>
    not_isWhitespace_of_isDigit (h c hc)
  rw [trimmed, dropWhile_of_all_not hblank, dropWhile_of_all_not, List.reverse_reverse]
  exact fun c hc => hblank c (List.mem_reverse.mp hc)

theorem withoutPlus_of_digits {s : List Char} (h : ∀ c ∈ s, c.isDigit = true) :
    withoutPlus s = s := by
  rw [withoutPlus.eq_def]
  split
  case h_1 ds =>
    have := h '+' List.mem_cons_self
    exact absurd this (by decide)
  case h_2 => rfl

theorem toULongLong_repr {n : Nat} (h : n < quint64Modulus) : toULongLong n.repr = n := by
  have hdigits : ∀ c ∈ Nat.toDigits 10 n, c.isDigit = true := fun c hc =>
    Nat.isDigit_of_mem_toDigits (by decide) (by decide) hc
  rw [toULongLong, Nat.toList_repr, trimmed_of_digits hdigits, withoutPlus_of_digits hdigits,
    Nat.ofDigitChars_ten_toDigits]
  exact if_pos ⟨Nat.toDigits_ne_nil, List.all_eq_true.mpr hdigits, h⟩

end MinerGate
