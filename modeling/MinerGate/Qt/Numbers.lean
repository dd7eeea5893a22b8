import Mathlib.Data.UInt
import MinerGate.Qt.Json
import MinerGate.Qt.QString

/-!
# Numbers in strings

`QString::number` writes a number in decimal, and `toUInt` and `toInt` read it back. Blanks around
and a plus sign are read over.
-/

namespace MinerGate.QString

set_option autoImplicit false

/-- A number that is not negative. -/
def number (n : Nat) : QString := Nat.toDigits 10 n

/-- `toUInt` of the string, `none` where its flag is false. -/
def toUInt (s : QString) : Option UInt32 :=
  let digits := withoutPlus (trimmed s)
  if digits ≠ [] ∧ digits.all Char.isDigit = true ∧
      Nat.ofDigitChars 10 digits 0 < 4294967296 then
    some (UInt32.ofNat (Nat.ofDigitChars 10 digits 0))
  else none

/-- The digits of the string, without a sign. -/
def digitsValue (digits : QString) : Option Nat :=
  if digits ≠ [] ∧ digits.all Char.isDigit = true then some (Nat.ofDigitChars 10 digits 0) else none

/-- `toInt` of the string, `none` where its flag is false. -/
def toInt (s : QString) : Option Int :=
  match trimmed s with
  | '-' :: digits => (digitsValue digits).bind fun v => if v ≤ 2147483648 then some (-v) else none
  | text => (digitsValue (withoutPlus text)).bind fun v => if v < 2147483648 then some v else none

theorem isDigit_of_mem_number {n : Nat} {c : Char} (h : c ∈ number n) : c.isDigit = true :=
  Nat.isDigit_of_mem_toDigits (by decide) (by decide) h

theorem ne_of_isDigit {c d : Char} (hc : c.isDigit = true) (hd : d.isDigit = false) : c ≠ d := by
  rintro rfl
  rw [hc] at hd
  cases hd

theorem isWhitespace_of_isDigit {c : Char} (h : c.isDigit = true) : c.isWhitespace = false := by
  have hne : ∀ d : Char, d.isDigit = false → c ≠ d := fun d => ne_of_isDigit h
  simp only [Char.isWhitespace, Bool.or_eq_false_iff, decide_eq_false_iff_not]
  exact ⟨⟨⟨hne ' ' rfl, hne '\t' rfl⟩, hne '\r' rfl⟩, hne '\n' rfl⟩

theorem dropWhile_eq_self {s : QString} (h : ∀ c ∈ s, c.isWhitespace = false) :
    s.dropWhile Char.isWhitespace = s := by
  cases s with
  | nil => rfl
  | cons c s => rw [List.dropWhile_cons_of_neg (by simp [h c List.mem_cons_self])]

theorem trimmed_eq_self {s : QString} (h : ∀ c ∈ s, c.isWhitespace = false) : trimmed s = s := by
  rw [trimmed, dropWhile_eq_self h, dropWhile_eq_self, List.reverse_reverse]
  intro c hc
  exact h c (List.mem_reverse.mp hc)

theorem withoutPlus_eq_self {s : QString} (h : ∀ c ∈ s, c ≠ '+') : withoutPlus s = s := by
  cases s with
  | nil => rfl
  | cons c s =>
    rw [withoutPlus.eq_2]
    intro ds heq
    exact h c List.mem_cons_self (List.head_eq_of_cons_eq heq)

theorem number_ne_nil (n : Nat) : number n ≠ [] := Nat.toDigits_ne_nil

theorem all_isDigit_number (n : Nat) : (number n).all Char.isDigit = true :=
  List.all_eq_true.mpr fun _ => isDigit_of_mem_number

theorem ofDigitChars_number (n : Nat) : Nat.ofDigitChars 10 (number n) 0 = n :=
  Nat.ofDigitChars_ten_toDigits

theorem trimmed_number (n : Nat) : trimmed (number n) = number n :=
  trimmed_eq_self fun _ h => isWhitespace_of_isDigit (isDigit_of_mem_number h)

theorem withoutPlus_number (n : Nat) : withoutPlus (number n) = number n :=
  withoutPlus_eq_self fun _ h => ne_of_isDigit (isDigit_of_mem_number h) (by decide)

theorem toUInt_number {n : Nat} (hn : n < 4294967296) :
    toUInt (number n) = some (UInt32.ofNat n) := by
  rw [toUInt, trimmed_number, withoutPlus_number]
  simp only [ofDigitChars_number]
  exact if_pos ⟨number_ne_nil n, all_isDigit_number n, hn⟩

theorem digitsValue_number (n : Nat) : digitsValue (number n) = some n := by
  rw [digitsValue, if_pos ⟨number_ne_nil n, all_isDigit_number n⟩, ofDigitChars_number]

theorem toInt_number (n : Nat) :
    toInt (number n) = if n < 2147483648 then some (n : Int) else none := by
  rw [toInt, trimmed_number]
  split
  case h_1 digits heq =>
    have hminus : '-' ∈ number n := heq ▸ List.mem_cons_self
    have hsign : '-'.isDigit = false := by decide
    exact absurd rfl (ne_of_isDigit (isDigit_of_mem_number hminus) hsign)
  case h_2 => rw [withoutPlus_number, digitsValue_number, Option.bind_some]

theorem number_inj {m n : Nat} (h : number m = number n) : m = n := by
  rw [← ofDigitChars_number m, h, ofDigitChars_number]

end MinerGate.QString
