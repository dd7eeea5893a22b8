import Mathlib.Algebra.Group.Nat.Defs
import Mathlib.Data.List.Induction
import Mathlib.Data.Nat.Bitwise

/-!
# Byte arrays

`QByteArray` with the conversions that jobs and shares go through. Characters that are no
hex digits are skipped by `fromHex`, which pairs the digits from the end of the text.
-/

namespace MinerGate

set_option autoImplicit false

abbrev QByteArray := List UInt8

namespace QByteArray

def toUtf8 (s : String) : QByteArray := s.toByteArray.data.toList

def fromUtf8 (b : QByteArray) : String := (String.fromUTF8? ⟨b.toArray⟩).getD ""

theorem fromUtf8_toUtf8 (s : String) : fromUtf8 (toUtf8 s) = s := by
  have hvalid : ByteArray.IsValidUTF8 ⟨(toUtf8 s).toArray⟩ := s.isValidUTF8
  rw [fromUtf8, String.fromUTF8?, dif_pos hvalid]
  rfl

/-- The `k` lowest bytes of a number, the lowest first. -/
def littleEndian : Nat → Nat → QByteArray
  | 0, _ => []
  | k + 1, n => UInt8.ofNat n :: littleEndian k (n / 256)

def bigEndian (k n : Nat) : QByteArray := (littleEndian k n).reverse

def readLittleEndian : QByteArray → Nat
  | [] => 0
  | b :: bs => b.toNat + 256 * readLittleEndian bs

theorem length_littleEndian (k n : Nat) : (littleEndian k n).length = k := by
  induction k generalizing n with
  | zero => rfl
  | succ k ih => rw [littleEndian, List.length_cons, ih]

theorem littleEndian_mod (k n : Nat) : littleEndian k (n % 256 ^ k) = littleEndian k n := by
  induction k generalizing n with
  | zero => rfl
  | succ k ih =>
    have hhead : UInt8.ofNat (n % 256 ^ (k + 1)) = UInt8.ofNat n := by
      apply UInt8.toNat_inj.mp
      rw [UInt8.toNat_ofNat', UInt8.toNat_ofNat', Nat.pow_succ]
      exact Nat.mod_mul_left_mod n (256 ^ k) 256
    have htail : n % 256 ^ (k + 1) / 256 = n / 256 % 256 ^ k := by
      rw [Nat.pow_succ, Nat.mul_comm]
      exact Nat.mod_mul_right_div_self n 256 (256 ^ k)
    rw [littleEndian, littleEndian, hhead, htail, ih]

theorem readLittleEndian_lt (b : QByteArray) : readLittleEndian b < 256 ^ b.length := by
  induction b with
  | nil => decide
  | cons b bs ih =>
    have hb := b.toNat_lt
    rw [readLittleEndian, List.length_cons, Nat.pow_succ]
    omega

theorem readLittleEndian_append (a c : QByteArray) :
    readLittleEndian (a ++ c) = readLittleEndian a + 256 ^ a.length * readLittleEndian c := by
  induction a with
  | nil => simp [readLittleEndian]
  | cons b a ih =>
    rw [List.cons_append, readLittleEndian, ih, readLittleEndian, List.length_cons, Nat.pow_succ']
    rw [Nat.mul_add, Nat.mul_assoc, Nat.add_assoc]

theorem littleEndian_readLittleEndian (b : QByteArray) :
    littleEndian b.length (readLittleEndian b) = b := by
  induction b with
  | nil => rfl
  | cons b bs ih =>
    have hb := b.toNat_lt
    have hdiv : (b.toNat + 256 * readLittleEndian bs) / 256 = readLittleEndian bs := by omega
    have hhead : UInt8.ofNat (b.toNat + 256 * readLittleEndian bs) = b := by
      apply UInt8.toNat_inj.mp
      rw [UInt8.toNat_ofNat']
      omega
    rw [List.length_cons, readLittleEndian, littleEndian, hhead, hdiv, ih]

theorem littleEndian_or (k m n : Nat) :
    littleEndian k (m ||| n) = List.zipWith (· ||| ·) (littleEndian k m) (littleEndian k n) := by
  induction k generalizing m n with
  | zero => rfl
  | succ k ih =>
    have hdiv : (m ||| n) / 256 = m / 256 ||| n / 256 := Nat.or_div_two_pow (n := 8)
    rw [littleEndian, littleEndian, littleEndian, hdiv, ih, List.zipWith_cons_cons,
      UInt8.ofNat_or]

theorem littleEndian_and (k m n : Nat) :
    littleEndian k (m &&& n) = List.zipWith (· &&& ·) (littleEndian k m) (littleEndian k n) := by
  induction k generalizing m n with
  | zero => rfl
  | succ k ih =>
    have hdiv : (m &&& n) / 256 = m / 256 &&& n / 256 := Nat.and_div_two_pow (n := 8)
    rw [littleEndian, littleEndian, littleEndian, hdiv, ih, List.zipWith_cons_cons,
      UInt8.ofNat_and]

def hexDigit (n : Nat) : Char := Nat.digitChar n

def hexValue (c : Char) : Option Nat :=
  if '0' ≤ c ∧ c ≤ '9' then some (c.toNat - 48)
  else if 'a' ≤ c ∧ c ≤ 'f' then some (c.toNat - 87)
  else if 'A' ≤ c ∧ c ≤ 'F' then some (c.toNat - 55)
  else none

def hexDigits (b : UInt8) : List Char := [hexDigit (b.toNat / 16), hexDigit (b.toNat % 16)]

def toHex (b : QByteArray) : String := String.ofList (b.flatMap hexDigits)

/-- The bytes of the digits, given and returned from the end of the text. -/
def pairDigits : List Nat → QByteArray
  | [] => []
  | [low] => [UInt8.ofNat low]
  | low :: high :: rest => UInt8.ofNat (16 * high + low) :: pairDigits rest

def fromHex (s : String) : QByteArray := (pairDigits (s.toList.filterMap hexValue).reverse).reverse

theorem hexValue_hexDigit {n : Nat} (h : n < 16) : hexValue (hexDigit n) = some n := by
  have : ∀ n < 16, hexValue (hexDigit n) = some n := by decide
  exact this n h

theorem filterMap_hexDigits (b : UInt8) :
    (hexDigits b).filterMap hexValue = [b.toNat / 16, b.toNat % 16] := by
  have hlt := b.toNat_lt
  have hhigh := hexValue_hexDigit (n := b.toNat / 16) (by omega)
  have hlow := hexValue_hexDigit (n := b.toNat % 16) (by omega)
  simp [hexDigits, hhigh, hlow]

theorem pairDigits_reverse (b : QByteArray) :
    pairDigits ((b.flatMap hexDigits).filterMap hexValue).reverse = b.reverse := by
  induction b using List.reverseRecOn with
  | nil => rfl
  | append_singleton bs b ih =>
    have hbyte : UInt8.ofNat (16 * (b.toNat / 16) + b.toNat % 16) = b := by
      rw [Nat.div_add_mod]
      exact UInt8.ofNat_toNat
    have hdigits : (((bs ++ [b]).flatMap hexDigits).filterMap hexValue).reverse =
        b.toNat % 16 :: b.toNat / 16 :: ((bs.flatMap hexDigits).filterMap hexValue).reverse := by
      rw [List.flatMap_append, List.filterMap_append, List.reverse_append, List.flatMap_singleton,
        filterMap_hexDigits]
      rfl
    rw [hdigits, pairDigits, hbyte, ih, List.reverse_append]
    rfl

theorem fromHex_toHex (b : QByteArray) : fromHex (toHex b) = b := by
  rw [fromHex, toHex, String.toList_ofList, pairDigits_reverse, List.reverse_reverse]

end QByteArray

end MinerGate
