import MinerGate.Qt.Bytes

/-!
# Hashes of 32 bytes

`dev::h256`, which compares as the number that its bytes spell, the highest first.
-/

namespace MinerGate

set_option autoImplicit false

open QByteArray

/-- `dev::h256` -/
structure H256 where
  m_data : QByteArray
  size : m_data.length = 32
deriving DecidableEq

/-- `dev::fromBigEndian` -/
def fromBigEndian (bytes : QByteArray) : Nat :=
  bytes.foldl (fun ret i => ret <<< 8 ||| i.toNat) 0

namespace H256

/-- The loop of `FixedHash::operator<`. -/
def lessBytes : QByteArray → QByteArray → Bool
  | a :: as, c :: cs => if a < c then true else if a > c then false else lessBytes as cs
  | _, _ => false

def less (a c : H256) : Bool := lessBytes a.m_data c.m_data

def lessEqual (a c : H256) : Bool := a.m_data == c.m_data || a.less c

/-- `(u256)hash` -/
def arith (a : H256) : Nat := fromBigEndian a.m_data

/-- `dev::h256(n)` -/
def ofNat (n : Nat) : H256 := ⟨bigEndian 32 n, by simp [bigEndian, length_littleEndian]⟩

end H256

/-- `dev::arrayToH256` copies 32 bytes; from an array with fewer, which an assertion excludes, they
cannot be read. -/
def arrayToH256 (ar : QByteArray) : Option H256 :=
  if h : 32 ≤ ar.length then some ⟨ar.take 32, List.length_take_of_le h⟩ else none

section Order
variable {a c : QByteArray}

theorem fromBigEndian_eq (a : QByteArray) : fromBigEndian a = readLittleEndian a.reverse := by
  have hfold : ∀ (a : QByteArray) (ret : Nat),
      a.foldl (fun ret i => ret <<< 8 ||| i.toNat) ret =
        readLittleEndian a.reverse + 256 ^ a.length * ret := by
    intro a
    induction a with
    | nil => intro ret; simp [readLittleEndian]
    | cons b a ih =>
      intro ret
      have hor : ret <<< 8 ||| b.toNat = 256 * ret + b.toNat := by
        rw [← Nat.shiftLeft_add_eq_or_of_lt b.toNat_lt, Nat.shiftLeft_eq, Nat.mul_comm]
      rw [List.foldl_cons, ih, hor, List.reverse_cons, readLittleEndian_append, List.length_reverse,
        List.length_cons, Nat.pow_succ, Nat.mul_add]
      simp only [readLittleEndian, Nat.mul_zero, Nat.add_zero, Nat.mul_assoc]
      omega
  rw [fromBigEndian, hfold, Nat.mul_zero, Nat.add_zero]

theorem fromBigEndian_cons (b : UInt8) (a : QByteArray) :
    fromBigEndian (b :: a) = fromBigEndian a + 256 ^ a.length * b.toNat := by
  rw [fromBigEndian_eq, List.reverse_cons, readLittleEndian_append, List.length_reverse,
    ← fromBigEndian_eq]
  rfl

theorem fromBigEndian_append (a c : QByteArray) :
    fromBigEndian (a ++ c) = fromBigEndian c + 256 ^ c.length * fromBigEndian a := by
  rw [fromBigEndian_eq, List.reverse_append, readLittleEndian_append, List.length_reverse,
    ← fromBigEndian_eq, ← fromBigEndian_eq]

theorem fromBigEndian_lt (a : QByteArray) : fromBigEndian a < 256 ^ a.length := by
  rw [fromBigEndian_eq, ← List.length_reverse]
  exact readLittleEndian_lt _

/-- The first byte that differs decides, whatever follows it. -/
theorem fromBigEndian_cons_lt {b d : UInt8} (h : a.length = c.length) (hbd : b < d) :
    fromBigEndian (b :: a) < fromBigEndian (d :: c) := by
  have hlt := fromBigEndian_lt a
  have hmul : 256 ^ a.length * (b.toNat + 1) ≤ 256 ^ a.length * d.toNat :=
    Nat.mul_le_mul_left _ (UInt8.lt_iff_toNat_lt.mp hbd)
  rw [fromBigEndian_cons, fromBigEndian_cons, ← h]
  rw [Nat.mul_add] at hmul
  omega

theorem lessBytes_iff (h : a.length = c.length) :
    H256.lessBytes a c = true ↔ fromBigEndian a < fromBigEndian c := by
  induction a generalizing c with
  | nil =>
    cases c with
    | nil => decide
    | cons d c => cases h
  | cons b a ih =>
    cases c with
    | nil => cases h
    | cons d c =>
      have hlen : a.length = c.length := Nat.succ.inj h
      rw [H256.lessBytes]
      by_cases hbd : b < d
      · simp only [hbd, if_true, true_iff]
        exact fromBigEndian_cons_lt hlen hbd
      · by_cases hdb : d < b
        · simp only [hbd, if_false, gt_iff_lt, hdb, if_true, Bool.false_eq_true, false_iff, not_lt]
          exact Nat.le_of_lt (fromBigEndian_cons_lt hlen.symm hdb)
        · have heq : b = d := UInt8.le_antisymm (UInt8.not_lt.mp hdb) (UInt8.not_lt.mp hbd)
          subst heq
          simp only [hbd, if_false]
          rw [ih hlen, fromBigEndian_cons, fromBigEndian_cons, hlen, Nat.add_lt_add_iff_right]

theorem fromBigEndian_inj (h : a.length = c.length) (heq : fromBigEndian a = fromBigEndian c) :
    a = c := by
  induction a generalizing c with
  | nil =>
    cases c with
    | nil => rfl
    | cons d c => cases h
  | cons b a ih =>
    cases c with
    | nil => cases h
    | cons d c =>
      have hlen : a.length = c.length := Nat.succ.inj h
      have hbd : ¬ b < d := fun hlt => Nat.ne_of_lt (fromBigEndian_cons_lt hlen hlt) heq
      have hdb : ¬ d < b := fun hlt => Nat.ne_of_gt (fromBigEndian_cons_lt hlen.symm hlt) heq
      have hbyte : b = d := UInt8.le_antisymm (UInt8.not_lt.mp hdb) (UInt8.not_lt.mp hbd)
      subst hbyte
      rw [fromBigEndian_cons, fromBigEndian_cons, hlen, Nat.add_right_cancel_iff] at heq
      rw [ih hlen heq]

namespace H256

theorem less_iff (a c : H256) : a.less c = true ↔ a.arith < c.arith :=
  lessBytes_iff (a.size.trans c.size.symm)

theorem lessEqual_iff (a c : H256) : a.lessEqual c = true ↔ a.arith ≤ c.arith := by
  have hlen := a.size.trans c.size.symm
  rw [lessEqual, Bool.or_eq_true, beq_iff_eq, less_iff]
  constructor
  · intro h
    rcases h with heq | hlt
    · exact Nat.le_of_eq (congrArg fromBigEndian heq)
    · exact Nat.le_of_lt hlt
  · intro h
    rcases Nat.lt_or_eq_of_le h with hlt | heq
    · exact Or.inr hlt
    · exact Or.inl (fromBigEndian_inj hlen heq)

end H256
end Order

end MinerGate
