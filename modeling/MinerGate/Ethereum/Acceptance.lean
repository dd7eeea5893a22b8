import MinerGate.Ethereum.FixedHash
import MinerGate.Miner.DeviceHash

/-!
# Which Ethereum nonces become shares

The CPU worker compares a hash with the boundary twice before it is evaluated again, a kernel
compares the first 64 bits and leaves the rest to the host.
-/

namespace MinerGate

set_option autoImplicit false

open QByteArray

/-- The loop of `ethash_check_difficulty`. -/
def ethash_check_difficulty : QByteArray → QByteArray → Bool
  | a :: hash, c :: boundary => if a = c then ethash_check_difficulty hash boundary else a < c
  | _, _ => true

/-- What the miner calls of the hash function, for the seed of one job: `ethash_full_compute`,
`ethash_quick_hash` and `EthashAux::eval`, each with the header and the nonce. -/
structure Ethash where
  fullCompute : H256 → Nat → H256 × H256
  quickHash : H256 → Nat → H256 → H256
  eval : H256 → Nat → H256 × H256
  quickHash_mix : ∀ header nonce,
    quickHash header nonce (fullCompute header nonce).2 = (fullCompute header nonce).1
  eval_eq : ∀ header nonce, eval header nonce = fullCompute header nonce

section Words

/-- The first word of a hash, as the kernels have it in `state[0]`. -/
def state0 (hash : H256) : Nat := readLittleEndian (hash.m_data.take 8)

/-- `__byte_perm(w, 0, 0x0123)` -/
def bytePerm (w : Nat) : Nat := readLittleEndian (littleEndian 4 w).reverse

def cuda_swab64 (x : Nat) : Nat :=
  bytePerm (x / quint32Modulus) + quint32Modulus * bytePerm (x % quint32Modulus)

/-- `as_ulong(as_uchar8(x).s76543210)` -/
def reversedUchar8 (x : Nat) : Nat := readLittleEndian (littleEndian 8 x).reverse

/-- `(quint64)(u64)((u256)boundary >> 192)` -/
def deviceTarget (boundary : H256) : Nat := (boundary.arith >>> 192) % nonceModulus

end Words

inductive EthashBackEnd where
  | cpu
  | cuda
  | openCl
deriving DecidableEq, Repr

namespace EthashBackEnd

/-- The nonces that `search` hands to `EthashAux::eval`, or that the kernel reports. -/
def keeps (ethash : Ethash) (headerHash boundary : H256) (nonce : Nat) : EthashBackEnd → Bool
  | cpu =>
    let ethashReturn := ethash.fullCompute headerHash nonce
    ethashReturn.1.lessEqual boundary &&
      ethash_check_difficulty (ethash.quickHash headerHash nonce ethashReturn.2).m_data
        boundary.m_data
  | cuda =>
    let hash := state0 (ethash.fullCompute headerHash nonce).1
    !(cuda_swab64 hash > deviceTarget boundary)
  | openCl =>
    reversedUchar8 (state0 (ethash.fullCompute headerHash nonce).1) < deviceTarget boundary

/-- The mix hash of the share that a back end submits for a nonce. -/
def share (ethash : Ethash) (headerHash boundary : H256) (nonce : Nat) (b : EthashBackEnd) :
    Option H256 :=
  if b.keeps ethash headerHash boundary nonce then
    let evalResult := ethash.eval headerHash nonce
    match b with
    | cpu =>
      let mixHash := (ethash.fullCompute headerHash nonce).2
      if evalResult.1.less boundary && evalResult.2.m_data == mixHash.m_data then some mixHash
      else none
    | cuda | openCl => if evalResult.1.less boundary then some evalResult.2 else none
  else none

end EthashBackEnd

section Order
variable {a c : QByteArray}

theorem ethash_check_difficulty_iff (h : a.length = c.length) :
    ethash_check_difficulty a c = true ↔ fromBigEndian a ≤ fromBigEndian c := by
  induction a generalizing c with
  | nil =>
    cases c with
    | nil => decide
    | cons d c => cases h
  | cons b a ih =>
    cases c with
    | nil => cases h
    | cons d c =>
      have hlen : a.length = c.length := Nat.succ.inj h
      rw [ethash_check_difficulty]
      by_cases heq : b = d
      · subst heq
        rw [if_pos rfl, ih hlen, fromBigEndian_cons, fromBigEndian_cons, hlen,
          Nat.add_le_add_iff_right]
      · rw [if_neg heq, decide_eq_true_iff]
        constructor
        · intro hlt
          exact Nat.le_of_lt (fromBigEndian_cons_lt hlen hlt)
        · intro hle
          by_contra hnot
          have hgt : d < b := UInt8.lt_of_le_of_ne (UInt8.not_lt.mp hnot) (Ne.symm heq)
          exact absurd (fromBigEndian_cons_lt hlen.symm hgt) (Nat.not_lt.mpr hle)

namespace H256

/-- The 64 bits that a kernel compares. -/
def high (a : H256) : Nat := fromBigEndian (a.m_data.take 8)

theorem high_eq (a : H256) : a.high = a.arith / 2 ^ 192 := by
  have hsplit := List.take_append_drop 8 a.m_data
  have hlen : (a.m_data.drop 8).length = 24 := by rw [List.length_drop, a.size]
  have hlt := fromBigEndian_lt (a.m_data.drop 8)
  rw [hlen] at hlt
  rw [arith, ← hsplit, fromBigEndian_append, hlen, high]
  have hpow : 256 ^ 24 = 2 ^ 192 := by decide
  rw [hpow] at hlt ⊢
  rw [Nat.add_mul_div_left _ _ (by decide), Nat.div_eq_of_lt hlt, Nat.zero_add]

theorem high_lt (a : H256) : a.high < nonceModulus := by
  have hlen : (a.m_data.take 8).length = 8 := by rw [List.length_take, a.size]; decide
  have hlt := fromBigEndian_lt (a.m_data.take 8)
  rwa [hlen] at hlt

theorem deviceTarget_eq (boundary : H256) : deviceTarget boundary = boundary.high := by
  rw [deviceTarget, Nat.shiftRight_eq_div_pow, ← high_eq, Nat.mod_eq_of_lt boundary.high_lt]

theorem reversedUchar8_state0 (hash : H256) : reversedUchar8 (state0 hash) = hash.high := by
  have hlen : (hash.m_data.take 8).length = 8 := by rw [List.length_take, hash.size]; decide
  have hbytes := littleEndian_readLittleEndian (hash.m_data.take 8)
  rw [hlen] at hbytes
  rw [reversedUchar8, state0, hbytes, high, fromBigEndian_eq]

theorem cuda_swab64_state0 (hash : H256) : cuda_swab64 (state0 hash) = hash.high := by
  have hlow : (hash.m_data.take 4).length = 4 := by rw [List.length_take, hash.size]; decide
  have hhigh : ((hash.m_data.drop 4).take 4).length = 4 := by
    rw [List.length_take, List.length_drop, hash.size]; decide
  have hsplit : hash.m_data.take 8 = hash.m_data.take 4 ++ (hash.m_data.drop 4).take 4 :=
    List.take_add (i := 4) (j := 4)
  have hlt := readLittleEndian_lt (hash.m_data.take 4)
  rw [hlow] at hlt
  have hpow : quint32Modulus = 256 ^ 4 := by decide
  have hperm {b : QByteArray} (hb : b.length = 4) :
      bytePerm (readLittleEndian b) = fromBigEndian b := by
    have hbytes := littleEndian_readLittleEndian b
    rw [hb] at hbytes
    rw [bytePerm, hbytes, fromBigEndian_eq]
  rw [cuda_swab64, state0, hsplit, readLittleEndian_append, hlow, hpow,
    Nat.add_mul_div_left _ _ (by decide), Nat.div_eq_of_lt hlt, Nat.zero_add,
    Nat.add_mul_mod_self_left, Nat.mod_eq_of_lt hlt, hperm hlow, hperm hhigh, high, hsplit,
    fromBigEndian_append, hhigh]

end H256

end Order

namespace EthashBackEnd
variable (ethash : Ethash) (headerHash boundary : H256) (nonce : Nat)

/-- The hash that decides. -/
def hash : H256 := (ethash.fullCompute headerHash nonce).1

/-- A back end submits nothing that it has not evaluated again. -/
theorem share_isSome (b : EthashBackEnd) : (b.share ethash headerHash boundary nonce).isSome ↔
    b.keeps ethash headerHash boundary nonce = true ∧
      (hash ethash headerHash nonce).arith < boundary.arith := by
  by_cases hkeeps : b.keeps ethash headerHash boundary nonce = true
  · simp only [share, hkeeps, if_true, true_and, ethash.eval_eq, ← H256.less_iff, hash]
    cases b <;>
    · cases hless : (ethash.fullCompute headerHash nonce).1.less boundary <;> simp
  · simp [share, hkeeps]

theorem keeps_cpu : cpu.keeps ethash headerHash boundary nonce = true ↔
    (hash ethash headerHash nonce).arith ≤ boundary.arith := by
  have hlen := (ethash.fullCompute headerHash nonce).1.size.trans boundary.size.symm
  rw [keeps, Bool.and_eq_true, H256.lessEqual_iff, ethash.quickHash_mix,
    ethash_check_difficulty_iff hlen]
  exact and_self_iff

theorem keeps_cuda : cuda.keeps ethash headerHash boundary nonce = true ↔
    (hash ethash headerHash nonce).high ≤ boundary.high := by
  rw [keeps, Bool.not_eq_true', decide_eq_false_iff_not, H256.cuda_swab64_state0,
    H256.deviceTarget_eq, Nat.not_lt]
  exact Iff.rfl

theorem keeps_openCl : openCl.keeps ethash headerHash boundary nonce = true ↔
    (hash ethash headerHash nonce).high < boundary.high := by
  rw [keeps, decide_eq_true_iff, H256.reversedUchar8_state0, H256.deviceTarget_eq]
  exact Iff.rfl

/-- Every back end submits exactly the hashes below the boundary unless such a hash has the same
first 64 bits as the boundary, which the OpenCL kernel drops. -/
theorem submits_below_iff :
    (∀ b : EthashBackEnd, (b.share ethash headerHash boundary nonce).isSome ↔
      (hash ethash headerHash nonce).arith < boundary.arith) ↔
    ¬ ((hash ethash headerHash nonce).arith < boundary.arith ∧
      (hash ethash headerHash nonce).high = boundary.high) := by
  have hhigh : (hash ethash headerHash nonce).arith < boundary.arith →
      (hash ethash headerHash nonce).high ≤ boundary.high := by
    intro hlt
    rw [H256.high_eq, H256.high_eq]
    exact Nat.div_le_div_right (Nat.le_of_lt hlt)
  constructor
  · rintro h ⟨hlt, heq⟩
    have hkeeps := ((share_isSome ethash headerHash boundary nonce openCl).mp
      ((h openCl).mpr hlt)).1
    rw [keeps_openCl] at hkeeps
    omega
  · intro hnot b
    rw [share_isSome]
    constructor
    · exact And.right
    · intro hlt
      refine ⟨?_, hlt⟩
      have hle := hhigh hlt
      cases b with
      | cpu => exact (keeps_cpu ethash headerHash boundary nonce).mpr (Nat.le_of_lt hlt)
      | cuda => exact (keeps_cuda ethash headerHash boundary nonce).mpr hle
      | openCl =>
        rw [keeps_openCl]
        have hne : (hash ethash headerHash nonce).high ≠ boundary.high := fun heq => hnot ⟨hlt, heq⟩
        omega

/-- Every nonce has this hash. -/
def constantEthash (result : H256) : Ethash where
  fullCompute _ _ := (result, result)
  quickHash _ _ _ := result
  eval _ _ := (result, result)
  quickHash_mix _ _ := rfl
  eval_eq _ _ := rfl

/-- With a boundary of `2 ^ 192 + 1` the hash `2 ^ 192` is a share for the CPU and none for OpenCL.
-/
theorem openCl_drops_share :
    ¬ ∀ (ethash : Ethash) (headerHash boundary : H256) (nonce : Nat) (b : EthashBackEnd),
      (b.share ethash headerHash boundary nonce).isSome ↔
        (hash ethash headerHash nonce).arith < boundary.arith := by
  intro h
  have hshare := h (constantEthash (.ofNat (2 ^ 192))) (.ofNat 0) (.ofNat (2 ^ 192 + 1)) 0 openCl
  exact absurd (hshare.mpr (by decide)) (by decide)

end EthashBackEnd

end MinerGate
