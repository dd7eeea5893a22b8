import Mathlib.Data.Nat.Basic

/-!
# The nonce counter of a coin

`NonceCtl` hands out ranges of nonces by adding the reserved amount to one shared
64-bit counter. A caller gets the counter's new value, the end of its range. A
counter that would overflow starts again from zero.
-/

namespace MinerGate

set_option autoImplicit false

/-- `Nonce` is `quint64`: `2 ^ 64` values. -/
def nonceModulus : Nat := 18446744073709551616

structure NonceCtl where
  m_nonce : Nat
  m_isInvalid : Bool
deriving DecidableEq, Repr

namespace NonceCtl

def new : NonceCtl := ⟨0, false⟩

def newNonce (nonce reserve : Nat) : Nat :=
  let newNonce := (nonce + reserve) % nonceModulus
  if newNonce < nonce then reserve else newNonce

def nextNonce (ctl : NonceCtl) (reserve : Nat) : NonceCtl × Nat :=
  let last := newNonce ctl.m_nonce reserve
  ({ ctl with m_nonce := last }, last)

def invalidate (ctl : NonceCtl) : NonceCtl := { ctl with m_isInvalid := true }

def isValid (ctl : NonceCtl) : Bool := !ctl.m_isInvalid

/-- `random` is the value drawn when the start is random, else `none`. -/
def restart (_ctl : NonceCtl) (random : Option Nat) : NonceCtl :=
  match random with
  | some seed => ⟨seed % nonceModulus, false⟩
  | none => ⟨0, false⟩

/-- How far the counter moves around the circle of 64-bit values: a reservation that
would overflow also passes over the values left below `2 ^ 64`. -/
def advance (nonce reserve : Nat) : Nat :=
  if nonce + reserve < nonceModulus then reserve else nonceModulus - nonce + reserve

theorem le_advance (nonce reserve : Nat) : reserve ≤ advance nonce reserve := by
  unfold advance
  split <;> omega

theorem newNonce_of_lt {nonce reserve : Nat} (h : nonce + reserve < nonceModulus) :
    newNonce nonce reserve = nonce + reserve := by
  unfold newNonce
  rw [Nat.mod_eq_of_lt h, if_neg (by omega)]

theorem newNonce_of_le {nonce reserve : Nat} (hn : nonce < nonceModulus)
    (hr : reserve < nonceModulus) (h : nonceModulus ≤ nonce + reserve) :
    newNonce nonce reserve = reserve := by
  have hmod : (nonce + reserve) % nonceModulus = nonce + reserve - nonceModulus := by
    rw [Nat.mod_eq_sub_mod h, Nat.mod_eq_of_lt (by omega)]
  unfold newNonce
  rw [hmod, if_pos (by omega)]

theorem newNonce_lt {nonce reserve : Nat} (hn : nonce < nonceModulus)
    (hr : reserve < nonceModulus) : newNonce nonce reserve < nonceModulus := by
  by_cases h : nonce + reserve < nonceModulus
  · rwa [newNonce_of_lt h]
  · rwa [newNonce_of_le hn hr (by omega)]

theorem le_newNonce {nonce reserve : Nat} (hn : nonce < nonceModulus)
    (hr : reserve < nonceModulus) : reserve ≤ newNonce nonce reserve := by
  by_cases h : nonce + reserve < nonceModulus
  · rw [newNonce_of_lt h]
    omega
  · rw [newNonce_of_le hn hr (by omega)]

theorem newNonce_sub {nonce reserve : Nat} (hn : nonce < nonceModulus)
    (hr : reserve < nonceModulus) :
    newNonce nonce reserve - reserve =
      (nonce + (advance nonce reserve - reserve)) % nonceModulus := by
  by_cases h : nonce + reserve < nonceModulus
  · rw [newNonce_of_lt h, advance, if_pos h, Nat.sub_self, Nat.add_zero, Nat.add_sub_cancel,
      Nat.mod_eq_of_lt hn]
  · rw [newNonce_of_le hn hr (by omega), advance, if_neg h, Nat.sub_self, Nat.add_sub_cancel,
      Nat.add_sub_cancel' (by omega), Nat.mod_self]

theorem newNonce_eq {nonce reserve : Nat} (hn : nonce < nonceModulus)
    (hr : reserve < nonceModulus) :
    newNonce nonce reserve = (nonce + advance nonce reserve) % nonceModulus := by
  by_cases h : nonce + reserve < nonceModulus
  · rw [newNonce_of_lt h, advance, if_pos h, Nat.mod_eq_of_lt h]
  · rw [newNonce_of_le hn hr (by omega), advance, if_neg h, ← Nat.add_assoc,
      Nat.add_sub_cancel' (by omega), Nat.add_mod_left, Nat.mod_eq_of_lt hr]

end NonceCtl
end MinerGate
