import Mathlib.Data.List.Pairwise
import Mathlib.Logic.Function.Basic
import Mathlib.Order.CompletePartialOrder
import Mathlib.Order.Interval.Set.Disjoint
import MinerGate.Lib.Transition
import MinerGate.Miner.NonceCtl

/-!
# Concurrent calls of nextNonce

`m_nonce` is atomic, `nextNonce` is not: it loads the counter and adds, loads it again
for the overflow check, stores, and loads it once more for the result. Any number of
callers take these four steps in any order.
-/

namespace MinerGate.NonceRace

set_option autoImplicit false

open Transition

inductive Call where
  | idle
  | added (reserve newNonce : Nat)
  | compared (reserve newNonce : Nat)
  | stored (reserve : Nat)
deriving DecidableEq, Repr

/-- `returned` lists the finished calls, newest first: the amount reserved and the value
returned. -/
structure Race where
  m_nonce : Nat
  calls : Nat → Call
  returned : List (Nat × Nat)

inductive Event where
  | add (caller reserve : Nat)
  | compare (caller : Nat)
  | store (caller : Nat)
  | ret (caller : Nat)
deriving DecidableEq, Repr

def Race.setCall (s : Race) (caller : Nat) (call : Call) : Race :=
  { s with calls := Function.update s.calls caller call }

def step (s : Race) : Event → Option Race
  | .add c reserve =>
    match s.calls c with
    | .idle => some (s.setCall c (.added reserve ((s.m_nonce + reserve) % nonceModulus)))
    | _ => none
  | .compare c =>
    match s.calls c with
    | .added reserve newNonce =>
      some (s.setCall c (.compared reserve (if newNonce < s.m_nonce then reserve else newNonce)))
    | _ => none
  | .store c =>
    match s.calls c with
    | .compared reserve newNonce =>
      some { s.setCall c (.stored reserve) with m_nonce := newNonce }
    | _ => none
  | .ret c =>
    match s.calls c with
    | .stored reserve =>
      some { s.setCall c .idle with returned := (reserve, s.m_nonce) :: s.returned }
    | _ => none

/-- The counter some time after a restart, with no call under way. -/
def initial (nonce : Nat) : Race := ⟨nonce, fun _ => .idle, []⟩

def range (r : Nat × Nat) : Set Nat := Set.Ico (r.2 - r.1) r.2

def RangesDisjoint (s : Race) : Prop := (s.returned.map range).Pairwise Disjoint

/-- What the callers keep to: a positive amount, and no wrap of the 64-bit counter. -/
def Proper (s : Race) : Event → Prop
  | .add _ reserve => 0 < reserve ∧ s.m_nonce + reserve < nonceModulus
  | _ => True

/-- No caller stores the counter while another one is inside its call. -/
def Undisturbed (s : Race) : Event → Prop
  | .store c => ∀ d, d ≠ c → s.calls d = .idle
  | _ => True

section Setters
variable (s : Race) (c d : Nat) (call : Call)

@[simp] theorem setCall_self : (s.setCall c call).calls c = call := by simp [Race.setCall]

theorem setCall_of_ne {s : Race} {c d : Nat} {call : Call} (h : d ≠ c) :
    (s.setCall c call).calls d = s.calls d := by simp [Race.setCall, h]

end Setters

/-- What one call's local value knows of the counter and of the ranges already returned. -/
def CallInv (s : Race) : Call → Prop
  | .idle => True
  | .added reserve newNonce => newNonce = s.m_nonce + reserve
  | .compared reserve newNonce => newNonce = s.m_nonce + reserve
  | .stored reserve => reserve ≤ s.m_nonce ∧ ∀ r ∈ s.returned, r.2 ≤ s.m_nonce - reserve

def isStored : Call → Prop
  | .stored _ => True
  | _ => False

structure Inv (s : Race) : Prop where
  calls : ∀ c, CallInv s (s.calls c)
  one_stored : ∀ c d, isStored (s.calls c) → isStored (s.calls d) → c = d
  below : ∀ r ∈ s.returned, r.2 ≤ s.m_nonce
  ranges : RangesDisjoint s

theorem initial_inv (nonce : Nat) : Inv (initial nonce) := by
  refine ⟨fun c => trivial, ?_, ?_, ?_⟩
  · intro c d hc
    exact hc.elim
  · intro r hr
    simp [initial] at hr
  · simp [RangesDisjoint, initial]

theorem setCall_inv {s : Race} (h : Inv s) {c : Nat} {call : Call}
    (hcall : CallInv s call) (hst : isStored call → isStored (s.calls c)) :
    Inv (s.setCall c call) := by
  have stored_of : ∀ d, isStored ((s.setCall c call).calls d) → isStored (s.calls d) := by
    intro d hd
    by_cases hdc : d = c
    · subst d
      exact hst (by simpa using hd)
    · rwa [setCall_of_ne hdc] at hd
  refine ⟨fun d => ?_, fun d e hd he => h.one_stored d e (stored_of d hd) (stored_of e he),
    h.below, h.ranges⟩
  by_cases hdc : d = c
  · subst d
    rw [setCall_self]
    exact hcall
  · rw [setCall_of_ne hdc]
    exact h.calls d

theorem store_inv {s : Race} (h : Inv s) {c reserve newNonce : Nat}
    (hc : s.calls c = .compared reserve newNonce) (halone : ∀ d, d ≠ c → s.calls d = .idle) :
    Inv { s.setCall c (.stored reserve) with m_nonce := newNonce } := by
  have hnew : newNonce = s.m_nonce + reserve := by
    have := h.calls c
    rwa [hc] at this
  have hother : ∀ d, d ≠ c → (s.setCall c (.stored reserve)).calls d = .idle := by
    intro d hd
    rw [setCall_of_ne hd, halone d hd]
  refine ⟨fun d => ?_, fun d e hd he => ?_, fun r hr => ?_, h.ranges⟩
  · by_cases hdc : d = c
    · subst d
      simp only [setCall_self]
      refine ⟨by simp only [hnew]; omega, fun r hr => ?_⟩
      have := h.below r hr
      simp only [hnew]
      omega
    · simp only [hother d hdc]
      trivial
  · by_cases hdc : d = c
    · by_cases hec : e = c
      · rw [hdc, hec]
      · simp only [hother e hec] at he
        exact he.elim
    · simp only [hother d hdc] at hd
      exact hd.elim
  · have := h.below r hr
    simp only [hnew]
    omega

theorem ret_inv {s : Race} (h : Inv s) {c reserve : Nat} (hc : s.calls c = .stored reserve) :
    Inv { s.setCall c .idle with returned := (reserve, s.m_nonce) :: s.returned } := by
  obtain ⟨hle, hret⟩ : reserve ≤ s.m_nonce ∧ ∀ r ∈ s.returned, r.2 ≤ s.m_nonce - reserve := by
    have := h.calls c
    rwa [hc] at this
  have hstored : isStored (s.calls c) := by rw [hc]; trivial
  have not_stored : ∀ d, d ≠ c → ¬ isStored (s.calls d) := fun d hd hs =>
    hd (h.one_stored d c hs hstored)
  refine ⟨fun d => ?_, fun d e hd he => ?_, fun r hr => ?_, ?_⟩
  · by_cases hdc : d = c
    · subst d
      simp only [setCall_self]
      trivial
    · have hinv := h.calls d
      have hns := not_stored d hdc
      simp only [setCall_of_ne hdc]
      cases hcall : s.calls d with
      | idle => trivial
      | added r n => rw [hcall] at hinv; exact hinv
      | compared r n => rw [hcall] at hinv; exact hinv
      | stored r => rw [hcall] at hns; exact absurd trivial hns
  · by_cases hdc : d = c
    · subst d
      simp only [setCall_self] at hd
      exact hd.elim
    · simp only [setCall_of_ne hdc] at hd
      exact absurd hd (not_stored d hdc)
  · rcases List.mem_cons.mp hr with rfl | hr
    · exact Nat.le_refl _
    · exact h.below r hr
  · refine List.pairwise_cons.mpr ⟨fun R hR => ?_, h.ranges⟩
    obtain ⟨r, hr, rfl⟩ := List.mem_map.mp hR
    rw [range, range, Set.Ico_disjoint_Ico]
    have := hret r hr
    simp only
    omega

theorem step_inv {s t : Race} {e : Event} (h : Inv s) (hp : Proper s e) (hu : Undisturbed s e)
    (hs : step s e = some t) : Inv t := by
  cases e with
  | add c reserve =>
    simp only [step] at hs
    split at hs
    case h_2 => cases hs
    case h_1 hc =>
      cases hs
      refine setCall_inv h ?_ False.elim
      exact Nat.mod_eq_of_lt hp.2
  | compare c =>
    simp only [step] at hs
    split at hs
    case h_2 => cases hs
    case h_1 reserve newNonce hc =>
      cases hs
      have hnew : newNonce = s.m_nonce + reserve := by
        have := h.calls c
        rwa [hc] at this
      refine setCall_inv h ?_ False.elim
      show (if newNonce < s.m_nonce then reserve else newNonce) = s.m_nonce + reserve
      rw [if_neg (by omega), hnew]
  | store c =>
    simp only [step] at hs
    split at hs
    case h_2 => cases hs
    case h_1 reserve newNonce hc =>
      cases hs
      exact store_inv h hc hu
  | ret c =>
    simp only [step] at hs
    split at hs
    case h_2 => cases hs
    case h_1 reserve hc =>
      cases hs
      exact ret_inv h hc

/-- Reservation is safe in every run in which no store falls inside another caller's call. -/
theorem ranges_disjoint_of_undisturbed {nonce : Nat} {es : List Event} {s : Race}
    (hrun : exec step (initial nonce) es = some s)
    (hproper : Along step Proper (initial nonce) es)
    (halone : Along step Undisturbed (initial nonce) es) : RangesDisjoint s :=
  (exec_invariant (I := Inv) (fun _ _ _ hI hC hs => step_inv hI hC.1 hC.2 hs)
    (initial_inv nonce) (hproper.and halone) hrun).ranges

def wholeCall (caller reserve : Nat) : List Event :=
  [.add caller reserve, .compare caller, .store caller, .ret caller]

theorem whole_calls_disjoint :
    ∃ s, exec step (initial 0) (wholeCall 0 1000000 ++ wholeCall 1 1000000) = some s ∧
      s.returned = [(1000000, 2000000), (1000000, 1000000)] ∧ RangesDisjoint s := by
  have h : (exec step (initial 0) (wholeCall 0 1000000 ++ wholeCall 1 1000000)).map Race.returned =
      some [(1000000, 2000000), (1000000, 1000000)] := by decide +kernel
  obtain ⟨s, hs, hr⟩ := Option.map_eq_some_iff.mp h
  refine ⟨s, hs, hr, ranges_disjoint_of_undisturbed hs ?_ ?_⟩
  · simp [wholeCall, Along, Proper, step, initial, Race.setCall, nonceModulus]
  · simp +contextual [wholeCall, Along, Undisturbed, step, initial, Race.setCall]

def crossedCalls (c d r q : Nat) : List Event :=
  [.add c r, .add d q, .compare c, .compare d, .store c, .store d, .ret c, .ret d]

/-- Whatever the counter and the amounts, two callers whose calls cross get overlapping ranges. -/
theorem crossedCalls_overlap {nonce c d r q : Nat} (hcd : d ≠ c) (hr : 0 < r) (hq : 0 < q)
    (hlt : nonce + r + q < nonceModulus) :
    ∃ s, exec step (initial nonce) (crossedCalls c d r q) = some s ∧
      Along step Proper (initial nonce) (crossedCalls c d r q) ∧ ¬ RangesDisjoint s := by
  have hr' : (nonce + r) % nonceModulus = nonce + r := Nat.mod_eq_of_lt (by omega)
  have hq' : (nonce + q) % nonceModulus = nonce + q := Nat.mod_eq_of_lt (by omega)
  have hlt' : nonce + q < nonceModulus ∧ nonce + r < nonceModulus := by omega
  have hret : (exec step (initial nonce) (crossedCalls c d r q)).map Race.returned =
      some [(q, nonce + q), (r, nonce + q)] := by
    simp [crossedCalls, exec, step, initial, Race.setCall, hcd, hcd.symm, hr', hq']
  obtain ⟨s, hs, hret⟩ := Option.map_eq_some_iff.mp hret
  refine ⟨s, hs, ?_, ?_⟩
  · simp [crossedCalls, Along, Proper, step, initial, Race.setCall, hr, hq, hlt'.1, hlt'.2]
  · intro h
    rw [RangesDisjoint, hret] at h
    have hdisj := (List.pairwise_cons.mp h).1 _ List.mem_cons_self
    rw [range, range, Set.Ico_disjoint_Ico] at hdisj
    simp only at hdisj
    omega

/-- Two workers reserving a million nonces each both get `[0, 1000000)`. -/
theorem crossed_reservations_overlap :
    ¬ ∀ (nonce : Nat) (es : List Event) (s : Race), exec step (initial nonce) es = some s →
      Along step Proper (initial nonce) es → RangesDisjoint s := by
  intro h
  obtain ⟨s, hrun, hproper, hover⟩ := @crossedCalls_overlap 0 0 1 1000000 1000000
    (by decide) (by decide) (by decide) (by decide)
  exact hover (h 0 _ s hrun hproper)

end MinerGate.NonceRace
