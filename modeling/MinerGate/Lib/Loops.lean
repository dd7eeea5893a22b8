import Mathlib.Order.Basic

/-!
# Loops with a result

One round of a loop either goes on with a new state or leaves the loop with a result. A loop
is run for a number of rounds; the variant rule says that it is left, and what with.
-/

namespace Loops

set_option autoImplicit false

universe u v
variable {σ : Type u} {ρ : Type v}

inductive Round (σ : Type u) (ρ : Type v) where
  | next (s : σ)
  | exit (r : ρ)

/-- The result of the loop, if it is left within `rounds` rounds. -/
def run (body : σ → Round σ ρ) : Nat → σ → Option ρ
  | 0, _ => none
  | rounds + 1, s =>
    match body s with
    | .next t => run body rounds t
    | .exit r => some r

variable {body : σ → Round σ ρ} {s t : σ} {r : ρ} {rounds : Nat}

theorem run_next (h : body s = .next t) : run body (rounds + 1) s = run body rounds t := by
  rw [run, h]

theorem run_exit (h : body s = .exit r) : run body (rounds + 1) s = some r := by
  rw [run, h]

/-- More rounds do not change a result. -/
theorem run_add (h : run body rounds s = some r) (more : Nat) :
    run body (rounds + more) s = some r := by
  induction rounds generalizing s with
  | zero => cases h
  | succ rounds ih =>
    rw [Nat.add_right_comm]
    cases hbody : body s with
    | exit r' =>
      have hexit : run body (rounds + 1) s = some r' := run_exit hbody
      rw [run_exit hbody, ← hexit, h]
    | next t =>
      rw [run_next hbody] at h ⊢
      exact ih h

theorem run_unique {rounds' : Nat} {r' : ρ} (h : run body rounds s = some r)
    (h' : run body rounds' s = some r') : r = r' := by
  have hadd := run_add h rounds'
  have hadd' := run_add h' rounds
  rw [Nat.add_comm, hadd] at hadd'
  exact Option.some.inj hadd'

/-- The variant rule: a loop with an invariant, whose variant falls in every round, is left, and
what the rounds carry from the result to the state before them holds of the first state. -/
theorem run_spec {I : σ → Prop} {P : σ → ρ → Prop} {v : σ → Nat}
    (hexit : ∀ s r, I s → body s = .exit r → P s r)
    (hnext : ∀ s t, I s → body s = .next t → I t ∧ v t < v s ∧ ∀ r, P t r → P s r)
    (hI : I s) (hrounds : v s < rounds) : ∃ r, run body rounds s = some r ∧ P s r := by
  induction rounds generalizing s with
  | zero => exact absurd hrounds (Nat.not_lt_zero _)
  | succ rounds ih =>
    cases hbody : body s with
    | exit r => exact ⟨r, run_exit hbody, hexit s r hI hbody⟩
    | next t =>
      obtain ⟨hI', hless, hback⟩ := hnext s t hI hbody
      obtain ⟨r, hr, hP⟩ := ih hI' (by omega)
      exact ⟨r, (run_next hbody).trans hr, hback r hP⟩

end Loops
