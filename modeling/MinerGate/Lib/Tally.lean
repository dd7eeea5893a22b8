import MinerGate.Lib.Transition

/-!
# A counter that is read and then set to zero

What has been made is counted by adding to a counter with a modulus. Now and then the value of the
counter is read, passed on, and the counter set to zero, in steps of their own: what is added after
the counter was read and before it is set to zero is lost.
-/

set_option autoImplicit false

universe u v

/-- `held` has been read and is to be passed on. While it is `resetting`, the counter has been read
and will be set to zero. -/
structure Tally where
  counter : Nat
  passed : Nat
  held : Nat
  resetting : Bool
  made : Nat
deriving DecidableEq, Repr

namespace Tally

open Transition

inductive Event where
  | add (made counted : Nat)
  | read
  | pass
  | reset
  | clear
deriving DecidableEq, Repr

def step (modulus : Nat) (t : Tally) : Event → Option Tally
  | .add made counted =>
    if counted ≤ made then
      some { t with counter := (t.counter + counted) % modulus, made := t.made + made }
    else none
  | .read =>
    if t.resetting = false ∧ t.held = 0 then
      some { t with held := t.counter, resetting := true }
    else none
  | .pass => some { t with passed := t.passed + t.held, held := 0 }
  | .reset =>
    if t.resetting = true then some { t with counter := 0, resetting := false } else none
  | .clear => some { t with counter := 0 }

/-- Nothing is lost in the step. -/
def Lossless (modulus : Nat) (t : Tally) : Event → Prop
  | .add made counted =>
    if t.resetting = true then made = 0 else counted = made ∧ t.counter + made < modulus
  | .clear => t.resetting = true ∨ t.counter = 0
  | _ => True

/-- What has not been lost: it was passed on, is held, or is in the counter to be read. -/
def kept (t : Tally) : Nat := t.passed + t.held + if t.resetting = true then 0 else t.counter

def loss (t : Tally) : Int := t.made - t.kept

variable {modulus : Nat} {t u : Tally} {e : Event}

theorem loss_add {made counted : Nat} (hpos : 0 < modulus)
    (h : step modulus t (.add made counted) = some u) :
    t.loss ≤ u.loss ∧ (u.loss = t.loss ↔ Lossless modulus t (.add made counted)) := by
  obtain ⟨hle, h⟩ := Option.ite_none_right_eq_some.mp h
  cases h
  cases hreset : t.resetting with
  | true =>
    simp only [loss, kept, Lossless, hreset, if_true]
    omega
  | false =>
    simp only [loss, kept, Lossless, hreset, Bool.false_eq_true, if_false]
    have hmod := Nat.mod_le (t.counter + counted) modulus
    refine ⟨by omega, fun hsame => ?_, fun ⟨hall, hlt⟩ => ?_⟩
    · have hlt := Nat.mod_lt (t.counter + counted) hpos
      omega
    · rw [hall, Nat.mod_eq_of_lt hlt]
      omega

/-- No step makes up for what was lost. -/
theorem loss_step (hpos : 0 < modulus) (h : step modulus t e = some u) :
    t.loss ≤ u.loss ∧ (u.loss = t.loss ↔ Lossless modulus t e) := by
  cases e with
  | add made counted => exact loss_add hpos h
  | read =>
    obtain ⟨⟨hreset, hheld⟩, h⟩ := Option.ite_none_right_eq_some.mp h
    cases h
    simp [loss, kept, Lossless, hreset, hheld]
  | pass =>
    cases h
    simp [loss, kept, Lossless]
  | reset =>
    obtain ⟨hreset, h⟩ := Option.ite_none_right_eq_some.mp h
    cases h
    simp [loss, kept, Lossless, hreset]
  | clear =>
    cases h
    cases hreset : t.resetting with
    | true => simp [loss, kept, Lossless, hreset]
    | false =>
      simp only [loss, kept, Lossless, hreset, Bool.false_eq_true, if_false, false_or]
      omega

/-- Every step of a system is one of its tally, whose loss the condition `C` excludes, or leaves the
tally as it is. -/
structure Counts {σ : Type u} {ε : Type v} (next : σ → ε → Option σ) (C : σ → ε → Prop)
    (modulus : Nat) (tally : σ → Tally) : Prop where
  step : ∀ s e t, next s e = some t → (tally t = tally s ∧ C s e) ∨
    ∃ e', step modulus (tally s) e' = some (tally t) ∧ (C s e ↔ Lossless modulus (tally s) e')

variable {σ : Type u} {ε : Type v} {next : σ → ε → Option σ} {C : σ → ε → Prop}
  {tally : σ → Tally} {s t : σ} {es : List ε}

theorem Counts.loss_next (h : Counts next C modulus tally) (hpos : 0 < modulus) {e : ε}
    (hstep : next s e = some t) :
    (tally s).loss ≤ (tally t).loss ∧ ((tally t).loss = (tally s).loss ↔ C s e) := by
  rcases h.step s e t hstep with ⟨hsame, hc⟩ | ⟨e', he', hc⟩
  · rw [hsame]
    exact ⟨Int.le_refl _, iff_of_true rfl hc⟩
  · rw [hc]
    exact loss_step hpos he'

/-- A run loses nothing exactly when none of its steps does. -/
theorem Counts.lossless_iff (h : Counts next C modulus tally) (hpos : 0 < modulus)
    (hrun : exec next s es = some t) :
    (tally t).loss = (tally s).loss ↔ Along next C s es :=
  (along_iff_kept (f := fun s => (tally s).loss)
    (fun _ _ _ hstep => (h.loss_next hpos hstep).1)
    (fun _ _ _ hstep => (h.loss_next hpos hstep).2) hrun).2

/-- Between two readings, what was passed on and what is in the counter are all that was made if
nothing was lost. -/
theorem loss_eq_zero {t : Tally} (hheld : t.held = 0) (hreset : t.resetting = false) :
    t.loss = 0 ↔ t.passed + t.counter = t.made := by
  simp only [loss, kept, hheld, hreset, Bool.false_eq_true, if_false]
  omega

end Tally
