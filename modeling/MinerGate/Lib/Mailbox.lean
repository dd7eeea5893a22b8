import Mathlib.Data.Option.Basic

/-!
# A mailbox with a flag

A sender stores a message and then lowers the reader's flag. The reader takes the message,
works on what it took while its flag is up, and raises the flag itself. Neither party looks
at the flag before writing it, so a raise can undo a lowering that came after the message
was taken.
-/

namespace Mailbox

set_option autoImplicit false

universe u
variable {α : Type u}

/-- `underway` counts the sends that have stored their message but not lowered the flag; `held` is
what the reader works on while the flag is up, if it does not take the message anew. The reader has
`taken` a message when it has still to raise the flag for it; then a message is `late`. -/
structure Box (α : Type u) where
  message : α
  up : Bool
  underway : Nat
  held : Option α
  taken : Bool
  late : Bool

namespace Box

def store (b : Box α) (message : α) : Box α :=
  { b with message := message, underway := b.underway + 1, late := b.late || b.taken }

def lower (b : Box α) : Box α := { b with up := false, underway := b.underway - 1 }

variable (same : α → α → Prop)

/-- What the reader holds is the last message. -/
def Current (b : Box α) : Prop := ∀ x ∈ b.held, same x b.message

/-- While the flag is up the reader works on the last message, unless a send is under way; and it
has taken the last message, unless a later one came. -/
structure Fresh (b : Box α) : Prop where
  up : b.up = true → b.underway = 0 → b.Current same
  taken : b.taken = true → b.late = false → b.Current same

/-- A step of the reader: it takes the message, changes what it holds into the same thing, or holds
anything while its flag is down. It raises the flag for a message it has taken, or for none. -/
structure Reads (b c : Box α) : Prop where
  message : c.message = b.message
  underway : c.underway = b.underway
  late : c.late = (b.late && b.taken)
  held : ∀ x ∈ c.held, same x b.message ∨ (∃ y ∈ b.held, same x y) ∨ c.up = false
  taken : c.taken = true → (∀ x ∈ c.held, same x b.message) ∨ b.taken = true ∧ c.held = b.held
  raise : c.up = true → b.up = true ∨ b.taken = true ∨ b.held = none

variable {same} {b c : Box α}

theorem fresh_store (b : Box α) (message : α) : (b.store message).Fresh same where
  up _ hunder := absurd hunder (Nat.succ_ne_zero _)
  taken htaken hlate := by
    have htaken : b.taken = true := htaken
    rw [Box.store, htaken, Bool.or_true] at hlate
    cases hlate

theorem Fresh.lower (h : b.Fresh same) : b.lower.Fresh same where
  up hup := by cases hup
  taken := h.taken

/-- Nothing is lost when no message is late where the flag is raised, or when the send of a late one
will lower it again. -/
theorem Reads.fresh (trans : ∀ x y z, same x y → same y z → same x z) (h : Reads same b c)
    (hb : b.Fresh same)
    (hraise : b.up = false → c.up = true → b.late = false ∨ 0 < b.underway) : c.Fresh same := by
  constructor
  · intro hup hunder x hx
    rw [h.underway] at hunder
    have hcur : b.Current same := by
      cases hbup : b.up with
      | true => exact hb.up hbup hunder
      | false =>
        rcases h.raise hup with hup' | htaken | hnone
        · rw [hbup] at hup'
          cases hup'
        · refine hb.taken htaken ((hraise hbup hup).resolve_right ?_)
          rw [hunder]
          exact Nat.lt_irrefl 0
        · intro y hy
          rw [hnone] at hy
          cases hy
    rw [h.message]
    rcases h.held x hx with hm | ⟨y, hy, hxy⟩ | hdown
    · exact hm
    · exact trans x y b.message hxy (hcur y hy)
    · rw [hdown] at hup
      cases hup
  · intro htaken hlate x hx
    rw [h.message]
    rcases h.taken htaken with hnew | ⟨hbtaken, hheld⟩
    · exact hnew x hx
    · rw [h.late, hbtaken, Bool.and_true] at hlate
      exact hb.taken hbtaken hlate x (hheld ▸ hx)

end Box
end Mailbox
