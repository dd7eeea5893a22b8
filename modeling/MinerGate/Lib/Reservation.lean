import Mathlib.Data.List.Pairwise
import Mathlib.Data.Nat.ModEq
import Mathlib.Data.Set.Function
import Mathlib.Order.CompletePartialOrder
import Mathlib.Order.Interval.Set.Disjoint

/-!
# Reservations from a growing counter

A counter hands out places in order. The owner of a reservation may leave out places
at its start or go on past its end; two owners then meet exactly when one goes further
than the gap to the other one's first place.
-/

namespace Reservation

set_option autoImplicit false

/-- `reserve` places from `base` on, of which the owner uses those from `base + skip` up to
`base + extent`. -/
structure Slot where
  base : Nat
  reserve : Nat
  skip : Nat
  extent : Nat

namespace Slot

def used (p : Slot) : Set Nat := Set.Ico (p.base + p.skip) (p.base + p.extent)

def Active (p : Slot) : Prop := p.skip < p.extent

def overrun (p : Slot) : Nat := p.extent - p.reserve

def gap (p q : Slot) : Nat := q.base - (p.base + p.reserve)

def Before (p q : Slot) : Prop := p.base + p.reserve ≤ q.base

/-- The owner of `p` stops before the first place the owner of `q` uses. -/
def StopsBefore (p q : Slot) : Prop := p.Active → q.Active → p.overrun ≤ p.gap q + q.skip

instance (p q : Slot) : Decidable (p.StopsBefore q) :=
  inferInstanceAs (Decidable (p.skip < p.extent → q.skip < q.extent → p.overrun ≤ p.gap q + q.skip))

/-- An owner that goes at most one place too far can only meet its direct successor. -/
theorem stopsBefore_iff {p q : Slot} (h : p.Before q) (hp : p.overrun ≤ 1) :
    p.StopsBefore q ↔ (p.Active → q.Active → p.overrun = 1 → q.skip = 0 →
      p.base + p.reserve ≠ q.base) := by
  unfold StopsBefore gap
  unfold Before at h
  refine forall₂_congr fun _ _ => ?_
  omega

theorem used_disjoint_iff {p q : Slot} (h : p.Before q) (hskip : p.skip ≤ p.reserve) :
    Disjoint p.used q.used ↔ p.StopsBefore q := by
  unfold used StopsBefore Active overrun gap
  unfold Before at h
  rw [Set.Ico_disjoint_Ico]
  omega

end Slot

theorem disjoint_image_iff {α β : Type*} {f : α → β} {s t u : Set α} (hf : Set.InjOn f u)
    (hs : s ⊆ u) (ht : t ⊆ u) : Disjoint (f '' s) (f '' t) ↔ Disjoint s t := by
  constructor
  · intro h
    exact Set.disjoint_left.mpr fun a has hat =>
      Set.disjoint_left.mp h (Set.mem_image_of_mem f has) (Set.mem_image_of_mem f hat)
  · intro h
    refine Set.disjoint_left.mpr ?_
    rintro _ ⟨a, ha, rfl⟩ ⟨b, hb, hab⟩
    have : b = a := hf (ht hb) (hs ha) hab
    exact Set.disjoint_left.mp h ha (this ▸ hb)

/-- Slots reserved one after the other, seen through a map that is one-to-one on all the
places used: the uses are pairwise disjoint when every owner stops before the later ones. -/
theorem images_disjoint_iff {β : Type*} {f : Nat → β} {bound : Nat}
    (hf : Set.InjOn f (Set.Iio bound)) {l : List Slot} (hbefore : l.Pairwise Slot.Before)
    (hskip : ∀ p ∈ l, p.skip ≤ p.reserve) (hbound : ∀ p ∈ l, p.base + p.extent ≤ bound) :
    (l.map fun p => f '' p.used).Pairwise Disjoint ↔ l.Pairwise Slot.StopsBefore := by
  have hsub : ∀ p ∈ l, p.used ⊆ Set.Iio bound := fun p hp x hx =>
    lt_of_lt_of_le (Set.mem_Ico.mp hx).2 (hbound p hp)
  rw [List.pairwise_map]
  induction l with
  | nil => simp
  | cons p l ih =>
    obtain ⟨hp, hl⟩ := List.pairwise_cons.mp hbefore
    have htail := ih hl (fun q hq => hskip q (List.mem_cons_of_mem p hq))
      (fun q hq => hbound q (List.mem_cons_of_mem p hq))
      (fun q hq => hsub q (List.mem_cons_of_mem p hq))
    rw [List.pairwise_cons, List.pairwise_cons]
    refine and_congr (forall₂_congr fun q hq => ?_) htail
    rw [disjoint_image_iff hf (hsub p List.mem_cons_self) (hsub q (List.mem_cons_of_mem p hq)),
      Slot.used_disjoint_iff (hp q hq) (hskip p List.mem_cons_self)]

/-- Walking `t` steps around a circle of `m` values reaches a different value for every `t < m`. -/
theorem injOn_add_mod (start m : Nat) : Set.InjOn (fun t => (start + t) % m) (Set.Iio m) := by
  intro a ha b hb hab
  have h : a % m = b % m := Nat.ModEq.add_left_cancel' start hab
  rwa [Nat.mod_eq_of_lt ha, Nat.mod_eq_of_lt hb] at h

end Reservation
