import Mathlib.Data.List.Nodup
import Mathlib.Data.List.Perm.Basic
import Mathlib.Logic.Function.Iterate
import MinerGate.Lib.Transition

/-!
# Tickets from a counter in memory

Threads advance a counter atomically, each once, and store their values at the places that
the counter values they found give them. The counter is word 0 of the memory they store to.
-/

namespace Tickets

set_option autoImplicit false

/-- How an advance changes the counter, and the place for the value that it found. -/
structure Scheme where
  inc : Nat → Nat
  slot : Nat → Nat

structure Memory where
  words : Nat → Nat
  waiting : List Nat
  pending : List (Nat × Nat)
  tickets : List (Nat × Nat)
  stores : List (Nat × Nat)

inductive Event where
  | take (value : Nat)
  | store (ticket : Nat × Nat)
deriving DecidableEq

def start (words : Nat → Nat) (values : List Nat) : Memory := ⟨words, values, [], [], []⟩

namespace Memory

def write (words : Nat → Nat) (place value : Nat) : Nat → Nat :=
  fun i => if i = place then value else words i

def take (m : Memory) (c : Scheme) (value : Nat) : Memory :=
  let old := m.words 0
  { m with
    words := write m.words 0 (c.inc old)
    waiting := m.waiting.erase value
    pending := m.pending ++ [(c.slot old, value)]
    tickets := m.tickets ++ [(c.slot old, value)] }

def store (m : Memory) (ticket : Nat × Nat) : Memory :=
  { m with
    words := write m.words ticket.1 ticket.2
    pending := m.pending.erase ticket
    stores := m.stores ++ [ticket] }

structure Done (m : Memory) : Prop where
  waiting : m.waiting = []
  pending : m.pending = []

end Memory

def step (c : Scheme) (m : Memory) : Event → Option Memory
  | .take value => if value ∈ m.waiting then some (m.take c value) else none
  | .store ticket => if ticket ∈ m.pending then some (m.store ticket) else none

/-- The place of the `k`-th ticket. -/
def Scheme.place (c : Scheme) (k : Nat) : Nat := c.slot (c.inc^[k] 0)

@[simp] theorem write_self (words : Nat → Nat) (place value : Nat) :
    Memory.write words place value place = value := if_pos rfl

theorem write_of_ne {words : Nat → Nat} {i place value : Nat} (h : i ≠ place) :
    Memory.write words place value i = words i := if_neg h

variable {c : Scheme} {values : List Nat} {m t : Memory} {e : Event} {es : List Event}
  {words : Nat → Nat}

/-- What a step keeps. The tickets have their places as long as no earlier one is the counter's. -/
structure Inv (c : Scheme) (values : List Nat) (m : Memory) : Prop where
  values : (m.tickets.map Prod.snd ++ m.waiting).Perm values
  pending : m.tickets.Perm (m.pending ++ m.stores)
  counter : (∀ p ∈ m.stores, p.1 ≠ 0) → m.words 0 = c.inc^[m.tickets.length] 0
  places : (∀ k, k + 1 < m.tickets.length → c.place k ≠ 0) →
    m.tickets.map Prod.fst = (List.range m.tickets.length).map c.place
  cells : ∀ p ∈ m.stores, p.1 ≠ 0 → (p.1, m.words p.1) ∈ m.stores

theorem inv_start (h : words 0 = 0) : Inv c values (start words values) where
  values := .refl _
  pending := .refl _
  counter _ := h
  places _ := rfl
  cells := by simp [start]

theorem Inv.places_ne (h : Inv c values m) (hplace : ∀ k < m.tickets.length, c.place k ≠ 0) :
    ∀ p ∈ m.tickets, p.1 ≠ 0 := by
  intro p hp
  have hmem := List.mem_map_of_mem (f := Prod.fst) hp
  rw [h.places fun k hk => hplace k (by omega)] at hmem
  obtain ⟨k, hk, heq⟩ := List.mem_map.mp hmem
  rw [← heq]
  exact hplace k (List.mem_range.mp hk)

theorem Inv.counter_eq (h : Inv c values m) (hplace : ∀ k < m.tickets.length, c.place k ≠ 0) :
    m.words 0 = c.inc^[m.tickets.length] 0 := by
  apply h.counter
  intro p hp
  exact h.places_ne hplace p (h.pending.mem_iff.mpr (List.mem_append_right _ hp))

theorem Inv.take (h : Inv c values m) {value : Nat} (hvalue : value ∈ m.waiting) :
    Inv c values (m.take c value) where
  values := by
    have hwaiting := List.perm_cons_erase hvalue
    simp only [Memory.take, List.map_append, List.map_singleton, List.append_assoc,
      List.singleton_append]
    exact (hwaiting.symm.append_left _).trans h.values
  pending := by
    simp only [Memory.take, List.append_assoc, List.singleton_append]
    calc m.tickets ++ [(c.slot (m.words 0), value)]
      _ |>.Perm ((c.slot (m.words 0), value) :: m.tickets) := List.perm_append_singleton _ _
      _ |>.Perm ((c.slot (m.words 0), value) :: (m.pending ++ m.stores)) := h.pending.cons _
      _ |>.Perm (m.pending ++ (c.slot (m.words 0), value) :: m.stores) := List.perm_middle.symm
  counter hstores := by
    simp only [Memory.take, write_self, List.length_append, List.length_singleton,
      Function.iterate_succ_apply']
    rw [h.counter hstores]
  places hplace := by
    simp only [Memory.take, List.length_append, List.length_singleton] at hplace ⊢
    have hbefore : ∀ k < m.tickets.length, c.place k ≠ 0 := fun k hk => hplace k (by omega)
    rw [List.map_append, h.places fun k hk => hbefore k (by omega), List.range_succ,
      List.map_append, List.map_singleton, List.map_singleton, h.counter_eq hbefore]
    rfl
  cells p hp hne := by
    simp only [Memory.take] at hp ⊢
    rw [write_of_ne hne]
    exact h.cells p hp hne

theorem Inv.store (h : Inv c values m) {ticket : Nat × Nat} (hticket : ticket ∈ m.pending) :
    Inv c values (m.store ticket) where
  values := h.values
  pending := by
    simp only [Memory.store, ← List.append_assoc]
    calc m.tickets
      _ |>.Perm (m.pending ++ m.stores) := h.pending
      _ |>.Perm (ticket :: m.pending.erase ticket ++ m.stores) :=
        (List.perm_cons_erase hticket).append_right _
      _ |>.Perm (m.pending.erase ticket ++ m.stores ++ [ticket]) :=
        (List.perm_append_singleton _ _).symm
  counter hstores := by
    simp only [Memory.store, List.mem_append, List.mem_singleton] at hstores ⊢
    rw [write_of_ne (hstores ticket (Or.inr rfl)).symm]
    exact h.counter fun p hp => hstores p (Or.inl hp)
  places := h.places
  cells p hp hne := by
    simp only [Memory.store, List.mem_append, List.mem_singleton] at hp ⊢
    by_cases hplace : p.1 = ticket.1
    · rw [hplace, write_self]
      exact Or.inr rfl
    · rw [write_of_ne hplace]
      rcases hp with hp | rfl
      · exact Or.inl (h.cells p hp hne)
      · exact absurd rfl hplace

theorem Inv.step (h : Inv c values m) (he : step c m e = some t) : Inv c values t := by
  cases e with
  | take value =>
    simp only [Tickets.step] at he
    split at he
    case isTrue hvalue =>
      cases he
      exact h.take hvalue
    case isFalse => cases he
  | store ticket =>
    simp only [Tickets.step] at he
    split at he
    case isTrue hticket =>
      cases he
      exact h.store hticket
    case isFalse => cases he

theorem inv_run (hwords : words 0 = 0)
    (h : Transition.exec (step c) (start words values) es = some t) : Inv c values t :=
  Transition.exec_invariant_of_step (fun _ _ _ hI he => hI.step he) (inv_start hwords) h

section Complete
variable (h : Inv c values t) (hdone : t.Done)
include h hdone

theorem Inv.tickets_values : (t.tickets.map Prod.snd).Perm values := by
  have hvalues := h.values
  rwa [hdone.waiting, List.append_nil] at hvalues

theorem Inv.length_tickets : t.tickets.length = values.length := by
  rw [← (h.tickets_values hdone).length_eq, List.length_map]

theorem Inv.mem_stores {p : Nat × Nat} : p ∈ t.stores ↔ p ∈ t.tickets := by
  rw [h.pending.mem_iff, hdone.pending, List.nil_append]

theorem Inv.exists_ticket (hplace : ∀ k, k + 1 < values.length → c.place k ≠ 0) {k : Nat}
    (hk : k < values.length) : ∃ value ∈ values, (c.place k, value) ∈ t.tickets := by
  have hlength := h.length_tickets hdone
  have hplaces := h.places fun k hk => hplace k (by omega)
  have hmem : c.place k ∈ t.tickets.map Prod.fst := by
    rw [hplaces, hlength]
    exact List.mem_map_of_mem (List.mem_range.mpr hk)
  obtain ⟨⟨place, value⟩, hticket, heq⟩ := List.mem_map.mp hmem
  simp only at heq
  subst heq
  refine ⟨value, ?_, hticket⟩
  exact (h.tickets_values hdone).mem_iff.mp (List.mem_map_of_mem hticket)

/-- A word that some ticket is for holds the value of one of its tickets. -/
theorem Inv.mem_tickets (hplace : ∀ k, k + 1 < values.length → c.place k ≠ 0) {k : Nat}
    (hk : k < values.length) (hne : c.place k ≠ 0) :
    (c.place k, t.words (c.place k)) ∈ t.tickets := by
  obtain ⟨value, -, hticket⟩ := h.exists_ticket hdone hplace hk
  exact (h.mem_stores hdone).mp (h.cells _ ((h.mem_stores hdone).mpr hticket) hne)

/-- The words of different places hold different values. -/
theorem Inv.words_inj (hnodup : values.Nodup) {i j : Nat} (hi : (i, t.words i) ∈ t.tickets)
    (hj : (j, t.words j) ∈ t.tickets) (heq : t.words i = t.words j) : i = j := by
  have hmap : (t.tickets.map Prod.snd).Nodup := (h.tickets_values hdone).nodup_iff.mpr hnodup
  have hpair := List.inj_on_of_nodup_map hmap hi hj heq
  exact congrArg Prod.fst hpair

end Complete

/-- Threads that run one after another, in any order. -/
theorem exists_run_rest (order rest : List Nat) : ∀ m : Memory, m.waiting.Perm (order ++ rest) →
    m.pending = [] → ∃ es t, Transition.exec (step c) m es = some t ∧ t.waiting.Perm rest ∧
      t.pending = [] := by
  induction order with
  | nil => exact fun m hwaiting hpending => ⟨[], m, rfl, hwaiting, hpending⟩
  | cons value order ih =>
    intro m hwaiting hpending
    have hvalue : value ∈ m.waiting := hwaiting.mem_iff.mpr List.mem_cons_self
    have htake : step c m (.take value) = some (m.take c value) := if_pos hvalue
    have hmem : (c.slot (m.words 0), value) ∈ (m.take c value).pending := by simp [Memory.take]
    have hrest : (m.waiting.erase value).Perm (order ++ rest) := by
      have herase := hwaiting.erase value
      rwa [List.cons_append, List.erase_cons_head] at herase
    obtain ⟨es, t, hrun, hdone⟩ := ih ((m.take c value).store (c.slot (m.words 0), value)) hrest
      (by simp [Memory.take, Memory.store, hpending])
    refine ⟨.take value :: .store (c.slot (m.words 0), value) :: es, t, ?_, hdone⟩
    exact Transition.exec_cons.mpr ⟨_, htake, Transition.exec_cons.mpr ⟨_, if_pos hmem, hrun⟩⟩

theorem exists_run (words : Nat → Nat) (values : List Nat) :
    ∃ es t, Transition.exec (step c) (start words values) es = some t ∧ t.Done := by
  obtain ⟨es, t, hrun, hwaiting, hpending⟩ :=
    exists_run_rest values [] (start words values) (by simp [start]) rfl
  exact ⟨es, t, hrun, hwaiting.eq_nil, hpending⟩

end Tickets
