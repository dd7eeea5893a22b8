import Mathlib.Data.List.Basic

/-!
# Command queues that run in order

A host puts commands into a queue; a device runs them later, the first one first. A call that
waits lets all of them run.
-/

set_option autoImplicit false

/-- A device's memory and the commands that have not run yet, the oldest first. -/
structure CommandQueue (M C : Type*) where
  memory : M
  pending : List C

namespace CommandQueue
variable {M C : Type*} (run : M → C → M) {q q' : CommandQueue M C} {c : C}

def idle (memory : M) : CommandQueue M C := ⟨memory, []⟩

def enqueue (q : CommandQueue M C) (c : C) : CommandQueue M C :=
  { q with pending := q.pending ++ [c] }

/-- The device runs the first command. -/
def advance (q : CommandQueue M C) : Option (CommandQueue M C) :=
  match q.pending with
  | [] => none
  | c :: rest => some ⟨run q.memory c, rest⟩

/-- The memory when all commands will have run. -/
def finished (q : CommandQueue M C) : M := q.pending.foldl run q.memory

def finish (q : CommandQueue M C) : CommandQueue M C := idle (q.finished run)

@[simp] theorem finished_idle (memory : M) : (idle memory).finished run = memory := rfl

@[simp] theorem finished_finish : (q.finish run).finished run = q.finished run := rfl

@[simp] theorem finished_enqueue : (q.enqueue c).finished run = run (q.finished run) c := by
  rw [finished, enqueue, List.foldl_append]
  rfl

variable {run}

/-- When a command runs makes no difference to one who waits. -/
theorem finished_advance (h : q.advance run = some q') : q'.finished run = q.finished run := by
  unfold advance at h
  cases hpending : q.pending with
  | nil =>
    rw [hpending] at h
    cases h
  | cons c rest =>
    rw [hpending] at h
    cases h
    rw [finished, finished, hpending]
    rfl

end CommandQueue
