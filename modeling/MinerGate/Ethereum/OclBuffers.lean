import MinerGate.Ethereum.ResultBuffers
import MinerGate.Lib.Transition
import MinerGate.Miner.Batches
import MinerGate.Miner.OclLoops

/-!
# The two buffers of the Ethereum OpenCL miner

While the results of one batch are read the next one is already in the queue, with the other buffer
for its results.
-/

namespace MinerGate

set_option autoImplicit false

open Transition

abbrev MINING_BUFFER_COUNT : Nat := 2

/-- A call of the search kernel with its arguments. `number` counts the calls, `update` the jobs
taken until then. -/
structure OclLaunch where
  number : Nat
  update : Nat
  buf : Fin MINING_BUFFER_COUNT
  target : Nat
  start : Nat
deriving DecidableEq

/-- A launch with the header that was in the header buffer when it ran. -/
structure OclRun where
  launch : OclLaunch
  header : H256
deriving DecidableEq

def OclRun.args (r : OclRun) : SearchArgs := ⟨r.header, r.launch.target, r.launch.start⟩

structure OclMemory where
  header : H256
  searchBuffers : Fin MINING_BUFFER_COUNT → ResultBuffer OclRun

namespace OclMemory

def setBuffer (m : OclMemory) (i : Fin MINING_BUFFER_COUNT) (b : ResultBuffer OclRun) : OclMemory :=
  { m with searchBuffers := Function.update m.searchBuffers i b }

def clear (m : OclMemory) (i : Fin MINING_BUFFER_COUNT) : OclMemory :=
  m.setBuffer i (m.searchBuffers i).clear

theorem cleared_clear {m : OclMemory} {i : Fin MINING_BUFFER_COUNT} :
    ((m.clear i).searchBuffers i).Cleared := by
  have hself : (m.clear i).searchBuffers i = (m.searchBuffers i).clear := Function.update_self ..
  rw [hself]
  exact ResultBuffer.cleared_clear

theorem clear_of_ne {m : OclMemory} {i j : Fin MINING_BUFFER_COUNT} (hne : j ≠ i) :
    (m.clear i).searchBuffers j = m.searchBuffers j := Function.update_of_ne hne ..

end OclMemory

/-- What is put into the queue. -/
inductive OclCommand where
  | writeHeader (header : H256)
  | clear (i : Fin MINING_BUFFER_COUNT)
  | search (l : OclLaunch)

def OclCommand.run (kernel : SearchKernel) (m : OclMemory) : OclCommand → OclMemory
  | .writeHeader header => { m with header := header }
  | .clear i => m.clear i
  | .search l =>
    let r : OclRun := ⟨l, m.header⟩
    m.setBuffer l.buf ((m.searchBuffers l.buf).run .openCl r (kernel r.args).1)

abbrev OclQueue := CommandQueue OclMemory OclCommand

/-- `struct pending_batch` -/
structure PendingBatch where
  start_nonce : Nat
  buf : Fin MINING_BUFFER_COUNT
deriving DecidableEq, Repr

/-- Which calls of `findShares` succeed: those up to the launch, the map, the unmap and the write of
the counter. -/
structure FindCalls where
  launch : Bool
  map : Bool
  unmap : Bool
  clear : Bool
deriving DecidableEq, Repr

/-- What has happened, which the miner does not keep: the number of launches and of jobs taken, the
launches with the buffers of `algo`, those for the last job taken that have not been read, those
that have been, and what was put into `results`. -/
structure OclHistory where
  launched : Nat
  update : Nat
  launches : List OclLaunch
  unread : List OclLaunch
  read : List OclLaunch
  reported : List (Nat × Option (OclRun × Nat))

namespace OclHistory

def new : OclHistory := ⟨0, 0, [], [], [], []⟩

/-- A job is taken, perhaps with new buffers; the pending batches are dropped. -/
def accept (h : OclHistory) (newBuffers : Bool) : OclHistory :=
  { h with
    update := h.update + 1
    launches := if newBuffers then [] else h.launches
    unread := [] }

def launch (h : OclHistory) (l : OclLaunch) : OclHistory :=
  { h with launched := h.launched + 1, launches := h.launches ++ [l], unread := h.unread ++ [l] }

/-- The results of the oldest unread launch are read. -/
def readFirst (h : OclHistory) (entries : List (Nat × Option (OclRun × Nat))) : OclHistory :=
  { h with
    unread := h.unread.tail
    read := h.read ++ h.unread.head?.toList
    reported := h.reported ++ entries }

end OclHistory

/-- A call of `start`: the worker, the loop, the queue of `algo`, the kernel's argument 4, the
members of the miner and the variables of `findShares`. -/
structure OclBuffers where
  worker : Worker
  loop : EthOcl
  queue : Option OclQueue
  target : Nat
  m_pending : List PendingBatch
  m_buf : Fin MINING_BUFFER_COUNT
  startNonce : Nat
  results : List Nat
  history : OclHistory

namespace OclBuffers

/-- The main thread stores a job or a state, never `Mining`; the device runs the first command in
the queue; the loop takes a step. `fresh` is what is in the memory of a new `algo`, for
`dagChanged`. -/
inductive Event where
  | storeJob (job : MiningJob)
  | setState (m_state : MinerThreadState)
  | device
  | loop (nonceCtl : NonceCtl) (inp : Input) (calls : FindCalls) (fresh : Option OclMemory)

section Step
variable (kernel : SearchKernel) (ethEval : MiningJob → Nat → Option QByteArray) (s : OclBuffers)

def headerHash : H256 := jobHash s.loop.job.job_id

def boundary : Nat := deviceTarget (jobHash s.loop.job.target)

/-- `setKernelArgs` up to `clFinish`. -/
def setKernelArgs (q : OclQueue) : OclQueue :=
  (((q.enqueue (.writeHeader s.headerHash)).enqueue (.clear 0)).enqueue (.clear 1)).finish
    (OclCommand.run kernel)

/-- The end of the case `UpdateJob`, with a new `algo` for a new DAG. Without any `algo` the program
ends there, here it goes on without a queue. -/
def prepared (fresh : Option OclMemory) : OclBuffers :=
  { s with
    queue := (fresh.map CommandQueue.idle <|> s.queue).map (s.setKernelArgs kernel)
    target := s.boundary
    m_pending := []
    m_buf := 0
    history := s.history.accept fresh.isSome }

/-- The kernel call of `findShares`. -/
def newLaunch : OclLaunch where
  number := s.history.launched
  update := s.history.update
  buf := s.m_buf
  target := s.target
  start := s.startNonce

def launchQueue (q : OclQueue) : OclQueue := q.enqueue (.search s.newLaunch)

/-- The batches that are pending right after the launch. -/
def batches : List PendingBatch := s.m_pending ++ [⟨s.startNonce, s.m_buf⟩]

def launch (q : OclQueue) : OclBuffers :=
  { s with
    queue := some (s.launchQueue q)
    m_pending := s.batches
    m_buf := s.m_buf + 1
    history := s.history.launch s.newLaunch }

/-- The results of a batch, when the queue is finished. -/
def entriesOf (q : OclQueue) (batch : PendingBatch) : List (Nat × Option (OclRun × Nat)) :=
  ((q.finished (OclCommand.run kernel)).searchBuffers batch.buf).entries .openCl

def resultNonce (batch : PendingBatch) (gid : Nat) : Nat := (batch.start_nonce + gid) % nonceModulus

/-- The batch taken from the queue of pending ones, with its results. -/
def readBatch (q : OclQueue) (batch : PendingBatch) (rest : List PendingBatch)
    (calls : FindCalls) : OclBuffers × Outcome :=
  let s := { s with m_pending := rest }
  if ¬ calls.map then (s, .fail)
  else
    let entries := entriesOf kernel q batch
    let memory := q.finished (OclCommand.run kernel)
    let s :=
      { s with
        queue := some (.idle memory)
        results := entries.map fun e => resultNonce batch e.1
        history := s.history.readFirst entries }
    if ¬ calls.unmap then (s, .fail)
    else if entries = [] then (s, .ok)
    else if ¬ calls.clear then (s, .fail)
    else ({ s with queue := some (.idle (memory.clear batch.buf)) }, .ok)

/-- `findShares` from the launch on. -/
def findShares (calls : FindCalls) : OclBuffers × Outcome :=
  match s.queue with
  | none => (s, .fail)
  | some q =>
    if ¬ calls.launch then (s, .fail)
    else if s.batches.length = MINING_BUFFER_COUNT then
      match s.batches with
      | batch :: rest => (s.launch q).readBatch kernel (s.launchQueue q) batch rest calls
      | [] => (s.launch q, .ok)
    else (s.launch q, .ok)

/-- What a step of the loop makes of the members and of the device, and the outcome of its calls. -/
def deviceStep (nonceCtl : NonceCtl) (inp : Input) (calls : FindCalls)
    (fresh : Option OclMemory) : OclBuffers × Outcome :=
  match s.loop.pc with
  | .switch => ({ s with results := [] }, inp.outcome)
  | .prepare => (if inp.outcome = .ok then s.prepared kernel fresh else s, inp.outcome)
  | .findReserve =>
    let threads := inp.threads.toNat
    ({ s with startNonce := firstNonce nonceModulus (nonceCtl.nextNonce threads).2 threads },
      inp.outcome)
  | .kernel => s.findShares kernel calls
  | .report => ({ s with results := s.results.tail }, inp.outcome)
  | _ => (s, inp.outcome)

def shared (nonceCtl : NonceCtl) : Shared :=
  { s.worker with m_fee := false, nonceCtl := fun _ => nonceCtl }

def step : OclBuffers → Event → Option OclBuffers
  | s, .storeJob job => some { s with worker := { s.worker with m_job := job } }
  | s, .setState m_state =>
    if m_state = .Mining then none
    else some { s with worker := { s.worker with m_state := m_state } }
  | s, .device =>
    (s.queue.bind fun q => q.advance (OclCommand.run kernel)).map fun q =>
      { s with queue := some q }
  | s, .loop nonceCtl inp calls fresh =>
    let p := s.deviceStep kernel nonceCtl inp calls fresh
    (s.loop.step ethEval (s.shared nonceCtl)
      { inp with outcome := p.2, found := s.results.head? }).map fun r =>
      { p.1 with
        worker := { s.worker with m_state := r.m_state }
        loop := r.loop }

end Step

/-- The results that `findShares` reads after a launch. -/
def newEntries (kernel : SearchKernel) (s : OclBuffers) (q : OclQueue) :
    List (Nat × Option (OclRun × Nat)) :=
  if s.batches.length = MINING_BUFFER_COUNT then
    match s.batches with
    | batch :: _ => entriesOf kernel (s.launchQueue q) batch
    | [] => []
  else []

/-- What holds when `findShares` launches: of the pending batches and of the buffer that the kernel
writes to, whose launches for the job have been read, and of the results that are read after it. -/
structure Attributed (kernel : SearchKernel) (s : OclBuffers) (q : OclQueue) : Prop where
  pending : s.batches.length ≤ MINING_BUFFER_COUNT
  distinct : (s.batches.map PendingBatch.buf).Nodup
  cleared : ((q.finished (OclCommand.run kernel)).searchBuffers s.m_buf).Cleared
  complete : ∀ l ∈ s.history.launches, l.buf = s.m_buf → l.update = s.history.update →
    l ∈ s.history.read
  written : ∀ batch rest, s.batches = batch :: rest → ∀ e ∈ s.newEntries kernel q,
    ∃ r, ∃ thread ∈ (kernel r.args).1, e = (thread % quint32Modulus, some (r, thread)) ∧
      resultNonce batch e.1 = (r.launch.start + e.1) % nonceModulus ∧
      r.header = s.headerHash ∧ r.launch.target = s.boundary
  once : ((s.history.reported ++ s.newEntries kernel q).map Prod.snd).Nodup

/-- All launches with the buffer of the next one have been read. -/
def ReadBefore (s : OclBuffers) : Prop :=
  ∀ l ∈ s.history.launches, l.buf = s.m_buf → l ∈ s.history.read

/-- The step launches with the queue `q`. -/
def Launches (s : OclBuffers) (q : OclQueue) : Event → Prop
  | .loop _ _ calls _ => s.loop.pc = .kernel ∧ s.queue = some q ∧ calls.launch = true
  | _ => False

/-- The call begins: nothing has been launched. -/
structure Initial (s : OclBuffers) : Prop where
  loop : s.loop = .new
  queue : s.queue = none
  history : s.history = .new

end OclBuffers

namespace OclHistory
variable {h : OclHistory} {l : OclLaunch} {entries : List (Nat × Option (OclRun × Nat))}

/-- What the history keeps: the launches are numbered, those for the last job are read or unread and
none is both, and no hit is reported twice. -/
structure Ok (h : OclHistory) : Prop where
  read_lt : ∀ l ∈ h.read, l.number < h.launched
  unread_lt : ∀ l ∈ h.unread, l.number < h.launched
  unread_nodup : h.unread.Nodup
  unread_not_read : ∀ l ∈ h.unread, l ∉ h.read
  update_le : ∀ l ∈ h.launches, l.update ≤ h.update
  complete : ∀ l ∈ h.launches, l.update = h.update → l ∈ h.read ∨ l ∈ h.unread
  reported_read : ∀ e ∈ h.reported, ∃ r thread, e.2 = some (r, thread) ∧ r.launch ∈ h.read
  reported_nodup : (h.reported.map Prod.snd).Nodup

theorem ok_new : new.Ok := by
  constructor <;> simp [new]

theorem Ok.accept (hh : h.Ok) (newBuffers : Bool) : (h.accept newBuffers).Ok where
  read_lt := hh.read_lt
  unread_lt := by simp [OclHistory.accept]
  unread_nodup := List.nodup_nil
  unread_not_read := by simp [OclHistory.accept]
  update_le l hl := by
    unfold OclHistory.accept at hl ⊢
    cases newBuffers with
    | true => cases hl
    | false => exact Nat.le_succ_of_le (hh.update_le l hl)
  complete l hl heq := by
    unfold OclHistory.accept at hl heq
    cases newBuffers with
    | true => cases hl
    | false =>
      have hle := hh.update_le l hl
      simp only at heq
      omega
  reported_read := hh.reported_read
  reported_nodup := hh.reported_nodup

theorem Ok.launch (hh : h.Ok) (hnumber : l.number = h.launched) (hupdate : l.update = h.update) :
    (h.launch l).Ok where
  read_lt l' hl := Nat.lt_succ_of_lt (hh.read_lt l' hl)
  unread_lt l' hl := by
    rcases List.mem_append.mp hl with hl | hl
    · exact Nat.lt_succ_of_lt (hh.unread_lt l' hl)
    · rw [List.mem_singleton.mp hl]
      exact Nat.lt_succ_of_le (Nat.le_of_eq hnumber)
  unread_nodup := by
    refine List.Nodup.append hh.unread_nodup (List.nodup_singleton l) fun l' hl' hl => ?_
    have hlt := hh.unread_lt l' hl'
    rw [List.mem_singleton.mp hl] at hlt
    omega
  unread_not_read l' hl hread := by
    rcases List.mem_append.mp hl with hl | hl
    · exact hh.unread_not_read l' hl hread
    · have hlt := hh.read_lt l' hread
      rw [List.mem_singleton.mp hl] at hlt
      omega
  update_le l' hl := by
    rcases List.mem_append.mp hl with hl | hl
    · exact hh.update_le l' hl
    · rw [List.mem_singleton.mp hl]
      exact Nat.le_of_eq hupdate
  complete l' hl heq := by
    rcases List.mem_append.mp hl with hl | hl
    · rcases hh.complete l' hl heq with hread | hunread
      · exact Or.inl hread
      · exact Or.inr (List.mem_append_left _ hunread)
    · exact Or.inr (List.mem_append_right _ hl)
  reported_read := hh.reported_read
  reported_nodup := hh.reported_nodup

/-- The entries of a launch that has not been read are none of those reported before. -/
theorem Ok.nodup_append (hh : h.Ok) (hl : l ∈ h.unread)
    (hentries : ∀ e ∈ entries, ∃ r thread, e.2 = some (r, thread) ∧ r.launch = l)
    (hnodup : (entries.map Prod.snd).Nodup) : ((h.reported ++ entries).map Prod.snd).Nodup := by
  rw [List.map_append]
  refine List.Nodup.append hh.reported_nodup hnodup fun w hold hnew => ?_
  obtain ⟨e, he, rfl⟩ := List.mem_map.mp hold
  obtain ⟨e', he', heq⟩ := List.mem_map.mp hnew
  obtain ⟨r, thread, hr, hread⟩ := hh.reported_read e he
  obtain ⟨r', thread', hr', hl'⟩ := hentries e' he'
  rw [hr, hr', Option.some.injEq, Prod.mk.injEq] at heq
  rw [← heq.1, hl'] at hread
  exact hh.unread_not_read l hl hread

theorem Ok.readFirst (hh : h.Ok) {rest : List OclLaunch} (hunread : h.unread = l :: rest)
    (hentries : ∀ e ∈ entries, ∃ r thread, e.2 = some (r, thread) ∧ r.launch = l)
    (hnodup : (entries.map Prod.snd).Nodup) : (h.readFirst entries).Ok := by
  have hhead : h.readFirst entries =
      { h with unread := rest, read := h.read ++ [l], reported := h.reported ++ entries } := by
    rw [OclHistory.readFirst, hunread]
    rfl
  have hmem : l ∈ h.unread := by
    rw [hunread]
    exact List.mem_cons_self
  have htail : ∀ l' ∈ rest, l' ∈ h.unread := by
    intro l' hl'
    rw [hunread]
    exact List.mem_cons_of_mem l hl'
  obtain ⟨hnew, hrest⟩ := List.nodup_cons.mp (hunread ▸ hh.unread_nodup)
  rw [hhead]
  refine ⟨?_, fun l' hl' => hh.unread_lt l' (htail l' hl'), hrest, ?_, hh.update_le, ?_, ?_,
    hh.nodup_append hmem hentries hnodup⟩
  · intro l' hl'
    rcases List.mem_append.mp hl' with hl' | hl'
    · exact hh.read_lt l' hl'
    · rw [List.mem_singleton.mp hl']
      exact hh.unread_lt l hmem
  · intro l' hl' hread
    rcases List.mem_append.mp hread with hread | hread
    · exact hh.unread_not_read l' (htail l' hl') hread
    · exact hnew (List.mem_singleton.mp hread ▸ hl')
  · intro l' hl' heq
    rcases hh.complete l' hl' heq with hread | hunread'
    · exact Or.inl (List.mem_append_left _ hread)
    · rw [hunread] at hunread'
      rcases List.mem_cons.mp hunread' with rfl | hin
      · exact Or.inl (List.mem_append_right _ (List.mem_singleton.mpr rfl))
      · exact Or.inr hin
  · intro e he
    rcases List.mem_append.mp he with he | he
    · obtain ⟨r, thread, hr, hread⟩ := hh.reported_read e he
      exact ⟨r, thread, hr, List.mem_append_left _ hread⟩
    · obtain ⟨r, thread, hr, hl⟩ := hentries e he
      exact ⟨r, thread, hr, List.mem_append_right _ (List.mem_singleton.mpr hl)⟩

end OclHistory

namespace OclBuffers
variable {kernel : SearchKernel} {s t : OclBuffers} {q : OclQueue} {m : OclMemory}
  {calls : FindCalls}

/-- What the batches depend on. -/
structure View where
  headerHash : H256
  boundary : Nat
  target : Nat
  m_pending : List PendingBatch
  m_buf : Fin MINING_BUFFER_COUNT
  unread : List OclLaunch

def view (s : OclBuffers) : View where
  headerHash := s.headerHash
  boundary := s.boundary
  target := s.target
  m_pending := s.m_pending
  m_buf := s.m_buf
  unread := s.history.unread

/-- The batch of `l` is pending, its results are or will be in its buffer, which is not the next
one. -/
structure Waits (kernel : SearchKernel) (v : View) (m : OclMemory) (l : OclLaunch) : Prop where
  unread : v.unread = [l]
  pending : v.m_pending = [⟨l.start, l.buf⟩]
  other : l.buf ≠ v.m_buf
  target : l.target = v.boundary
  filled : ∃ b : ResultBuffer OclRun, b.Cleared ∧ m.searchBuffers l.buf =
    b.run .openCl ⟨l, v.headerHash⟩ (kernel ⟨v.headerHash, l.target, l.start⟩).1

/-- The device has the job and a buffer for the next launch, and at most one batch is pending. -/
structure Ready (kernel : SearchKernel) (v : View) (m : OclMemory) : Prop where
  target : v.target = v.boundary
  header : m.header = v.headerHash
  cleared : (m.searchBuffers v.m_buf).Cleared
  waiting : (v.unread = [] ∧ v.m_pending = [] ∧ ∀ i, (m.searchBuffers i).Cleared) ∨
    ∃ l, Waits kernel v m l

/-- The miner is ready if there is an `algo`. -/
def Usable (kernel : SearchKernel) (s : OclBuffers) : Prop :=
  ∀ q, s.queue = some q → Ready kernel s.view (q.finished (OclCommand.run kernel))

/-- What holds where the loop stands. -/
def AtPc (kernel : SearchKernel) (s : OclBuffers) : EthOclPc → Prop
  | .switch => s.worker.m_state = .Mining → s.Usable kernel
  | .copyJob => s.worker.m_state ≠ .Mining
  | .prepare | .setExit _ | .returned => True
  | _ => s.Usable kernel

structure Inv (kernel : SearchKernel) (s : OclBuffers) : Prop where
  history : s.history.Ok
  atPc : s.AtPc kernel s.loop.pc

theorem next_ne (i : Fin MINING_BUFFER_COUNT) : i + 1 ≠ i := by
  revert i
  decide

theorem buffer_eq_next {a b : Fin MINING_BUFFER_COUNT} (h : a ≠ b) : a = b + 1 := by
  revert a b
  decide

theorem cleared_of_entries {b : ResultBuffer OclRun} (h : b.entries .openCl = []) :
    b.Cleared := by
  have hlength := congrArg List.length h
  rw [ResultBuffer.entries, List.length_map, List.length_range, List.length_nil] at hlength
  have hpos : 0 < MAX_SEARCH_RESULT := by decide
  have hzero : min (b.words 0) MAX_SEARCH_RESULT = 0 := hlength
  exact (Nat.min_eq_zero_iff.mp hzero).resolve_right (Nat.ne_of_gt hpos)

theorem usable_prepared {fresh : Option OclMemory} : (s.prepared kernel fresh).Usable kernel := by
  intro q hq
  obtain ⟨q', -, rfl⟩ := Option.map_eq_some_iff.mp hq
  have hmemory : (s.setKernelArgs kernel q').finished (OclCommand.run kernel) =
      OclMemory.clear (OclMemory.clear
        { q'.finished (OclCommand.run kernel) with header := s.headerHash } 0) 1 := by
    rw [setKernelArgs, CommandQueue.finished_finish, CommandQueue.finished_enqueue,
      CommandQueue.finished_enqueue, CommandQueue.finished_enqueue]
    rfl
  rw [hmemory]
  have hcleared : ∀ (m : OclMemory) (i : Fin MINING_BUFFER_COUNT),
      (((m.clear 0).clear 1).searchBuffers i).Cleared := by
    intro m i
    by_cases heq : i = 1
    · subst heq
      exact OclMemory.cleared_clear
    · have hzero : i = 0 := buffer_eq_next heq
      subst hzero
      rw [OclMemory.clear_of_ne (by decide)]
      exact OclMemory.cleared_clear
  exact ⟨rfl, rfl, hcleared _ _, Or.inl ⟨rfl, rfl, hcleared _⟩⟩

section Launch
variable (hr : Ready kernel s.view (q.finished (OclCommand.run kernel)))
include hr

theorem finished_launchQueue : (s.launchQueue q).finished (OclCommand.run kernel) =
    (q.finished (OclCommand.run kernel)).setBuffer s.m_buf
      (((q.finished (OclCommand.run kernel)).searchBuffers s.m_buf).run .openCl
        ⟨s.newLaunch, s.headerHash⟩
        (kernel ⟨s.headerHash, s.newLaunch.target, s.newLaunch.start⟩).1) := by
  have hheader : (q.finished (OclCommand.run kernel)).header = s.headerHash := hr.header
  rw [launchQueue, CommandQueue.finished_enqueue, OclCommand.run, hheader]
  rfl

theorem launchQueue_other {i : Fin MINING_BUFFER_COUNT} (hne : i ≠ s.m_buf) :
    ((s.launchQueue q).finished (OclCommand.run kernel)).searchBuffers i =
      (q.finished (OclCommand.run kernel)).searchBuffers i := by
  rw [finished_launchQueue hr]
  exact Function.update_of_ne hne ..

theorem launchQueue_header :
    ((s.launchQueue q).finished (OclCommand.run kernel)).header = s.headerHash := by
  rw [finished_launchQueue hr]
  exact hr.header

/-- After the launch its batch waits, whatever has become of the other one. -/
theorem waits_launch {v : View} (hunread : v.unread = [s.newLaunch])
    (hpending : v.m_pending = [⟨s.startNonce, s.m_buf⟩]) (hbuf : v.m_buf = s.m_buf + 1)
    (hheader : v.headerHash = s.headerHash) (hboundary : v.boundary = s.boundary)
    (hm : m.searchBuffers s.m_buf =
      ((s.launchQueue q).finished (OclCommand.run kernel)).searchBuffers s.m_buf) :
    Waits kernel v m s.newLaunch where
  unread := hunread
  pending := hpending
  other := by
    rw [hbuf]
    exact (next_ne s.m_buf).symm
  target := by
    rw [hboundary]
    exact hr.target
  filled := by
    refine ⟨_, hr.cleared, ?_⟩
    rw [hheader]
    change m.searchBuffers s.m_buf = _
    rw [hm, finished_launchQueue hr]
    exact Function.update_self ..

/-- The first launch for a job. -/
theorem ready_launch (hunread : s.history.unread = []) (hpending : s.m_pending = [])
    (hcleared : ∀ i, ((q.finished (OclCommand.run kernel)).searchBuffers i).Cleared) :
    Ready kernel (s.launch q).view ((s.launchQueue q).finished (OclCommand.run kernel)) := by
  refine ⟨hr.target, launchQueue_header hr, ?_,
    Or.inr ⟨s.newLaunch, waits_launch hr ?_ ?_ rfl rfl rfl rfl⟩⟩
  · change (((s.launchQueue q).finished _).searchBuffers (s.m_buf + 1)).Cleared
    rw [launchQueue_other hr (next_ne s.m_buf)]
    exact hcleared _
  · change s.history.unread ++ [s.newLaunch] = _
    rw [hunread, List.nil_append]
  · change s.m_pending ++ [_] = _
    rw [hpending, List.nil_append]

variable {l : OclLaunch} (hw : Waits kernel s.view (q.finished (OclCommand.run kernel)) l)
include hw

theorem Waits.entriesOf_eq : ∃ b : ResultBuffer OclRun, b.Cleared ∧
    entriesOf kernel (s.launchQueue q) ⟨l.start, l.buf⟩ =
      (b.run .openCl (⟨l, s.headerHash⟩ : OclRun)
        (kernel ⟨s.headerHash, l.target, l.start⟩).1).entries .openCl := by
  obtain ⟨b, hb, hfilled⟩ := hw.filled
  refine ⟨b, hb, ?_⟩
  rw [entriesOf, launchQueue_other hr hw.other, hfilled]
  rfl

theorem Waits.written : ∀ e ∈ entriesOf kernel (s.launchQueue q) ⟨l.start, l.buf⟩,
    ∃ thread ∈ (kernel ⟨s.headerHash, l.target, l.start⟩).1,
      e = (thread % quint32Modulus, some (⟨l, s.headerHash⟩, thread)) := by
  obtain ⟨b, hb, heq⟩ := hw.entriesOf_eq hr
  rw [heq]
  exact fun e he => ResultBuffer.mem_entries hb (kernel _).2 he

theorem Waits.nodup_entries :
    ((entriesOf kernel (s.launchQueue q) ⟨l.start, l.buf⟩).map Prod.snd).Nodup := by
  obtain ⟨b, hb, heq⟩ := hw.entriesOf_eq hr
  rw [heq]
  exact ResultBuffer.nodup_entries hb (kernel _).2

theorem Waits.launch_eq : ∀ e ∈ entriesOf kernel (s.launchQueue q) ⟨l.start, l.buf⟩,
    ∃ r thread, e.2 = some (r, thread) ∧ r.launch = l := by
  intro e he
  obtain ⟨thread, -, rfl⟩ := hw.written hr e he
  exact ⟨_, thread, rfl, rfl⟩

omit hr in
theorem Waits.batches_eq : s.batches = [⟨l.start, l.buf⟩, ⟨s.startNonce, s.m_buf⟩] := by
  have hpending : s.m_pending = [⟨l.start, l.buf⟩] := hw.pending
  rw [batches, hpending]
  rfl

/-- The batch that waited has been read. -/
theorem Waits.ready_read {v : View} (hunread : v.unread = [s.newLaunch])
    (hpending : v.m_pending = [⟨s.startNonce, s.m_buf⟩]) (hbuf : v.m_buf = s.m_buf + 1)
    (htarget : v.target = s.target) (hheader : v.headerHash = s.headerHash)
    (hboundary : v.boundary = s.boundary) (hmheader : m.header = s.headerHash)
    (hm : m.searchBuffers s.m_buf =
      ((s.launchQueue q).finished (OclCommand.run kernel)).searchBuffers s.m_buf)
    (hcleared : (m.searchBuffers l.buf).Cleared) : Ready kernel v m := by
  refine ⟨?_, hmheader.trans hheader.symm, ?_,
    Or.inr ⟨s.newLaunch, waits_launch hr hunread hpending hbuf hheader hboundary hm⟩⟩
  · rw [htarget, hboundary]
    exact hr.target
  · have hnext : l.buf = s.m_buf + 1 := buffer_eq_next hw.other
    rw [hbuf, ← hnext]
    exact hcleared

omit hr in
theorem Waits.unread_readFirst (entries : List (Nat × Option (OclRun × Nat))) :
    ((s.launch q).history.readFirst entries).unread = [s.newLaunch] := by
  have hunread : s.history.unread = [l] := hw.unread
  change (s.history.unread ++ [s.newLaunch]).tail = _
  rw [hunread]
  rfl

theorem Waits.readBatch_ok
    (hok : ((s.launch q).readBatch kernel (s.launchQueue q) ⟨l.start, l.buf⟩
      [⟨s.startNonce, s.m_buf⟩] calls).2 = .ok) :
    ((s.launch q).readBatch kernel (s.launchQueue q) ⟨l.start, l.buf⟩
      [⟨s.startNonce, s.m_buf⟩] calls).1.Usable kernel := by
  have hunread := hw.unread_readFirst (entriesOf kernel (s.launchQueue q) ⟨l.start, l.buf⟩)
  unfold readBatch at hok ⊢
  simp only at hok ⊢
  split_ifs at hok ⊢ with hmap hunmap hentries hclear
  · intro q' hq'
    cases hq'
    exact hw.ready_read hr hunread rfl rfl rfl rfl rfl (launchQueue_header hr) rfl
      (cleared_of_entries hentries)
  · intro q' hq'
    cases hq'
    refine hw.ready_read hr hunread rfl rfl rfl rfl rfl (launchQueue_header hr) ?_ ?_
    · exact OclMemory.clear_of_ne (Ne.symm hw.other)
    · exact OclMemory.cleared_clear

theorem Waits.readBatch_history (hh : s.history.Ok) :
    ((s.launch q).readBatch kernel (s.launchQueue q) ⟨l.start, l.buf⟩
      [⟨s.startNonce, s.m_buf⟩] calls).1.history.Ok := by
  have hlaunch : (s.launch q).history.Ok := hh.launch rfl rfl
  have hunread : (s.launch q).history.unread = l :: [s.newLaunch] := by
    have hold : s.history.unread = [l] := hw.unread
    change s.history.unread ++ [s.newLaunch] = _
    rw [hold]
    rfl
  have hread := hlaunch.readFirst hunread (hw.launch_eq hr) (hw.nodup_entries hr)
  unfold readBatch
  simp only
  split_ifs with hmap
  · exact hread
  · exact hread
  · exact hread
  · exact hread
  · exact hlaunch

end Launch

theorem findShares_none (hq : s.queue = none) : s.findShares kernel calls = (s, .fail) := by
  rw [findShares, hq]

theorem findShares_fails (hlaunch : calls.launch = false) :
    s.findShares kernel calls = (s, .fail) := by
  unfold findShares
  split
  · rfl
  · rw [if_pos (by rw [hlaunch]; exact Bool.false_ne_true)]

/-- Only the first batch for a job is not read at once. -/
theorem findShares_first (hq : s.queue = some q) (hlaunch : calls.launch = true)
    (hpending : s.m_pending = []) : s.findShares kernel calls = (s.launch q, .ok) := by
  have hbatches : s.batches = [⟨s.startNonce, s.m_buf⟩] := by
    rw [batches, hpending, List.nil_append]
  have hlength : s.batches.length ≠ MINING_BUFFER_COUNT := by
    rw [hbatches]
    exact Nat.ne_of_lt (Nat.lt_succ_self 1)
  rw [findShares, hq]
  simp only [hlaunch, hlength, not_true_eq_false, if_false]

theorem findShares_reads {l : OclLaunch} (hq : s.queue = some q) (hlaunch : calls.launch = true)
    (hbatches : s.batches = [⟨l.start, l.buf⟩, ⟨s.startNonce, s.m_buf⟩]) :
    s.findShares kernel calls = (s.launch q).readBatch kernel (s.launchQueue q) ⟨l.start, l.buf⟩
      [⟨s.startNonce, s.m_buf⟩] calls := by
  have hlength : s.batches.length = MINING_BUFFER_COUNT := by
    rw [hbatches]
    rfl
  rw [findShares, hq]
  simp only [hlaunch, hlength, not_true_eq_false, if_false, if_true]
  rw [hbatches]

theorem findShares_usable (hs : s.Usable kernel) (hok : (s.findShares kernel calls).2 = .ok) :
    (s.findShares kernel calls).1.Usable kernel := by
  cases hq : s.queue with
  | none =>
    rw [findShares_none hq] at hok
    cases hok
  | some q =>
    cases hlaunch : calls.launch with
    | false =>
      rw [findShares_fails hlaunch] at hok
      cases hok
    | true =>
      have hr := hs q hq
      rcases hr.waiting with ⟨hunread, hpending, hcleared⟩ | ⟨l, hw⟩
      · rw [findShares_first hq hlaunch hpending]
        intro q' hq'
        cases hq'
        exact ready_launch hr hunread hpending hcleared
      · rw [findShares_reads hq hlaunch hw.batches_eq] at hok ⊢
        exact hw.readBatch_ok hr hok

theorem findShares_history (hs : s.Usable kernel) (hh : s.history.Ok) :
    (s.findShares kernel calls).1.history.Ok := by
  cases hq : s.queue with
  | none =>
    rw [findShares_none hq]
    exact hh
  | some q =>
    cases hlaunch : calls.launch with
    | false =>
      rw [findShares_fails hlaunch]
      exact hh
    | true =>
      have hr := hs q hq
      rcases hr.waiting with ⟨-, hpending, -⟩ | ⟨l, hw⟩
      · rw [findShares_first hq hlaunch hpending]
        exact hh.launch rfl rfl
      · rw [findShares_reads hq hlaunch hw.batches_eq]
        exact hw.readBatch_history hr hh

theorem newEntries_first (hpending : s.m_pending = []) : s.newEntries kernel q = [] := by
  have hlength : s.batches.length ≠ MINING_BUFFER_COUNT := by
    rw [batches, hpending]
    exact Nat.ne_of_lt (Nat.lt_succ_self 1)
  rw [newEntries, if_neg hlength]

theorem newEntries_reads {l : OclLaunch}
    (hbatches : s.batches = [⟨l.start, l.buf⟩, ⟨s.startNonce, s.m_buf⟩]) :
    s.newEntries kernel q = entriesOf kernel (s.launchQueue q) ⟨l.start, l.buf⟩ := by
  have hlength : s.batches.length = MINING_BUFFER_COUNT := by
    rw [hbatches]
    rfl
  rw [newEntries, if_pos hlength, hbatches]

theorem Ready.attributed (hr : Ready kernel s.view (q.finished (OclCommand.run kernel)))
    (hh : s.history.Ok) : s.Attributed kernel q := by
  rcases hr.waiting with ⟨hunread, hpending, -⟩ | ⟨l, hw⟩
  · have hbatches : s.batches = [⟨s.startNonce, s.m_buf⟩] := by
      rw [batches, show s.m_pending = [] from hpending, List.nil_append]
    refine ⟨?_, ?_, hr.cleared, ?_, ?_, ?_⟩
    · rw [hbatches]
      exact Nat.le_succ 1
    · rw [hbatches]
      exact List.nodup_singleton _
    · intro l hl _ heq
      refine (hh.complete l hl heq).resolve_right fun hin => ?_
      rw [show s.history.unread = [] from hunread] at hin
      cases hin
    · intro batch rest _ e he
      rw [newEntries_first hpending] at he
      cases he
    · rw [newEntries_first hpending, List.append_nil]
      exact hh.reported_nodup
  · have hbatches := hw.batches_eq
    have hmem : l ∈ s.history.unread := by
      rw [show s.history.unread = [l] from hw.unread]
      exact List.mem_singleton.mpr rfl
    refine ⟨?_, ?_, hr.cleared, ?_, ?_, ?_⟩
    · rw [hbatches]
      exact Nat.le_refl 2
    · rw [hbatches]
      simp only [List.map_cons, List.map_nil, List.nodup_cons, List.mem_singleton, List.not_mem_nil,
        not_false_eq_true, List.nodup_nil, and_true]
      exact hw.other
    · intro l' hl' hbuf heq
      refine (hh.complete l' hl' heq).resolve_right fun hin => ?_
      rw [show s.history.unread = [l] from hw.unread, List.mem_singleton] at hin
      exact hw.other (hin ▸ hbuf)
    · intro batch rest hcons e he
      rw [newEntries_reads hbatches] at he
      rw [hbatches] at hcons
      obtain ⟨rfl, -⟩ := List.cons.inj hcons
      obtain ⟨thread, hthread, heq⟩ := hw.written hr e he
      exact ⟨⟨l, s.headerHash⟩, thread, hthread, heq, rfl, rfl, hw.target⟩
    · rw [newEntries_reads hbatches]
      exact hh.nodup_append hmem (hw.launch_eq hr) (hw.nodup_entries hr)

variable {ethEval : MiningJob → Nat → Option QByteArray} {nonceCtl : NonceCtl} {inp : Input}
  {fresh : Option OclMemory} {e : Event} {es : List Event}

/-- The step of the loop and what it makes of the device. -/
theorem step_loop (h : step kernel ethEval s (.loop nonceCtl inp calls fresh) = some t) :
    ∃ r, s.loop.step ethEval (s.shared nonceCtl)
        { inp with
          outcome := (s.deviceStep kernel nonceCtl inp calls fresh).2
          found := s.results.head? } = some r ∧
      t = { (s.deviceStep kernel nonceCtl inp calls fresh).1 with
        worker := { s.worker with m_state := r.m_state }
        loop := r.loop } := by
  obtain ⟨r, hr, rfl⟩ := Option.map_eq_some_iff.mp h
  exact ⟨r, hr, rfl⟩

/-- Only `copyJob` takes another job, and only `switch` leads to it. -/
theorem loop_step {l : EthOcl} {sh : Shared} {r : Result EthOcl}
    (h : l.step ethEval sh inp = some r) :
    (l.pc ≠ .copyJob → r.loop.job = l.job) ∧ (l.pc ≠ .switch → r.loop.pc ≠ .copyJob) := by
  cases EthOcl.step_cases h with
  | goes hgoes =>
    refine ⟨fun _ => rfl, fun hne => ?_⟩
    cases hgoes with
    | update => exact absurd rfl hne
    | missed pc hpc => rcases hpc with rfl | rfl <;> exact nofun
    | _ => exact nofun
  | copyJob => exact ⟨fun hne => absurd rfl hne, fun _ => nofun⟩
  | setExit returns => cases returns <;> exact ⟨fun _ => rfl, fun _ => nofun⟩
  | _ => exact ⟨fun _ => rfl, fun _ => nofun⟩

theorem Usable.setLoop {w : Worker} {l : EthOcl} (hs : s.Usable kernel)
    (hjob : l.job = s.loop.job) : Usable kernel { s with worker := w, loop := l } := by
  have hview : ({ s with worker := w, loop := l } : OclBuffers).view = s.view := by
    simp only [view, headerHash, boundary, hjob]
  intro q hq
  rw [hview]
  exact hs q hq

theorem Usable.setStart {startNonce : Nat} (hs : s.Usable kernel) :
    Usable kernel { s with startNonce := startNonce } := hs

/-- A usable miner may stand everywhere but at `copyJob`. -/
theorem AtPc.of_usable {pc : EthOclPc} (hs : s.Usable kernel) (hpc : pc ≠ .copyJob) :
    s.AtPc kernel pc := by
  cases pc with
  | copyJob => exact absurd rfl hpc
  | switch => exact fun _ => hs
  | prepare | setExit | returned => trivial
  | _ => exact hs

theorem readBatch_loop {batch : PendingBatch} {rest : List PendingBatch} :
    (s.readBatch kernel q batch rest calls).1.loop = s.loop := by
  unfold readBatch
  simp only
  split_ifs <;> rfl

theorem findShares_loop : (s.findShares kernel calls).1.loop = s.loop := by
  unfold findShares
  split
  · rfl
  · split_ifs
    · split
      · exact readBatch_loop
      · rfl
    · rfl
    · rfl

theorem deviceStep_loop : (s.deviceStep kernel nonceCtl inp calls fresh).1.loop = s.loop := by
  cases hpc : s.loop.pc with
  | prepare =>
    simp only [deviceStep, hpc]
    split <;> rfl
  | kernel =>
    simp only [deviceStep, hpc]
    exact findShares_loop
  | _ => simp only [deviceStep, hpc]

/-- A step after which the miner is usable. -/
theorem AtPc.of_deviceStep {r : Result EthOcl} {w : Worker}
    (hr : s.loop.step ethEval (s.shared nonceCtl)
      { inp with
        outcome := (s.deviceStep kernel nonceCtl inp calls fresh).2
        found := s.results.head? } = some r)
    (hs : Usable kernel (s.deviceStep kernel nonceCtl inp calls fresh).1)
    (hcopy : s.loop.pc ≠ .copyJob) (hswitch : s.loop.pc ≠ .switch) :
    AtPc kernel { (s.deviceStep kernel nonceCtl inp calls fresh).1 with
      worker := w
      loop := r.loop } r.loop.pc := by
  obtain ⟨hjob, hpc⟩ := loop_step hr
  refine AtPc.of_usable (hs.setLoop ?_) (hpc hswitch)
  rw [deviceStep_loop]
  exact hjob hcopy

theorem AtPc.loop (hs : s.AtPc kernel s.loop.pc)
    (h : step kernel ethEval s (.loop nonceCtl inp calls fresh) = some t) :
    t.AtPc kernel t.loop.pc := by
  obtain ⟨r, hr, rfl⟩ := step_loop h
  cases hpc : s.loop.pc with
  | returned =>
    rw [EthOcl.step, hpc] at hr
    cases hr
  | switch =>
    rw [hpc] at hs
    simp only [EthOcl.step, hpc, shared] at hr
    cases hm : s.worker.m_state with
    | UpdateJob =>
      rw [hm] at hr
      cases hr
      intro heq
      exact absurd (hm.symm.trans heq) (by decide)
    | Mining =>
      rw [hm] at hr
      cases hr
      have hdev : Usable kernel (s.deviceStep kernel nonceCtl inp calls fresh).1 := by
        rw [deviceStep, hpc]
        exact hs hm
      refine AtPc.of_usable (hdev.setLoop ?_) EthOclPc.noConfusion
      rw [deviceStep_loop]
      rfl
    | Exit | Stopping =>
      rw [hm] at hr
      cases hr
      trivial
  | copyJob =>
    rw [hpc] at hs
    simp only [EthOcl.step, hpc] at hr
    split at hr
    case isTrue =>
      cases hr
      exact fun hm => absurd hm hs
    case isFalse =>
      cases hr
      trivial
  | prepare =>
    by_cases hok : inp.outcome = .ok
    · refine AtPc.of_deviceStep hr ?_ (by rw [hpc]; decide) (by rw [hpc]; decide)
      simp only [deviceStep, hpc, hok, if_true]
      exact usable_prepared
    · simp only [EthOcl.step, deviceStep, hpc, hok, if_false] at hr
      cases hr
      trivial
  | setExit returns =>
    simp only [EthOcl.step, hpc] at hr
    cases hr
    cases returns with
    | true => trivial
    | false => exact fun hm => by cases hm
  | kernel =>
    rw [hpc] at hs
    by_cases hok : (s.findShares kernel calls).2 = .ok
    · refine AtPc.of_deviceStep hr ?_ (by rw [hpc]; decide) (by rw [hpc]; decide)
      rw [deviceStep, hpc]
      exact findShares_usable hs hok
    · simp only [EthOcl.step, deviceStep, hpc, hok, if_false] at hr
      cases hr
      trivial
  | findReserve =>
    rw [hpc] at hs
    refine AtPc.of_deviceStep hr ?_ (by rw [hpc]; decide) (by rw [hpc]; decide)
    rw [deviceStep, hpc]
    exact Usable.setStart hs
  | _ =>
    rw [hpc] at hs
    refine AtPc.of_deviceStep hr ?_ (by rw [hpc]; decide) (by rw [hpc]; decide)
    rw [deviceStep, hpc]
    exact hs

theorem Inv.loop (hs : s.Inv kernel)
    (h : step kernel ethEval s (.loop nonceCtl inp calls fresh) = some t) : t.Inv kernel := by
  refine ⟨?_, hs.atPc.loop h⟩
  have hat := hs.atPc
  obtain ⟨r, -, rfl⟩ := step_loop h
  change (s.deviceStep kernel nonceCtl inp calls fresh).1.history.Ok
  cases hpc : s.loop.pc with
  | prepare =>
    simp only [deviceStep, hpc]
    split
    · exact hs.history.accept fresh.isSome
    · exact hs.history
  | kernel =>
    rw [hpc] at hat
    simp only [deviceStep, hpc]
    exact findShares_history hat hs.history
  | _ =>
    simp only [deviceStep, hpc]
    exact hs.history

theorem AtPc.setState {m_state : MinerThreadState} (hne : m_state ≠ .Mining) {pc : EthOclPc}
    (hs : s.AtPc kernel pc) :
    AtPc kernel { s with worker := { s.worker with m_state := m_state } } pc := by
  cases pc with
  | copyJob => exact hne
  | switch => exact fun hm => absurd hm hne
  | _ => exact hs

theorem Usable.device {q' : OclQueue} (hs : s.Usable kernel) (hq : s.queue = some q)
    (hadvance : q.advance (OclCommand.run kernel) = some q') :
    Usable kernel { s with queue := some q' } := by
  intro q'' hq''
  cases hq''
  rw [CommandQueue.finished_advance hadvance]
  exact hs q hq

theorem AtPc.device {q' : OclQueue} {pc : EthOclPc} (hs : s.AtPc kernel pc)
    (hq : s.queue = some q) (hadvance : q.advance (OclCommand.run kernel) = some q') :
    AtPc kernel { s with queue := some q' } pc := by
  cases pc with
  | switch => exact fun hm => (hs hm).device hq hadvance
  | copyJob | prepare | setExit | returned => exact hs
  | _ => exact Usable.device hs hq hadvance

theorem Inv.step (hs : s.Inv kernel) (h : step kernel ethEval s e = some t) : t.Inv kernel := by
  cases e with
  | storeJob job =>
    cases h
    exact ⟨hs.history, hs.atPc⟩
  | setState m_state =>
    obtain ⟨hne, h⟩ := Option.ite_none_left_eq_some.mp h
    cases h
    exact ⟨hs.history, hs.atPc.setState hne⟩
  | device =>
    obtain ⟨q', hq', rfl⟩ := Option.map_eq_some_iff.mp h
    obtain ⟨q, hq, hadvance⟩ := Option.bind_eq_some_iff.mp hq'
    exact ⟨hs.history, hs.atPc.device hq hadvance⟩
  | loop nonceCtl inp calls fresh => exact hs.loop h

theorem Initial.inv (h : s.Initial) : s.Inv kernel := by
  constructor
  · rw [h.history]
    exact OclHistory.ok_new
  · rw [h.loop]
    intro q hq
    rw [h.queue] at hq
    cases hq

/-- In every run, each launch finds its buffer read or dropped and cleared, and the results that are
read after it are hits of a launch for the job, none twice. -/
theorem batches_attributed (kernel : SearchKernel)
    (ethEval : MiningJob → Nat → Option QByteArray) (s : OclBuffers) (es : List Event)
    (h0 : s.Initial) :
    Along (step kernel ethEval) (fun s e => ∀ q, s.Launches q e → s.Attributed kernel q) s es := by
  refine along_of_invariant (fun s e t hs h => Inv.step hs h) ?_ h0.inv
  intro s e hs q hlaunch
  cases e with
  | loop nonceCtl inp calls fresh =>
    obtain ⟨hpc, hq, -⟩ := hlaunch
    have hat := hs.atPc
    rw [hpc] at hat
    exact (hat q hq).attributed hs.history
  | _ => exact absurd hlaunch id

/-- The third thread of every launch has a hit. -/
def thirdThread : SearchKernel := fun _ => ⟨[2], List.nodup_singleton 2⟩

def begun : OclBuffers where
  worker := ⟨.UpdateJob, ⟨.replicate 32 1, .replicate 32 2, .replicate 32 3⟩, .empty⟩
  loop := .new
  queue := none
  target := 0
  m_pending := []
  m_buf := 0
  startNonce := 0
  results := []
  history := .new

theorem begun_initial : begun.Initial := ⟨rfl, rfl, rfl⟩

def newMemory : OclMemory := ⟨.ofNat 0, fun _ => ⟨fun _ => 7, fun _ => none⟩⟩

/-- A step of the loop in which every call succeeds. -/
def loopStep (nonce : Nat) (fresh : Option OclMemory) : Event :=
  .loop ⟨nonce, false⟩ ⟨false, .ok, 1, none, 0⟩ ⟨true, true, true, true⟩ fresh

/-- The loop takes its job and launches a batch. -/
def firstLaunch : List Event := List.replicate 12 (loopStep 0 (some newMemory))

/-- The loop reads the first batch after it has launched the next one. -/
theorem batches_attributed_first :
    Along (step thirdThread fun _ _ => none)
        (fun s e => ∀ q, s.Launches q e → s.Attributed thirdThread q) begun
        (firstLaunch ++ List.replicate 8 (loopStep 1 none)) ∧
      (exec (step thirdThread fun _ _ => none) begun
        (firstLaunch ++ List.replicate 8 (loopStep 1 none))).map
          (fun s => (s.results, s.m_pending)) = some ([3], [⟨2, 1⟩]) :=
  ⟨batches_attributed thirdThread (fun _ _ => none) begun _ begun_initial, by decide +kernel⟩

/-- A job is taken while a batch is pending, with the `algo` that there is. -/
def nextJob : List Event := .setState .UpdateJob :: List.replicate 12 (loopStep 1 none)

/-- After a job has been taken the buffer of the pending batch is used again, unread. -/
theorem pending_batch_is_dropped :
    ¬ ∀ (kernel : SearchKernel) (ethEval : MiningJob → Nat → Option QByteArray) (s : OclBuffers)
      (es : List Event), s.Initial → Along (step kernel ethEval)
        (fun s e => ∀ q, s.Launches q e → s.Attributed kernel q ∧ s.ReadBefore) s es := by
  intro h
  have hrun := along_iff_prefix.mp (h thirdThread (fun _ _ => none) begun
    (firstLaunch ++ nextJob ++ [loopStep 1 none]) begun_initial) (firstLaunch ++ nextJob)
    (loopStep 1 none) (List.prefix_refl _)
  have hstate : (exec (step thirdThread fun _ _ => none) begun (firstLaunch ++ nextJob)).map
      (fun s => (s.loop.pc, s.queue.isSome, s.m_buf, s.history.launches.map OclLaunch.buf,
        s.history.read)) = some (.kernel, true, 0, [0], []) := by
    decide +kernel
  obtain ⟨s, hs, heq⟩ := Option.map_eq_some_iff.mp hstate
  simp only [Prod.mk.injEq] at heq
  obtain ⟨hpc, hsome, hbuf, hlaunches, hread⟩ := heq
  obtain ⟨q, hq⟩ := Option.isSome_iff_exists.mp hsome
  obtain ⟨l, hl, hlbuf⟩ := List.map_eq_singleton_iff.mp hlaunches
  have hbefore := (hrun s hs q ⟨hpc, hq, rfl⟩).2 l (hl ▸ List.mem_singleton.mpr rfl)
    (hlbuf.trans hbuf.symm)
  rw [hread] at hbefore
  cases hbefore

end OclBuffers
end MinerGate
