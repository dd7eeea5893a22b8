import MinerGate.Ethereum.ResultBuffers
import MinerGate.Lib.Transition
import MinerGate.Miner.CudaLoops

/-!
# The streams of the Ethereum CUDA miner

Five launches are on their way at a time. The results of a launch are read when its stream comes
round again, with a base nonce that is five batches back from where the search has come to.
-/

namespace MinerGate

set_option autoImplicit false

open Transition

def MAX_GPU_STREAMS : Nat := 5

/-- A launch of the search kernel. It keeps the constants that the device had when it was launched:
a copy to a constant waits for all streams. `number` counts the launches, `update` the changes of
header or target until then. -/
structure CudaLaunch where
  number : Nat
  update : Nat
  stream : Fin MAX_GPU_STREAMS
  index : Nat
  args : SearchArgs
deriving DecidableEq

abbrev CudaStream := CommandQueue (ResultBuffer CudaLaunch) CudaLaunch

/-- What has happened to the launches, which the miner does not keep: those of each stream, those
that have been in its buffer since its counter was last cleared, and those that have been read.
`accepted` are the header and the target taken last, `next` is the nonce to go on with. -/
structure LaunchHistory where
  launched : Nat
  update : Nat
  accepted : Option (H256 × Nat)
  next : Nat
  launches : Fin MAX_GPU_STREAMS → List CudaLaunch
  unread : Fin MAX_GPU_STREAMS → List CudaLaunch
  read : List CudaLaunch

namespace LaunchHistory

def new : LaunchHistory := ⟨0, 0, none, 0, fun _ => [], fun _ => [], []⟩

def accept (h : LaunchHistory) (header : H256) (target : Nat) : LaunchHistory :=
  if h.accepted = some (header, target) then h
  else { h with update := h.update + 1, accepted := some (header, target) }

/-- Streams and buffers are made anew. -/
def renew (h : LaunchHistory) : LaunchHistory :=
  { h with launches := fun _ => [], unread := fun _ => [] }

/-- The counters of all buffers are cleared. -/
def drop (h : LaunchHistory) : LaunchHistory := { h with unread := fun _ => [] }

def readStream (h : LaunchHistory) (i : Fin MAX_GPU_STREAMS) : LaunchHistory :=
  { h with read := h.read ++ h.unread i, unread := Function.update h.unread i [] }

def launch (h : LaunchHistory) (l : CudaLaunch) : LaunchHistory :=
  { h with
    launched := h.launched + 1
    launches := Function.update h.launches l.stream (h.launches l.stream ++ [l])
    unread := Function.update h.unread l.stream (h.unread l.stream ++ [l]) }

end LaunchHistory

/-- `memset(&m_currentHeader, 0, sizeof(quint32))` -/
def H256.clearWord (header : H256) : H256 :=
  ⟨List.replicate 4 0 ++ header.m_data.drop 4, by simp [header.size]⟩

/-- A call of `start`: the worker, the loop, the members of the miner, the constants of the device
and its streams with their buffers. `mustInitialize` and `nonces` are variables of the loop. -/
structure CudaStreams where
  worker : Worker
  loop : EthCuda
  lastSeedHash : QByteArray
  m_currentHeader : H256
  m_currentTarget : Nat
  m_currentIndex : Nat
  d_header : H256
  d_target : Nat
  streams : Fin MAX_GPU_STREAMS → CudaStream
  mustInitialize : Bool
  nonces : List Nat
  history : LaunchHistory

namespace CudaStreams

/-- The main thread stores a job and `UpdateJob`, or `Stopping`; the device runs the first launch of
a stream; the loop takes a step. `fresh` is what is in buffers that are allocated there. -/
inductive Event where
  | storeJob (job : MiningJob)
  | updateJob
  | stop
  | device (i : Fin MAX_GPU_STREAMS)
  | loop (nonceCtl : NonceCtl) (outcome : Outcome) (fresh : Fin MAX_GPU_STREAMS → Nat → Nat)

section Step
variable (kernel : SearchKernel) (ethEval : MiningJob → Nat → Option QByteArray)
  (s : CudaStreams)

def headerHash : H256 := jobHash s.loop.job.job_id

def target : Nat := deviceTarget (jobHash s.loop.job.target)

def batchSize : Nat := MinerGate.batchSize s.loop.gridSize s.loop.blockSize

/-- The end of the case `UpdateJob`, with streams and buffers for a new seed hash. -/
def prepared (fresh : Fin MAX_GPU_STREAMS → Nat → Nat) : CudaStreams :=
  let history := s.history.accept s.headerHash s.target
  { s with
    lastSeedHash := s.loop.job.blob
    m_currentHeader := s.m_currentHeader.clearWord
    m_currentTarget := 0
    m_currentIndex := 0
    streams :=
      if s.lastSeedHash = s.loop.job.blob then s.streams
      else fun i => .idle ⟨fresh i, fun _ => none⟩
    history := if s.lastSeedHash = s.loop.job.blob then history else history.renew }

/-- The beginning of the case `Mining`. -/
def beginPass (nonce : Nat) : CudaStreams :=
  let mustInitialize : Bool := s.m_currentHeader ≠ s.headerHash ∨ s.m_currentTarget ≠ s.target
  { s with
    m_currentHeader := s.headerHash
    m_currentTarget := s.target
    d_header := if s.m_currentHeader ≠ s.headerHash then s.headerHash else s.d_header
    d_target := if s.m_currentTarget ≠ s.target then s.target else s.d_target
    m_currentIndex := if mustInitialize then 0 else s.m_currentIndex
    mustInitialize := mustInitialize
    history := { s.history with next := nonce } }

def runLaunch (b : ResultBuffer CudaLaunch) (l : CudaLaunch) : ResultBuffer CudaLaunch :=
  b.run .cuda l (kernel l.args).1

/-- `cudaDeviceSynchronize` and the counters after it. -/
def synchronized : CudaStreams :=
  { s with
    streams := fun i => .idle ((s.streams i).finished (runLaunch kernel)).clear
    history := s.history.drop }

def stream : Fin MAX_GPU_STREAMS := ⟨s.m_currentIndex % MAX_GPU_STREAMS, Nat.mod_lt _ (by decide)⟩

/-- The buffer of the stream after `cudaStreamSynchronize`. -/
def buffer : ResultBuffer CudaLaunch := (s.streams s.stream).finished (runLaunch kernel)

/-- The launch reads results. -/
def Reads : Prop := MAX_GPU_STREAMS ≤ s.m_currentIndex

instance : Decidable s.Reads := inferInstanceAs (Decidable (_ ≤ _))

def entries : List (Nat × Option (CudaLaunch × Nat)) :=
  if s.Reads then (s.buffer kernel).entries .cuda else []

/-- `nonce_base + gid`, in 64 bits -/
def resultNonce (nonce gid : Nat) : Nat :=
  let nonce_base :=
    (nonce + (nonceModulus - MAX_GPU_STREAMS * s.batchSize % nonceModulus)) % nonceModulus
  (nonce_base + gid) % nonceModulus

/-- The stream when the results have been read. -/
def readStream : CudaStream :=
  if s.Reads then
    let b := s.buffer kernel
    .idle (if EthashKernel.found b.words .cuda = 0 then b else b.clear)
  else s.streams s.stream

def readHistory : LaunchHistory := if s.Reads then s.history.readStream s.stream else s.history

/-- The launch of `run_ethash_search` at `nonce`. -/
def newLaunch (nonce : Nat) : CudaLaunch where
  number := s.history.launched
  update := s.history.update
  stream := s.stream
  index := s.m_currentIndex
  args := ⟨s.d_header, s.d_target, nonce⟩

def launch (nonce : Nat) : CudaStreams :=
  { s with
    nonces := (s.entries kernel).map fun e => s.resultNonce nonce e.1
    streams :=
      Function.update s.streams s.stream ((s.readStream kernel).enqueue (s.newLaunch nonce))
    history := s.readHistory.launch (s.newLaunch nonce) }

/-- The next nonce found, or the end of the loop's body. -/
def report (nonce : Nat) : CudaStreams :=
  match s.nonces with
  | _ :: nonces => { s with nonces := nonces }
  | [] =>
    { s with
      m_currentIndex := (s.m_currentIndex + 1) % nonceModulus
      history := { s.history with next := (nonce + s.batchSize) % nonceModulus } }

/-- Without `mustInitialize` nothing is called that may fail. -/
def outcomeAt (outcome : Outcome) : Outcome :=
  match s.loop.pc with
  | .synchronize .. => if s.mustInitialize then outcome else .ok
  | _ => outcome

/-- The nonce with which a pass begins. -/
def firstNonce (nonceCtl : NonceCtl) : Nat :=
  (nonceCtl.nextNonce ETH_CUDA_NONCE_INTERVAL).2 - ETH_CUDA_NONCE_INTERVAL

/-- The device and the members after a step of the loop. -/
def deviceStep (nonceCtl : NonceCtl) (outcome : Outcome)
    (fresh : Fin MAX_GPU_STREAMS → Nat → Nat) : CudaStreams :=
  match s.loop.pc with
  | .prepare => if outcome = .ok then s.prepared fresh else s
  | .reserve => s.beginPass (firstNonce nonceCtl)
  | .synchronize .. => if s.mustInitialize ∧ outcome = .ok then s.synchronized kernel else s
  | .launch nonce _ => if outcome = .ok then s.launch kernel nonce else s
  | .report nonce _ _ => s.report nonce
  | _ => s

def shared (nonceCtl : NonceCtl) : Shared :=
  { s.worker with m_fee := false, nonceCtl := fun _ => nonceCtl }

def setState (m_state : MinerThreadState) : CudaStreams :=
  { s with worker := { s.worker with m_state := m_state } }

def step : CudaStreams → Event → Option CudaStreams
  | s, .storeJob job => some { s with worker := { s.worker with m_job := job } }
  | s, .updateJob => if s.worker.m_state.stops then none else some (s.setState .UpdateJob)
  | s, .stop => some (s.setState .Stopping)
  | s, .device i =>
    ((s.streams i).advance (runLaunch kernel)).map fun q =>
      { s with streams := Function.update s.streams i q }
  | s, .loop nonceCtl outcome fresh =>
    let outcome := s.outcomeAt outcome
    (s.loop.step ethEval (s.shared nonceCtl)
      { lucky := false, outcome := outcome, threads := 0, found := s.nonces.head?
        uninitialized := 0 }).map fun r =>
      { s.deviceStep kernel nonceCtl outcome fresh with
        worker := { s.worker with m_state := r.m_state }
        loop := r.loop }

end Step

/-- What is read before a launch at `nonce`: each nonce is that of the launch that wrote its number,
which was one for the header of the job, no launch is read twice, and all launches of the stream for
the same header and target have been read. -/
structure Attributed (kernel : SearchKernel) (s : CudaStreams) (nonce : Nat) : Prop where
  written : ∀ e ∈ s.entries kernel, ∃ l, ∃ thread ∈ (kernel l.args).1,
    e = (thread % quint32Modulus, some (l, thread)) ∧
      s.resultNonce nonce e.1 = (l.args.start + e.1) % nonceModulus ∧
      l.args.header = s.headerHash
  once : s.readHistory.read.Nodup
  complete : ∀ l ∈ s.history.launches s.stream, l.update = s.history.update →
    l ∈ s.readHistory.read

/-- The step launches, and what it reads is attributed to the right launches and the right job. -/
def Attributes (kernel : SearchKernel) (s : CudaStreams) : Event → Prop
  | .loop .. =>
    match s.loop.pc with
    | .launch nonce _ => s.Attributed kernel nonce
    | _ => True
  | _ => True

/-- A job is taken. Its header and target are new if a launch for the last ones has not been read
and the streams stay. The header is not that of the device with its first four bytes cleared. -/
structure Takes (s : CudaStreams) : Prop where
  fresh : s.lastSeedHash = s.loop.job.blob → s.history.accepted = some (s.headerHash, s.target) →
    ∀ i, ∀ l ∈ s.history.unread i, l.update ≠ s.history.update
  changed : s.headerHash = s.m_currentHeader.clearWord →
    s.d_header = s.headerHash ∧ s.target ≠ 0

/-- The loop goes on where it has stopped, or no launch that has not been read has a hit. -/
def Continues (kernel : SearchKernel) (s : CudaStreams) (nonce : Nat) : Prop :=
  nonce = s.history.next ∨ ∀ i, ∀ l ∈ s.history.unread i, (kernel l.args).1 = []

instance (s : CudaStreams) : Decidable s.Takes :=
  decidable_of_iff ((s.lastSeedHash = s.loop.job.blob →
      s.history.accepted = some (s.headerHash, s.target) →
        ∀ i, ∀ l ∈ s.history.unread i, l.update ≠ s.history.update) ∧
      (s.headerHash = s.m_currentHeader.clearWord → s.d_header = s.headerHash ∧ s.target ≠ 0))
    ⟨fun h => ⟨h.1, h.2⟩, fun h => ⟨h.fresh, h.changed⟩⟩

instance (kernel : SearchKernel) (s : CudaStreams) (nonce : Nat) :
    Decidable (s.Continues kernel nonce) := inferInstanceAs (Decidable (_ ∨ _))

def GuardAt (kernel : SearchKernel) (s : CudaStreams) (nonceCtl : NonceCtl) (outcome : Outcome) :
    EthCudaPc → Prop
  | .prepare => outcome = .ok → s.Takes
  | .reserve => (s.beginPass (firstNonce nonceCtl)).mustInitialize = false →
      s.Continues kernel (firstNonce nonceCtl)
  | .launch .. => s.m_currentIndex + 1 < nonceModulus
  | _ => True

def Guard (kernel : SearchKernel) (s : CudaStreams) : Event → Prop
  | .loop nonceCtl outcome _ => s.GuardAt kernel nonceCtl outcome s.loop.pc
  | _ => True

instance decidableGuardAt (kernel : SearchKernel) (s : CudaStreams) (nonceCtl : NonceCtl)
    (outcome : Outcome) : ∀ pc, Decidable (s.GuardAt kernel nonceCtl outcome pc)
  | .prepare => inferInstanceAs (Decidable (_ → _))
  | .reserve => inferInstanceAs (Decidable (_ → _))
  | .launch .. => inferInstanceAs (Decidable (_ < _))
  | .init | .switch | .copyJob | .giveUp | .checkUpdate | .setMining | .synchronize .. | .batch ..
  | .report .. | .returned => .isTrue trivial

instance decidableGuard (kernel : SearchKernel) (s : CudaStreams) :
    ∀ e, Decidable (s.Guard kernel e)
  | .loop nonceCtl outcome _ => decidableGuardAt kernel s nonceCtl outcome s.loop.pc
  | .storeJob _ | .updateJob | .stop | .device _ => .isTrue trivial

/-- The call begins in a worker that has just stored `UpdateJob`. -/
structure Initial (s : CudaStreams) : Prop where
  loop : ∃ gridSize blockSize, s.loop = .new gridSize blockSize
  state : s.worker.m_state ≠ .Mining
  seed : s.lastSeedHash = []
  history : s.history = .new

end CudaStreams

namespace LaunchHistory
variable {h : LaunchHistory} {l : CudaLaunch} {i j : Fin MAX_GPU_STREAMS} {header : H256}
  {target : Nat}

/-- What the history keeps: the launches are numbered, none is unread on two streams or read and
unread, and of those for the last update none is lost. -/
structure Ok (h : LaunchHistory) : Prop where
  read_lt : ∀ l ∈ h.read, l.number < h.launched
  read_nodup : h.read.Nodup
  unread_lt : ∀ i, ∀ l ∈ h.unread i, l.number < h.launched
  unread_stream : ∀ i, ∀ l ∈ h.unread i, l.stream = i
  unread_nodup : ∀ i, (h.unread i).Nodup
  unread_not_read : ∀ i, ∀ l ∈ h.unread i, l ∉ h.read
  update_le : ∀ i, ∀ l ∈ h.launches i, l.update ≤ h.update
  unread_update_le : ∀ i, ∀ l ∈ h.unread i, l.update ≤ h.update
  complete : ∀ i, ∀ l ∈ h.launches i, l.update = h.update → l ∈ h.read ∨ l ∈ h.unread i

theorem ok_new : new.Ok := by
  constructor <;> simp [new]

theorem Ok.setNext (hh : h.Ok) (next : Nat) : Ok { h with next := next } :=
  ⟨hh.read_lt, hh.read_nodup, hh.unread_lt, hh.unread_stream, hh.unread_nodup, hh.unread_not_read,
    hh.update_le, hh.unread_update_le, hh.complete⟩

theorem Ok.accept (hh : h.Ok) : (h.accept header target).Ok := by
  unfold LaunchHistory.accept
  split
  case isTrue => exact hh
  case isFalse =>
    refine ⟨hh.read_lt, hh.read_nodup, hh.unread_lt, hh.unread_stream, hh.unread_nodup,
      hh.unread_not_read, ?_, ?_, ?_⟩
    · intro i l hl
      exact Nat.le_succ_of_le (hh.update_le i l hl)
    · intro i l hl
      exact Nat.le_succ_of_le (hh.unread_update_le i l hl)
    · intro i l hl heq
      have hle := hh.update_le i l hl
      have heq : l.update = h.update + 1 := heq
      omega

/-- After a change of header or target no unread launch is one for the last update. -/
theorem Ok.accept_update_ne (hh : h.Ok)
    (hnew : h.accepted = some (header, target) → ∀ i, ∀ l ∈ h.unread i, l.update ≠ h.update) :
    ∀ i, ∀ l ∈ (h.accept header target).unread i, l.update ≠ (h.accept header target).update := by
  unfold LaunchHistory.accept
  split
  case isTrue hsame => exact hnew hsame
  case isFalse =>
    intro i l hl
    have hle := hh.unread_update_le i l hl
    exact Nat.ne_of_lt (Nat.lt_succ_of_le hle)

theorem Ok.renew (hh : h.Ok) : h.renew.Ok where
  read_lt := hh.read_lt
  read_nodup := hh.read_nodup
  unread_lt := by simp [LaunchHistory.renew]
  unread_stream := by simp [LaunchHistory.renew]
  unread_nodup := by simp [LaunchHistory.renew]
  unread_not_read := by simp [LaunchHistory.renew]
  update_le := by simp [LaunchHistory.renew]
  unread_update_le := by simp [LaunchHistory.renew]
  complete := by simp [LaunchHistory.renew]

/-- The counters may be cleared when the unread launches are older than the last update. -/
theorem Ok.drop (hh : h.Ok) (hold : ∀ i, ∀ l ∈ h.unread i, l.update ≠ h.update) : h.drop.Ok where
  read_lt := hh.read_lt
  read_nodup := hh.read_nodup
  unread_lt := by simp [LaunchHistory.drop]
  unread_stream := by simp [LaunchHistory.drop]
  unread_nodup := by simp [LaunchHistory.drop]
  unread_not_read := by simp [LaunchHistory.drop]
  update_le := hh.update_le
  unread_update_le := by simp [LaunchHistory.drop]
  complete := by
    intro i l hl heq
    refine Or.inl ((hh.complete i l hl heq).resolve_right fun hunread => ?_)
    exact hold i l hunread heq

@[simp] theorem readStream_unread_self : (h.readStream i).unread i = [] := Function.update_self ..

theorem readStream_unread_of_ne (hne : j ≠ i) : (h.readStream i).unread j = h.unread j :=
  Function.update_of_ne hne ..

theorem mem_readStream_unread (hl : l ∈ (h.readStream i).unread j) : l ∈ h.unread j ∧ j ≠ i := by
  by_cases heq : j = i
  · rw [heq, readStream_unread_self] at hl
    cases hl
  · rw [readStream_unread_of_ne heq] at hl
    exact ⟨hl, heq⟩

theorem Ok.readStream (hh : h.Ok) (i : Fin MAX_GPU_STREAMS) : (h.readStream i).Ok where
  read_lt := by
    intro l hl
    rcases List.mem_append.mp hl with hl | hl
    · exact hh.read_lt l hl
    · exact hh.unread_lt i l hl
  read_nodup := by
    refine List.Nodup.append hh.read_nodup (hh.unread_nodup i) ?_
    exact fun l hread hunread => hh.unread_not_read i l hunread hread
  unread_lt j l hl := hh.unread_lt j l (mem_readStream_unread hl).1
  unread_stream j l hl := hh.unread_stream j l (mem_readStream_unread hl).1
  unread_nodup j := by
    by_cases heq : j = i
    · rw [heq, readStream_unread_self]
      exact List.nodup_nil
    · rw [readStream_unread_of_ne heq]
      exact hh.unread_nodup j
  unread_not_read j l hl hread := by
    obtain ⟨hl, hne⟩ := mem_readStream_unread hl
    rcases List.mem_append.mp hread with hread | hread
    · exact hh.unread_not_read j l hl hread
    · exact hne ((hh.unread_stream j l hl).symm.trans (hh.unread_stream i l hread))
  update_le := hh.update_le
  unread_update_le j l hl := hh.unread_update_le j l (mem_readStream_unread hl).1
  complete j l hl heq := by
    rcases hh.complete j l hl heq with hread | hunread
    · exact Or.inl (List.mem_append_left _ hread)
    · by_cases hji : j = i
      · exact Or.inl (List.mem_append_right _ (hji ▸ hunread))
      · rw [readStream_unread_of_ne hji]
        exact Or.inr hunread

theorem mem_update_append {f : Fin MAX_GPU_STREAMS → List CudaLaunch} {l' : CudaLaunch} :
    l' ∈ Function.update f i (f i ++ [l]) j ↔ l' ∈ f j ∨ l' = l ∧ j = i := by
  by_cases heq : j = i
  · rw [heq, Function.update_self, List.mem_append, List.mem_singleton]
    simp
  · rw [Function.update_of_ne heq]
    simp [heq]

theorem Ok.launch (hh : h.Ok) (hnumber : l.number = h.launched) (hupdate : l.update = h.update) :
    (h.launch l).Ok where
  read_lt l' hl := Nat.lt_succ_of_lt (hh.read_lt l' hl)
  read_nodup := hh.read_nodup
  unread_lt j l' hl := by
    rcases mem_update_append.mp hl with hl | ⟨rfl, -⟩
    · exact Nat.lt_succ_of_lt (hh.unread_lt j l' hl)
    · exact Nat.lt_succ_of_le (Nat.le_of_eq hnumber)
  unread_stream j l' hl := by
    rcases mem_update_append.mp hl with hl | ⟨rfl, heq⟩
    · exact hh.unread_stream j l' hl
    · exact heq.symm
  unread_nodup j := by
    have hnew : l ∉ h.unread j := by
      intro hl
      have hlt := hh.unread_lt j l hl
      omega
    by_cases heq : j = l.stream
    · have hunread : (h.launch l).unread j = h.unread j ++ [l] := by
        rw [heq]
        exact Function.update_self ..
      rw [hunread]
      refine List.Nodup.append (hh.unread_nodup j) (List.nodup_singleton l) fun l' hl' hl => ?_
      exact hnew (List.mem_singleton.mp hl ▸ hl')
    · have hunread : (h.launch l).unread j = h.unread j := Function.update_of_ne heq ..
      rw [hunread]
      exact hh.unread_nodup j
  unread_not_read j l' hl hread := by
    rcases mem_update_append.mp hl with hl | ⟨rfl, -⟩
    · exact hh.unread_not_read j l' hl hread
    · have hlt := hh.read_lt l' hread
      omega
  update_le j l' hl := by
    rcases mem_update_append.mp hl with hl | ⟨rfl, -⟩
    · exact hh.update_le j l' hl
    · exact Nat.le_of_eq hupdate
  unread_update_le j l' hl := by
    rcases mem_update_append.mp hl with hl | ⟨rfl, -⟩
    · exact hh.unread_update_le j l' hl
    · exact Nat.le_of_eq hupdate
  complete j l' hl heq := by
    rcases mem_update_append.mp hl with hl | ⟨rfl, rfl⟩
    · rcases hh.complete j l' hl heq with hread | hunread
      · exact Or.inl hread
      · exact Or.inr (mem_update_append.mpr (Or.inl hunread))
    · exact Or.inr (mem_update_append.mpr (Or.inr ⟨rfl, rfl⟩))

end LaunchHistory

namespace CudaStreams
variable {kernel : SearchKernel} {s t : CudaStreams} {nonce index : Nat}

/-- What the launches on their way depend on; `buffers` are the result buffers when all launches
will have run. -/
structure View where
  headerHash : H256
  target : Nat
  batchSize : Nat
  m_currentHeader : H256
  m_currentTarget : Nat
  d_header : H256
  update : Nat
  unread : Fin MAX_GPU_STREAMS → List CudaLaunch
  buffers : Fin MAX_GPU_STREAMS → ResultBuffer CudaLaunch

def view (kernel : SearchKernel) (s : CudaStreams) : View where
  headerHash := s.headerHash
  target := s.target
  batchSize := s.batchSize
  m_currentHeader := s.m_currentHeader
  m_currentTarget := s.m_currentTarget
  d_header := s.d_header
  update := s.history.update
  unread := s.history.unread
  buffers := fun i => (s.streams i).finished (runLaunch kernel)

/-- The launches on their way when the loop goes on at `nonce` and `index` launches have been made
for the job: at most the last five, one on each stream, each as many batches back as launches. -/
structure Pipeline (kernel : SearchKernel) (v : View) (index nonce : Nat) : Prop where
  header : v.m_currentHeader = v.headerHash
  target : v.m_currentTarget = v.target
  device : v.d_header = v.headerHash
  slots : ∀ i : Fin MAX_GPU_STREAMS, i < index → ∃ l, v.unread i = [l] ∧
    l.index % MAX_GPU_STREAMS = i ∧ l.index < index ∧ index ≤ l.index + MAX_GPU_STREAMS
  empty : ∀ i : Fin MAX_GPU_STREAMS, index ≤ i → v.unread i = []
  contents : ∀ i, ∃ b : ResultBuffer CudaLaunch, b.Cleared ∧
    v.buffers i = (v.unread i).foldl (runLaunch kernel) b
  headers : ∀ i, ∀ l ∈ v.unread i, l.args.header = v.headerHash
  starts : ∀ i, ∀ l ∈ v.unread i, (kernel l.args).1 ≠ [] →
    (l.args.start + (index - l.index) * v.batchSize) % nonceModulus = nonce % nonceModulus

/-- A job has been taken whose header or target is still to be set. -/
structure Fresh (v : View) : Prop where
  differs : v.m_currentHeader ≠ v.headerHash ∨ v.m_currentTarget ≠ v.target
  device : v.m_currentHeader = v.headerHash → v.d_header = v.headerHash
  unread : ∀ i, ∀ l ∈ v.unread i, l.update ≠ v.update

/-- The header and the target are set and the device is to be synchronized. -/
structure Chosen (v : View) : Prop where
  header : v.m_currentHeader = v.headerHash
  target : v.m_currentTarget = v.target
  device : v.d_header = v.headerHash
  unread : ∀ i, ∀ l ∈ v.unread i, l.update ≠ v.update

/-- What holds where the loop stands. -/
def AtPc (kernel : SearchKernel) (s : CudaStreams) : EthCudaPc → Prop
  | .init | .copyJob | .prepare => s.worker.m_state ≠ .Mining
  | .switch => s.worker.m_state = .Mining →
      Fresh (s.view kernel) ∨ Pipeline kernel (s.view kernel) s.m_currentIndex s.history.next
  | .checkUpdate | .setMining => Fresh (s.view kernel)
  | .reserve =>
      Fresh (s.view kernel) ∨ Pipeline kernel (s.view kernel) s.m_currentIndex s.history.next
  | .synchronize nonce _ => nonce = s.history.next ∧
      (s.mustInitialize = true ∧ s.m_currentIndex = 0 ∧ Chosen (s.view kernel) ∨
        s.mustInitialize = false ∧ Pipeline kernel (s.view kernel) s.m_currentIndex nonce)
  | .batch nonce _ _ | .launch nonce _ => nonce = s.history.next ∧
      Pipeline kernel (s.view kernel) s.m_currentIndex nonce
  | .report nonce _ _ => s.m_currentIndex + 1 < nonceModulus ∧
      Pipeline kernel (s.view kernel) (s.m_currentIndex + 1)
        ((nonce + s.batchSize) % nonceModulus)
  | .giveUp | .returned => True

structure Inv (kernel : SearchKernel) (s : CudaStreams) : Prop where
  history : s.history.Ok
  atPc : s.AtPc kernel s.loop.pc

theorem resultNonce_eq {start gid : Nat}
    (h : (start + MAX_GPU_STREAMS * s.batchSize) % nonceModulus = nonce % nonceModulus) :
    s.resultNonce nonce gid = (start + gid) % nonceModulus := by
  simp only [resultNonce, MAX_GPU_STREAMS, nonceModulus] at h ⊢
  omega

/-- The launch that is read is the one of five launches before. -/
theorem Pipeline.read (hp : Pipeline kernel (s.view kernel) s.m_currentIndex nonce)
    (hreads : s.Reads) :
    ∃ l, s.history.unread s.stream = [l] ∧ l.index + MAX_GPU_STREAMS = s.m_currentIndex := by
  have hlt : (s.stream : Nat) < s.m_currentIndex := Nat.lt_of_lt_of_le s.stream.isLt hreads
  obtain ⟨l, hl, hmod, hbefore, hnear⟩ := hp.slots s.stream hlt
  refine ⟨l, hl, ?_⟩
  have hstream : (s.stream : Nat) = s.m_currentIndex % MAX_GPU_STREAMS := rfl
  unfold MAX_GPU_STREAMS at *
  omega

/-- A stream that is not read has not been used since its counter was cleared. -/
theorem Pipeline.unread_of_not_reads
    (hp : Pipeline kernel (s.view kernel) s.m_currentIndex nonce) (hreads : ¬ s.Reads) :
    s.history.unread s.stream = [] := by
  apply hp.empty
  have hstream : (s.stream : Nat) = s.m_currentIndex % MAX_GPU_STREAMS := rfl
  rw [hstream, Nat.mod_eq_of_lt (Nat.not_le.mp hreads)]

theorem Pipeline.index_lt {v : View} (hp : Pipeline kernel v index nonce) {i : Fin MAX_GPU_STREAMS}
    {l : CudaLaunch} (hl : l ∈ v.unread i) : l.index < index := by
  by_cases hi : (i : Nat) < index
  · obtain ⟨l', hl', -, hbefore, -⟩ := hp.slots i hi
    rw [hl', List.mem_singleton] at hl
    rw [hl]
    exact hbefore
  · rw [hp.empty i (Nat.not_lt.mp hi)] at hl
    cases hl

theorem Pipeline.written (hp : Pipeline kernel (s.view kernel) s.m_currentIndex nonce) :
    ∀ e ∈ s.entries kernel, ∃ l, ∃ thread ∈ (kernel l.args).1,
      e = (thread % quint32Modulus, some (l, thread)) ∧
        s.resultNonce nonce e.1 = (l.args.start + e.1) % nonceModulus ∧
        l.args.header = s.headerHash := by
  intro e he
  unfold entries at he
  split at he
  case isFalse => cases he
  case isTrue hreads =>
    obtain ⟨l, hl, hindex⟩ := hp.read hreads
    have hmem : l ∈ s.history.unread s.stream := by
      rw [hl]
      exact List.mem_singleton.mpr rfl
    obtain ⟨b, hb, hcontents⟩ := hp.contents s.stream
    have hbuffer : s.buffer kernel = (s.history.unread s.stream).foldl (runLaunch kernel) b :=
      hcontents
    rw [hbuffer, hl] at he
    obtain ⟨thread, hthread, heq⟩ := ResultBuffer.mem_entries hb (kernel l.args).2 he
    refine ⟨l, thread, hthread, heq, resultNonce_eq ?_, hp.headers _ l hmem⟩
    have hstart := hp.starts _ l hmem (List.ne_nil_of_mem hthread)
    rw [← hindex, Nat.add_sub_cancel_left] at hstart
    exact hstart

theorem ok_readHistory (hok : s.history.Ok) : s.readHistory.Ok := by
  unfold readHistory
  split
  · exact hok.readStream s.stream
  · exact hok

theorem Inv.attributed (hs : s.Inv kernel) {lastNonce : Nat}
    (hpc : s.loop.pc = .launch nonce lastNonce) : s.Attributed kernel nonce := by
  have hat := hs.atPc
  rw [hpc] at hat
  obtain ⟨-, hp⟩ := hat
  refine ⟨hp.written, ?_, ?_⟩
  · exact (ok_readHistory hs.history).read_nodup
  · intro l hl heq
    unfold readHistory
    split
    case isTrue =>
      exact List.mem_append.mpr (hs.history.complete s.stream l hl heq)
    case isFalse hreads =>
      have hempty := hp.unread_of_not_reads hreads
      refine (hs.history.complete s.stream l hl heq).resolve_right fun hunread => ?_
      rw [hempty] at hunread
      cases hunread

theorem readHistory_counts : s.readHistory.launched = s.history.launched ∧
    s.readHistory.update = s.history.update := by
  unfold readHistory
  split <;> exact ⟨rfl, rfl⟩

theorem Pipeline.readHistory_unread
    (hp : Pipeline kernel (s.view kernel) s.m_currentIndex nonce) :
    s.readHistory.unread s.stream = [] := by
  unfold readHistory
  split
  case isTrue => exact LaunchHistory.readStream_unread_self
  case isFalse hreads => exact hp.unread_of_not_reads hreads

theorem readHistory_unread_of_ne {i : Fin MAX_GPU_STREAMS} (hne : i ≠ s.stream) :
    s.readHistory.unread i = s.history.unread i := by
  unfold readHistory
  split
  · exact LaunchHistory.readStream_unread_of_ne hne
  · rfl

theorem Pipeline.cleared_readStream
    (hp : Pipeline kernel (s.view kernel) s.m_currentIndex nonce) :
    ((s.readStream kernel).finished (runLaunch kernel)).Cleared := by
  unfold readStream
  split
  case isTrue =>
    simp only [CommandQueue.finished_idle]
    split
    case isTrue hzero => exact hzero
    case isFalse => exact ResultBuffer.cleared_clear
  case isFalse hreads =>
    obtain ⟨b, hb, hcontents⟩ := hp.contents s.stream
    have hbuffer : (s.streams s.stream).finished (runLaunch kernel) =
        (s.history.unread s.stream).foldl (runLaunch kernel) b := hcontents
    rw [hbuffer, hp.unread_of_not_reads hreads]
    exact hb

theorem Pipeline.unread_launch (hp : Pipeline kernel (s.view kernel) s.m_currentIndex nonce) :
    ((s.launch kernel nonce).view kernel).unread s.stream = [s.newLaunch nonce] := by
  have hself : (s.launch kernel nonce).history.unread s.stream =
      s.readHistory.unread s.stream ++ [s.newLaunch nonce] := Function.update_self ..
  rw [hp.readHistory_unread, List.nil_append] at hself
  exact hself

theorem unread_launch_of_ne {i : Fin MAX_GPU_STREAMS} (hne : i ≠ s.stream) :
    ((s.launch kernel nonce).view kernel).unread i = (s.view kernel).unread i := by
  have hother : (s.launch kernel nonce).history.unread i = s.readHistory.unread i :=
    Function.update_of_ne hne ..
  exact hother.trans (readHistory_unread_of_ne hne)

theorem buffers_launch : ((s.launch kernel nonce).view kernel).buffers s.stream =
    runLaunch kernel ((s.readStream kernel).finished (runLaunch kernel)) (s.newLaunch nonce) := by
  have hself : (s.launch kernel nonce).streams s.stream =
      (s.readStream kernel).enqueue (s.newLaunch nonce) := Function.update_self ..
  exact (congrArg (CommandQueue.finished (runLaunch kernel)) hself).trans
    (CommandQueue.finished_enqueue _)

theorem buffers_launch_of_ne {i : Fin MAX_GPU_STREAMS} (hne : i ≠ s.stream) :
    ((s.launch kernel nonce).view kernel).buffers i = (s.view kernel).buffers i := by
  have hother : (s.launch kernel nonce).streams i = s.streams i := Function.update_of_ne hne ..
  exact congrArg (CommandQueue.finished (runLaunch kernel)) hother

theorem Pipeline.mem_unread_launch
    (hp : Pipeline kernel (s.view kernel) s.m_currentIndex nonce) {i : Fin MAX_GPU_STREAMS}
    {l : CudaLaunch} (hl : l ∈ ((s.launch kernel nonce).view kernel).unread i) :
    l = s.newLaunch nonce ∨ l ∈ (s.view kernel).unread i ∧ l.index < s.m_currentIndex := by
  by_cases heq : i = s.stream
  · rw [heq, hp.unread_launch] at hl
    exact Or.inl (List.mem_singleton.mp hl)
  · rw [unread_launch_of_ne heq] at hl
    exact Or.inr ⟨hl, hp.index_lt hl⟩

/-- The results are read and the stream gets the next launch. Those on the other streams are then
one launch and one batch farther back. -/
theorem Pipeline.launch (hp : Pipeline kernel (s.view kernel) s.m_currentIndex nonce) :
    Pipeline kernel ((s.launch kernel nonce).view kernel) (s.m_currentIndex + 1)
      ((nonce + s.batchSize) % nonceModulus) where
  header := hp.header
  target := hp.target
  device := hp.device
  slots := by
    intro i hi
    have hstream : (s.stream : Nat) = s.m_currentIndex % MAX_GPU_STREAMS := rfl
    by_cases heq : i = s.stream
    · refine ⟨s.newLaunch nonce, ?_, ?_, Nat.lt_succ_self _,
        Nat.add_le_add_left (show 1 ≤ MAX_GPU_STREAMS by decide) _⟩
      · rw [heq]
        exact hp.unread_launch
      · rw [heq]
        rfl
    · have hne : (i : Nat) ≠ s.m_currentIndex % MAX_GPU_STREAMS := fun h => heq (Fin.ext h)
      have hlt : (i : Nat) < s.m_currentIndex := by
        have hsmall := i.isLt
        unfold MAX_GPU_STREAMS at *
        omega
      obtain ⟨l, hl, hmod, hbefore, hnear⟩ := hp.slots i hlt
      refine ⟨l, (unread_launch_of_ne heq).trans hl, hmod, Nat.lt_succ_of_lt hbefore, ?_⟩
      unfold MAX_GPU_STREAMS at *
      omega
  empty := by
    intro i hi
    have hne : i ≠ s.stream := by
      intro heq
      have hle : (s.stream : Nat) ≤ s.m_currentIndex := Nat.mod_le _ _
      rw [heq] at hi
      omega
    rw [unread_launch_of_ne hne]
    exact hp.empty i (Nat.le_of_succ_le hi)
  contents := by
    intro i
    by_cases heq : i = s.stream
    · refine ⟨_, hp.cleared_readStream, ?_⟩
      rw [heq, buffers_launch, hp.unread_launch]
      rfl
    · rw [buffers_launch_of_ne heq, unread_launch_of_ne heq]
      exact hp.contents i
  headers := by
    intro i l hl
    rcases hp.mem_unread_launch hl with rfl | ⟨hl, -⟩
    · exact hp.device
    · exact hp.headers i l hl
  starts := by
    intro i l hl hhits
    rw [Nat.mod_mod]
    rcases hp.mem_unread_launch hl with rfl | ⟨hl, hlt⟩
    · have hone : s.m_currentIndex + 1 - s.m_currentIndex = 1 := Nat.add_sub_cancel_left _ _
      change (nonce + (s.m_currentIndex + 1 - s.m_currentIndex) * s.batchSize) % nonceModulus = _
      rw [hone, Nat.one_mul]
    · have hstart := hp.starts i l hl hhits
      change (l.args.start + (s.m_currentIndex + 1 - l.index) * s.batchSize) % nonceModulus = _
      rw [Nat.succ_sub (Nat.le_of_lt hlt), Nat.succ_mul, ← Nat.add_assoc, Nat.add_mod,
        Nat.add_mod nonce]
      exact congrArg (fun m => (m + s.batchSize % nonceModulus) % nonceModulus) hstart

theorem fresh_prepared {fresh : Fin MAX_GPU_STREAMS → Nat → Nat} (hok : s.history.Ok)
    (htakes : s.Takes) : Fresh ((s.prepared fresh).view kernel) where
  differs := by
    change s.m_currentHeader.clearWord ≠ s.headerHash ∨ 0 ≠ s.target
    by_cases heq : s.headerHash = s.m_currentHeader.clearWord
    · exact Or.inr (htakes.changed heq).2.symm
    · exact Or.inl fun h => heq h.symm
  device heq := (htakes.changed (Eq.symm heq)).1
  unread := by
    change ∀ i, ∀ l ∈ (s.prepared fresh).history.unread i,
      l.update ≠ (s.prepared fresh).history.update
    unfold prepared
    simp only
    split
    case isTrue hseed => exact hok.accept_update_ne (htakes.fresh hseed)
    case isFalse => simp [LaunchHistory.renew]

theorem ok_prepared {fresh : Fin MAX_GPU_STREAMS → Nat → Nat} (hok : s.history.Ok) :
    (s.prepared fresh).history.Ok := by
  unfold prepared
  simp only
  split
  · exact hok.accept
  · exact hok.accept.renew

theorem Fresh.mustInitialize (hf : Fresh (s.view kernel)) (nonce : Nat) :
    (s.beginPass nonce).mustInitialize = true := decide_eq_true hf.differs

theorem Fresh.beginPass (hf : Fresh (s.view kernel)) (nonce : Nat) :
    (s.beginPass nonce).m_currentIndex = 0 ∧ Chosen ((s.beginPass nonce).view kernel) := by
  constructor
  · have hmust : (s.beginPass nonce).m_currentIndex =
        if (s.beginPass nonce).mustInitialize then 0 else s.m_currentIndex := rfl
    rw [hmust, hf.mustInitialize nonce]
    rfl
  · refine ⟨rfl, rfl, ?_, hf.unread⟩
    change (if s.m_currentHeader ≠ s.headerHash then s.headerHash else s.d_header) = s.headerHash
    split
    case isTrue => rfl
    case isFalse hsame => exact hf.device (not_not.mp hsame)

theorem Pipeline.mustInitialize {next : Nat} (hp : Pipeline kernel (s.view kernel) index next)
    (nonce : Nat) :
    (s.beginPass nonce).mustInitialize = false := by
  apply decide_eq_false
  rintro (h | h)
  · exact h hp.header
  · exact h hp.target

theorem Pipeline.beginPass (hp : Pipeline kernel (s.view kernel) s.m_currentIndex s.history.next)
    (hnext : s.Continues kernel nonce) :
    Pipeline kernel ((s.beginPass nonce).view kernel) (s.beginPass nonce).m_currentIndex nonce := by
  have hindex : (s.beginPass nonce).m_currentIndex = s.m_currentIndex := by
    have hmust : (s.beginPass nonce).m_currentIndex =
        if (s.beginPass nonce).mustInitialize then 0 else s.m_currentIndex := rfl
    rw [hmust, hp.mustInitialize nonce]
    rfl
  rw [hindex]
  refine ⟨rfl, rfl, ?_, hp.slots, hp.empty, hp.contents, hp.headers, ?_⟩
  · have hsame : s.m_currentHeader = s.headerHash := hp.header
    change (if s.m_currentHeader ≠ s.headerHash then s.headerHash else s.d_header) = s.headerHash
    rw [if_neg (not_not.mpr hsame)]
    exact hp.device
  · intro i l hl hhits
    rcases hnext with rfl | hnone
    · exact hp.starts i l hl hhits
    · exact absurd (hnone i l hl) hhits

theorem Chosen.synchronized (hc : Chosen (s.view kernel)) (hindex : s.m_currentIndex = 0) :
    Pipeline kernel ((s.synchronized kernel).view kernel) s.m_currentIndex nonce where
  header := hc.header
  target := hc.target
  device := hc.device
  slots i hi := absurd (hindex ▸ hi : (i : Nat) < 0) (Nat.not_lt_zero _)
  empty _ _ := rfl
  contents _ := ⟨_, ResultBuffer.cleared_clear, rfl⟩
  headers _ _ hl := by cases hl
  starts _ _ hl := by cases hl

theorem view_device {i : Fin MAX_GPU_STREAMS} {q : CudaStream}
    (hq : (s.streams i).advance (runLaunch kernel) = some q) :
    ({ s with streams := Function.update s.streams i q } : CudaStreams).view kernel =
      s.view kernel := by
  have hbuffers : (fun j => (Function.update s.streams i q j).finished (runLaunch kernel)) =
      fun j => (s.streams j).finished (runLaunch kernel) := by
    funext j
    by_cases heq : j = i
    · rw [heq, Function.update_self, CommandQueue.finished_advance hq]
    · rw [Function.update_of_ne heq]
  unfold view
  simp only [hbuffers]
  rfl

variable {ethEval : MiningJob → Nat → Option QByteArray} {nonceCtl : NonceCtl} {outcome : Outcome}
  {fresh : Fin MAX_GPU_STREAMS → Nat → Nat} {e : Event} {es : List Event}

/-- The step of the loop and what it makes of the device. -/
theorem step_loop (h : step kernel ethEval s (.loop nonceCtl outcome fresh) = some t) :
    ∃ r, s.loop.step ethEval (s.shared nonceCtl)
        ⟨false, s.outcomeAt outcome, 0, s.nonces.head?, 0⟩ = some r ∧
      t = { s.deviceStep kernel nonceCtl (s.outcomeAt outcome) fresh with
        worker := { s.worker with m_state := r.m_state }
        loop := r.loop } := by
  obtain ⟨r, hr, rfl⟩ := Option.map_eq_some_iff.mp h
  exact ⟨r, hr, rfl⟩

theorem AtPc.loop (hok : s.history.Ok) (hs : s.AtPc kernel s.loop.pc)
    (hguard : s.Guard kernel (.loop nonceCtl outcome fresh))
    (h : step kernel ethEval s (.loop nonceCtl outcome fresh) = some t) :
    t.AtPc kernel t.loop.pc := by
  obtain ⟨r, hr, rfl⟩ := step_loop h
  obtain ⟨⟨m_state, m_job, m_feeJob⟩, ⟨pc, job, gridSize, blockSize⟩, lastSeedHash, header, target,
    index, d_header, d_target, streams, mustInitialize, nonces, history⟩ := s
  cases pc with
  | returned => cases hr
  | init =>
    simp only [EthCuda.step] at hr
    split at hr
    case isTrue =>
      cases hr
      exact fun hm => absurd hm hs
    case isFalse =>
      cases hr
      trivial
  | switch =>
    simp only [EthCuda.step, shared] at hr
    cases m_state with
    | UpdateJob =>
      cases hr
      exact fun hm => by cases hm
    | Mining =>
      cases hr
      exact hs rfl
    | Exit | Stopping =>
      cases hr
      trivial
  | copyJob =>
    simp only [EthCuda.step] at hr
    split at hr
    case isTrue =>
      cases hr
      exact fun hm => absurd hm hs
    case isFalse =>
      cases hr
      exact hs
  | prepare =>
    simp only [EthCuda.step, outcomeAt] at hr
    cases outcome with
    | ok =>
      cases hr
      exact fresh_prepared hok (hguard rfl)
    | retry =>
      cases hr
      exact fun hm => absurd hm hs
    | fail | incapable =>
      cases hr
      trivial
  | giveUp =>
    cases hr
    trivial
  | checkUpdate =>
    simp only [EthCuda.step] at hr
    split at hr
    case isTrue =>
      cases hr
      exact hs
    case isFalse =>
      cases hr
      exact fun _ => Or.inl hs
  | setMining =>
    cases hr
    exact fun _ => Or.inl hs
  | reserve =>
    cases hr
    refine ⟨rfl, ?_⟩
    rcases hs with hfresh | hp
    · left
      exact ⟨hfresh.mustInitialize (firstNonce nonceCtl), hfresh.beginPass (firstNonce nonceCtl)⟩
    · right
      have hmust := hp.mustInitialize (firstNonce nonceCtl)
      exact ⟨hmust, hp.beginPass (hguard hmust)⟩
  | synchronize nonce lastNonce =>
    obtain ⟨hnext, ⟨hmust, hindex, hchosen⟩ | ⟨hmust, hp⟩⟩ := hs
    · have hmust : mustInitialize = true := hmust
      subst hmust
      simp only [EthCuda.step, outcomeAt, if_true] at hr
      cases outcome with
      | ok =>
        cases hr
        exact ⟨hnext, hchosen.synchronized hindex⟩
      | retry | fail | incapable =>
        cases hr
        trivial
    · have hmust : mustInitialize = false := hmust
      subst hmust
      cases hr
      exact ⟨hnext, hp⟩
  | batch nonce lastNonce exit =>
    simp only [EthCuda.step] at hr
    obtain ⟨hnext, hp⟩ := hs
    split at hr
    case isTrue =>
      cases hr
      exact ⟨hnext, hp⟩
    case isFalse =>
      cases hr
      intro _
      exact Or.inr (hnext ▸ hp)
  | launch nonce lastNonce =>
    obtain ⟨-, hp⟩ := hs
    simp only [EthCuda.step, outcomeAt] at hr
    cases outcome with
    | ok =>
      cases hr
      exact ⟨hguard, hp.launch⟩
    | retry | fail | incapable =>
      cases hr
      trivial
  | report nonce lastNonce exit =>
    obtain ⟨hlt, hp⟩ := hs
    cases nonces with
    | nil =>
      cases hr
      refine ⟨rfl, ?_⟩
      change Pipeline kernel _ ((index + 1) % nonceModulus) _
      rw [Nat.mod_eq_of_lt hlt]
      exact hp
    | cons found nonces =>
      simp only [EthCuda.step, List.head?_cons] at hr
      split at hr <;> cases hr <;> exact ⟨hlt, hp⟩

theorem Inv.loop (hs : s.Inv kernel) (hguard : s.Guard kernel (.loop nonceCtl outcome fresh))
    (h : step kernel ethEval s (.loop nonceCtl outcome fresh) = some t) : t.Inv kernel := by
  refine ⟨?_, hs.atPc.loop hs.history hguard h⟩
  have hat := hs.atPc
  obtain ⟨r, -, rfl⟩ := step_loop h
  change (s.deviceStep kernel nonceCtl (s.outcomeAt outcome) fresh).history.Ok
  unfold deviceStep
  split
  · split
    · exact ok_prepared hs.history
    · exact hs.history
  · exact hs.history.setNext _
  case h_3 nonce lastNonce hpc =>
    rw [hpc] at hat
    split
    case isTrue hmust =>
      rcases hat.2 with ⟨-, -, hchosen⟩ | ⟨hnot, -⟩
      · exact hs.history.drop hchosen.unread
      · rw [hnot] at hmust
        cases hmust.1
    case isFalse => exact hs.history
  case h_4 nonce lastNonce hpc =>
    split
    case isTrue =>
      obtain ⟨hlaunched, hupdate⟩ := readHistory_counts
      exact (ok_readHistory hs.history).launch hlaunched.symm hupdate.symm
    case isFalse => exact hs.history
  case h_5 nonce lastNonce exit hpc =>
    unfold report
    split
    · exact hs.history
    · exact hs.history.setNext _
  case h_6 => exact hs.history

theorem AtPc.setState {m_state : MinerThreadState} (hne : m_state ≠ .Mining) {pc : EthCudaPc}
    (hs : s.AtPc kernel pc) : (s.setState m_state).AtPc kernel pc := by
  cases pc with
  | init | copyJob | prepare => exact hne
  | switch => exact fun hm => absurd hm hne
  | _ => exact hs

theorem AtPc.device {i : Fin MAX_GPU_STREAMS} {q : CudaStream} {pc : EthCudaPc}
    (hq : (s.streams i).advance (runLaunch kernel) = some q) (hs : s.AtPc kernel pc) :
    AtPc kernel { s with streams := Function.update s.streams i q } pc := by
  cases pc <;> simp only [AtPc, view_device hq] at hs ⊢ <;> exact hs

theorem Inv.step (hs : s.Inv kernel) (hguard : s.Guard kernel e)
    (h : step kernel ethEval s e = some t) : t.Inv kernel := by
  cases e with
  | storeJob job =>
    cases h
    exact ⟨hs.history, hs.atPc⟩
  | updateJob =>
    obtain ⟨-, h⟩ := Option.ite_none_left_eq_some.mp h
    cases h
    exact ⟨hs.history, hs.atPc.setState (by decide)⟩
  | stop =>
    cases h
    exact ⟨hs.history, hs.atPc.setState (by decide)⟩
  | device i =>
    obtain ⟨q, hq, rfl⟩ := Option.map_eq_some_iff.mp h
    exact ⟨hs.history, hs.atPc.device hq⟩
  | loop nonceCtl outcome fresh => exact hs.loop hguard h

theorem Initial.inv (h : s.Initial) : s.Inv kernel := by
  obtain ⟨gridSize, blockSize, hloop⟩ := h.loop
  constructor
  · rw [h.history]
    exact LaunchHistory.ok_new
  · rw [hloop]
    exact h.state

/-- In a run whose steps all meet the guard, everything that is read before a launch is attributed
to the launch that wrote it and to its job. -/
theorem results_attributed (kernel : SearchKernel)
    (ethEval : MiningJob → Nat → Option QByteArray) (s : CudaStreams) (es : List Event)
    (h0 : s.Initial) (hguard : Along (step kernel ethEval) (Guard kernel) s es) :
    Along (step kernel ethEval) (fun s e => s.Attributes kernel e) s es := by
  refine Along.of_invariant (fun s e t hs hguard h => Inv.step hs hguard h) ?_ h0.inv hguard
  intro s e hs _
  cases e with
  | loop nonceCtl outcome fresh =>
    simp only [Attributes]
    split
    case h_1 nonce lastNonce hpc => exact hs.attributed hpc
    case h_2 => trivial
  | _ => trivial

/-- The first two nonces have hits. -/
def twoHits : SearchKernel := fun args =>
  if args.start < 2 then ⟨[0], List.nodup_singleton 0⟩
  else ⟨[], List.nodup_nil⟩

def begun : CudaStreams where
  worker := ⟨.UpdateJob, ⟨.replicate 32 1, .replicate 32 2, .replicate 32 3⟩, .empty⟩
  loop := .new 1 1
  lastSeedHash := []
  m_currentHeader := .ofNat 0
  m_currentTarget := 0
  m_currentIndex := 0
  d_header := .ofNat 0
  d_target := 0
  streams := fun _ => .idle ⟨fun _ => 0, fun _ => none⟩
  mustInitialize := false
  nonces := []
  history := .new

theorem begun_initial : begun.Initial := ⟨⟨1, 1, rfl⟩, by decide, rfl, rfl⟩

/-- A step of the loop in which every call succeeds. -/
def loopStep (nonceCtl : NonceCtl) : Event := .loop nonceCtl .ok fun _ _ => 7

/-- The loop takes its job and makes five launches. -/
def fiveLaunches : List Event := List.replicate 25 (loopStep .new)

/-- The sixth launch reads a hit, so that the loop takes another range. -/
def nextRange : List Event :=
  List.replicate 3 (loopStep .new) ++ List.replicate 5 (loopStep ⟨1000000000, false⟩)

theorem results_attributed_first :
    Along (step twoHits fun _ _ => none) (fun s e => s.Attributes twoHits e) begun
        (fiveLaunches ++ [loopStep .new]) ∧
      (exec (step twoHits fun _ _ => none) begun fiveLaunches).map
        (fun s => (s.loop.pc, (s.entries twoHits).map fun e => s.resultNonce 5 e.1)) =
        some (.launch 5 1000000000, [0]) :=
  ⟨results_attributed twoHits (fun _ _ => none) begun _ begun_initial (by decide +kernel),
    by decide +kernel⟩

/-- After a hit the next range begins elsewhere, and the hit of the second launch, at nonce 1, is
taken for one five batches before the new range. -/
theorem second_hit_is_displaced :
    ¬ ∀ (kernel : SearchKernel) (ethEval : MiningJob → Nat → Option QByteArray)
      (s : CudaStreams) (es : List Event), s.Initial →
        Along (step kernel ethEval) (fun s e => s.Attributes kernel e) s es := by
  intro h
  have hrun := along_iff_prefix.mp (h twoHits (fun _ _ => none) begun
    (fiveLaunches ++ nextRange ++ [loopStep .new]) begun_initial) (fiveLaunches ++ nextRange)
    (loopStep .new) (List.prefix_refl _)
  have hstate : (exec (step twoHits fun _ _ => none) begun (fiveLaunches ++ nextRange)).map
      (fun s => (s.loop.pc, (s.entries twoHits).map fun e =>
        (s.resultNonce 1000000000 e.1, e.2.map fun w => (w.1.args.start + e.1) % nonceModulus))) =
      some (.launch 1000000000 2000000000, [(999999995, some 1)]) := by
    decide +kernel
  obtain ⟨s, hs, heq⟩ := Option.map_eq_some_iff.mp hstate
  obtain ⟨hpc, hentries⟩ := Prod.mk.inj heq
  have hattributes := hrun s hs
  simp only [Attributes, loopStep, hpc] at hattributes
  obtain ⟨e, he, hvalue⟩ := List.map_eq_singleton_iff.mp hentries
  obtain ⟨l, thread, -, rfl, hnonce, -⟩ := hattributes.written e (he ▸ List.mem_singleton.mpr rfl)
  rw [hnonce] at hvalue
  obtain ⟨hbase, hstart⟩ := Prod.mk.inj hvalue
  rw [Option.map_some, hbase] at hstart
  exact absurd hstart (by decide)

end CudaStreams
end MinerGate
