import MinerGate.Lib.PrefixWrites
import MinerGate.Lib.Transition
import MinerGate.Qt.Bytes

/-!
# The DAG file

`ethash_full_new_internal` prepares the file of a seed hash: it makes a file of the full size,
computes the DAG, and marks the file with a magic number, by which a later run knows that it need
not be computed again. A run can stop at any of its calls.
-/

namespace MinerGate.DagFile

set_option autoImplicit false

open PrefixWrites Transition

/-- The bytes of `ETHASH_DAG_MAGIC_NUM` on disk. -/
def magicBytes : QByteArray := [0xFE, 0xCA, 0xDD, 0xBA, 0xAD, 0xDE, 0xE1, 0xFE]

inductive EthashIoRc where
  | FAIL
  | MEMO_MATCH
  | MEMO_SIZE_MISMATCH
  | MEMO_MISMATCH
deriving DecidableEq, Repr

/-- Which calls of `ethash_io_prepare` succeed; `onDisk` is whether the last byte of the new file is
there although it could not be flushed. A process that stops in a call leaves the file as the call
does when it fails. -/
structure PrepareCalls where
  mkdir : Bool
  createFilename : Bool
  openExisting : Bool
  fileSize : Bool
  readMagic : Bool
  create : Bool
  seek : Bool
  putc : Bool
  flush : Bool
  onDisk : Bool
deriving DecidableEq, Repr

section File
variable (dag : QByteArray)

/-- The new file: zeros as far as the last byte, which is a line feed. -/
def newFile : QByteArray := List.replicate (dag.length + 7) 0 ++ [10]

/-- The check of a file that could be opened; sizes have 64 bits. -/
def checkFile (calls : PrepareCalls) (found : QByteArray) : EthashIoRc :=
  if ¬ calls.fileSize then .FAIL
  else if UInt64.ofNat dag.length ≠ UInt64.ofNat found.length - 8 then .MEMO_SIZE_MISMATCH
  else if ¬ calls.readMagic ∨ found.length < magicBytes.length then .MEMO_SIZE_MISMATCH
  else if found.take magicBytes.length ≠ magicBytes then .MEMO_SIZE_MISMATCH
  else .MEMO_MATCH

/-- The part behind the label `file does not exist`, with the file that it leaves. -/
def createFile (calls : PrepareCalls) (file : Option QByteArray) :
    EthashIoRc × Option QByteArray :=
  if ¬ calls.create then (.FAIL, file)
  else if ¬ calls.seek ∨ ¬ calls.putc then (.FAIL, some [])
  else if ¬ calls.flush then (.FAIL, some (if calls.onDisk then newFile dag else []))
  else (.MEMO_MISMATCH, some (newFile dag))

def ethash_io_prepare (calls : PrepareCalls) (force_create : Bool) (file : Option QByteArray) :
    EthashIoRc × Option QByteArray :=
  if ¬ calls.mkdir ∨ ¬ calls.createFilename then (.FAIL, file)
  else if force_create ∨ ¬ calls.openExisting then createFile dag calls file
  else
    match file with
    | none => createFile dag calls file
    | some found => (checkFile dag calls found, file)

end File

/-- Where a run of `ethash_full_new_internal` is; the call that stands next. -/
inductive Pc where
  | idle
  | prepare
  | recreate
  | load
  | compute
  | writeMagic
  | writeData
  | flush
deriving DecidableEq, Repr

structure DagRun where
  file : Option QByteArray
  dagInMemory : Bool
  pc : Pc
deriving DecidableEq, Repr

inductive Event where
  | begin (dagInMemory : Bool)
  | prepare (calls : PrepareCalls)
  | next
  /-- The call fails or the process stops in it: `onDisk` bytes of what was given to `fwrite` are in
  the file, and `mapped` in its mapping. -/
  | stop (onDisk : Nat) (mapped : QByteArray)
deriving DecidableEq, Repr

section Steps
variable (dag : QByteArray) (s : DagRun)

/-- The file with other data behind the magic number; its size is the same. -/
def withData (data file : QByteArray) : QByteArray :=
  file.take magicBytes.length ++ overwrite (file.drop magicBytes.length) data
    (file.length - magicBytes.length)

/-- What has been given to `fwrite` when the call at the counter is made. -/
def given : QByteArray :=
  match s.pc with
  | .writeMagic => magicBytes
  | .writeData => magicBytes ++ dag
  | .flush => if s.dagInMemory then magicBytes ++ dag else magicBytes
  | _ => []

/-- The number of bytes on disk when a run ends with `onDisk` bytes of what was given. -/
def written (onDisk : Nat) : Nat := min onDisk (given dag s).length

/-- The file that a run leaves when it ends in a call. -/
def left (onDisk : Nat) (mapped : QByteArray) : Option QByteArray :=
  s.file.map fun file =>
    match s.pc with
    | .compute => if s.dagInMemory then file else withData mapped file
    | _ => overwrite file (given dag s) onDisk

/-- After `ethash_io_prepare`: a match is used, a mismatch of the size is tried once more. -/
def afterPrepare (r : EthashIoRc × Option QByteArray) : DagRun :=
  match r.1 with
  | .FAIL | .MEMO_MATCH => { s with file := r.2, pc := .idle }
  | .MEMO_SIZE_MISMATCH => { s with file := r.2, pc := .recreate }
  | .MEMO_MISMATCH => { s with file := r.2, pc := .load }

def afterRecreate (r : EthashIoRc × Option QByteArray) : DagRun :=
  { s with file := r.2, pc := if r.1 = .MEMO_MISMATCH then .load else .idle }

def step : Event → Option DagRun
  | .begin dagInMemory =>
    if s.pc = .idle then some { s with dagInMemory := dagInMemory, pc := .prepare } else none
  | .prepare calls =>
    match s.pc with
    | .prepare => some (afterPrepare s (ethash_io_prepare dag calls false s.file))
    | .recreate => some (afterRecreate s (ethash_io_prepare dag calls true s.file))
    | _ => none
  | .next =>
    match s.pc with
    | .load => some { s with pc := .compute }
    | .compute =>
      if s.dagInMemory then some { s with pc := .writeMagic }
      else some { s with file := s.file.map (withData dag), pc := .writeMagic }
    | .writeMagic => some { s with pc := if s.dagInMemory then .writeData else .flush }
    | .writeData => some { s with pc := .flush }
    | .flush => some { s with file := left dag s (given dag s).length [], pc := .idle }
    | _ => none
  | .stop onDisk mapped =>
    if s.pc = .idle then none else some { s with file := left dag s onDisk mapped, pc := .idle }

end Steps

section Marks
variable (dag : QByteArray)

/-- `ethash_io_prepare` can return that the file matches. -/
def Trusted (file : Option QByteArray) : Prop :=
  ∃ calls, (ethash_io_prepare dag calls false file).1 = .MEMO_MATCH

def Complete (file : Option QByteArray) : Prop :=
  ∃ bytes ∈ file, bytes.drop magicBytes.length = dag

def Sound (file : Option QByteArray) : Prop := Trusted dag file → Complete dag file

variable {dag} {bytes : QByteArray} {file : Option QByteArray} {calls : PrepareCalls}

theorem createFile_ne_match : (createFile dag calls file).1 ≠ .MEMO_MATCH := by
  intro h
  rw [createFile] at h
  split at h
  · cases h
  split at h
  · cases h
  split at h
  · cases h
  · cases h

theorem checkFile_match (h : checkFile dag calls bytes = .MEMO_MATCH) :
    UInt64.ofNat dag.length = UInt64.ofNat bytes.length - 8 ∧
      bytes.take magicBytes.length = magicBytes := by
  rw [checkFile] at h
  split at h
  · cases h
  split at h
  · cases h
  case isFalse hsize =>
    split at h
    · cases h
    split at h
    · cases h
    case isFalse hmagic => exact ⟨not_not.mp hsize, not_not.mp hmagic⟩

theorem trusted_iff : Trusted dag file ↔ ∃ bytes ∈ file,
    UInt64.ofNat dag.length = UInt64.ofNat bytes.length - 8 ∧
      bytes.take magicBytes.length = magicBytes := by
  constructor
  · intro ⟨calls, h⟩
    unfold ethash_io_prepare at h
    split at h
    · cases h
    split at h
    · exact absurd h createFile_ne_match
    cases file with
    | none => exact absurd h createFile_ne_match
    | some bytes => exact ⟨bytes, rfl, checkFile_match h⟩
  · intro ⟨bytes, hbytes, hsize, hmagic⟩
    cases hbytes
    refine ⟨⟨true, true, true, true, true, true, true, true, true, true⟩, ?_⟩
    have hlength : ¬ bytes.length < magicBytes.length := by
      intro hlt
      have hshort := congrArg List.length hmagic
      rw [List.length_take] at hshort
      omega
    simp [ethash_io_prepare, checkFile, hsize, hmagic, hlength]

theorem not_trusted_none : ¬ Trusted dag none := by
  rw [trusted_iff]
  intro ⟨bytes, h, _⟩
  cases h

/-- The last byte of the magic number is not there. -/
theorem not_trusted_of_getElem? (h : bytes[7]? ≠ some 0xFE) : ¬ Trusted dag (some bytes) := by
  rw [trusted_iff]
  intro ⟨_, hbytes, _, hmagic⟩
  cases hbytes
  apply h
  have hlast := congrArg (fun l : List UInt8 => l[7]?) hmagic
  rw [List.getElem?_take_of_lt (by decide)] at hlast
  exact hlast

theorem length_newFile : (newFile dag).length = magicBytes.length + dag.length := by
  simp [newFile, magicBytes]
  omega

theorem getElem?_newFile : (newFile dag)[7]? ≠ some 0xFE := by
  rw [newFile, List.getElem?_append]
  split
  case isTrue h =>
    rw [List.getElem?_replicate]
    split <;> decide
  case isFalse h =>
    rw [List.length_replicate] at h ⊢
    have hzero : 7 - (dag.length + 7) = 0 := by omega
    rw [hzero]
    decide

theorem sound_newFile : Sound dag (some (newFile dag)) := fun h =>
  absurd h (not_trusted_of_getElem? getElem?_newFile)

theorem sound_nil : Sound dag (some []) := fun h =>
  absurd h (not_trusted_of_getElem? (by simp))

theorem sound_createFile (h : Sound dag file) : Sound dag (createFile dag calls file).2 := by
  rw [createFile]
  split
  · exact h
  split
  · exact sound_nil
  split
  · change Sound dag (some (if calls.onDisk then newFile dag else []))
    split
    · exact sound_newFile
    · exact sound_nil
  · exact sound_newFile

theorem createFile_mismatch (h : (createFile dag calls file).1 = .MEMO_MISMATCH) :
    (createFile dag calls file).2 = some (newFile dag) := by
  rw [createFile] at h ⊢
  split at h
  · cases h
  split at h
  · cases h
  split at h
  · cases h
  case isFalse hcreate hput hflush => rw [if_neg hcreate, if_neg hput, if_neg hflush]

theorem checkFile_ne_mismatch : checkFile dag calls bytes ≠ .MEMO_MISMATCH := by
  intro h
  rw [checkFile] at h
  split at h
  · cases h
  split at h
  · cases h
  split at h
  · cases h
  split at h
  · cases h
  · cases h

variable {force_create : Bool}

/-- Preparing a file makes none that is trusted. -/
theorem sound_prepare (h : Sound dag file) :
    Sound dag (ethash_io_prepare dag calls force_create file).2 := by
  unfold ethash_io_prepare
  split
  · exact h
  split
  · exact sound_createFile h
  cases file with
  | none => exact sound_createFile h
  | some bytes => exact h

/-- A mismatch is returned for the new file only. -/
theorem prepare_mismatch
    (h : (ethash_io_prepare dag calls force_create file).1 = .MEMO_MISMATCH) :
    (ethash_io_prepare dag calls force_create file).2 = some (newFile dag) := by
  unfold ethash_io_prepare at h ⊢
  split at h
  · cases h
  case isFalse hname =>
    rw [if_neg hname]
    split at h
    case isTrue hopen =>
      rw [if_pos hopen]
      exact createFile_mismatch h
    case isFalse hopen =>
      rw [if_neg hopen]
      cases file with
      | none => exact createFile_mismatch h
      | some bytes => exact absurd h checkFile_ne_mismatch

end Marks

section Writes
variable {dag bytes file data mapped : QByteArray} {s : DagRun} {n : Nat}

theorem length_magicBytes : magicBytes.length = 8 := rfl

/-- Whatever is in the mapping, the bytes of the magic number are those of the file. -/
theorem getElem?_withData (h : magicBytes.length ≤ file.length) :
    (withData data file)[7]? = file[7]? := by
  have htake : (file.take magicBytes.length).length = magicBytes.length := by
    rw [List.length_take]
    omega
  rw [withData, List.getElem?_append_left (by rw [htake]; decide)]
  exact List.getElem?_take_of_lt (by decide)

theorem drop_withData (h : file.length = magicBytes.length + data.length) :
    (withData data file).drop magicBytes.length = data := by
  have htake : (file.take magicBytes.length).length = magicBytes.length := by
    rw [List.length_take]
    omega
  rw [withData, List.drop_left' htake, overwrite_of_le (by omega)]
  rw [List.drop_eq_nil_of_le (by rw [List.length_drop]; omega), List.append_nil]

/-- What has been given to `fwrite` is a first part of the finished file. -/
theorem given_eq_take : given dag s = (magicBytes ++ dag).take (given dag s).length := by
  rw [given]
  split
  · rw [List.take_left]
  · rw [List.take_length]
  · split
    · rw [List.take_length]
    · rw [List.take_left]
  · rfl

theorem overwrite_given :
    overwrite bytes (given dag s) n = overwrite bytes (magicBytes ++ dag) (written dag s n) := by
  have htake : (given dag s).take n = (magicBytes ++ dag).take (written dag s n) := by
    rw [written, ← List.take_take, ← given_eq_take]
  rw [overwrite, overwrite, htake]

/-- In memory: the new file with a first part of the finished one over it is sound unless the magic
number is there and the rest is not. -/
theorem sound_overwrite_newFile :
    Sound dag (some (overwrite (newFile dag) (magicBytes ++ dag) n)) ↔
      (magicBytes.length ≤ n → dag.drop (n - magicBytes.length) = (newFile dag).drop n) := by
  rcases Nat.lt_or_ge n magicBytes.length with hlt | hge
  · have hnot : ¬ Trusted dag (some (overwrite (newFile dag) (magicBytes ++ dag) n)) := by
      apply not_trusted_of_getElem?
      have hle : n ≤ 7 := Nat.le_of_lt_succ hlt
      rw [getElem?_overwrite hle]
      exact getElem?_newFile
    exact iff_of_true (fun h => absurd h hnot) fun h => absurd h (Nat.not_le_of_lt hlt)
  · have hlength : ((newFile dag).drop magicBytes.length).length = dag.length := by
      rw [List.length_drop, length_newFile]
      omega
    have htrusted : Trusted dag (some (overwrite (newFile dag) (magicBytes ++ dag) n)) := by
      refine trusted_iff.mpr ⟨_, rfl, ?_, take_overwrite hge⟩
      rw [length_overwrite (by rw [List.length_append, length_newFile])]
      rw [length_newFile, length_magicBytes, Nat.add_comm, UInt64.ofNat_add]
      exact (UInt64.add_sub_cancel _ _).symm
    have hcomplete : Complete dag (some (overwrite (newFile dag) (magicBytes ++ dag) n)) ↔
        dag.drop (n - magicBytes.length) = (newFile dag).drop n := by
      have hdrop : ((newFile dag).drop magicBytes.length).drop (n - magicBytes.length) =
          (newFile dag).drop n := by
        rw [List.drop_drop, Nat.add_sub_cancel' hge]
      rw [Complete]
      simp only [Option.mem_some_iff, exists_eq_left']
      rw [drop_overwrite_append hge, overwrite_eq_iff hlength, hdrop]
      exact eq_comm
    constructor
    · intro h _
      exact hcomplete.mp (h htrusted)
    · intro h _
      exact hcomplete.mpr (h hge)

/-- In the mapping: with the data in the file, no part of the magic number takes it away. -/
theorem complete_overwrite_magic (h : bytes.drop magicBytes.length = dag) :
    Complete dag (some (overwrite bytes magicBytes n)) :=
  ⟨_, rfl, drop_overwrite.trans h⟩

end Writes

section Runs
variable (dag : QByteArray)

/-- What is known of the file at every call. -/
def Inv (s : DagRun) : Prop :=
  match s.pc with
  | .idle | .prepare | .recreate => Sound dag s.file
  | .load | .compute => s.file = some (newFile dag)
  | .writeData => s.dagInMemory = true ∧ s.file = some (newFile dag)
  | .writeMagic | .flush =>
    s.file = some (if s.dagInMemory then newFile dag else withData dag (newFile dag))

/-- Where a run in memory ends with the magic number in the file, the bytes of the DAG that are not
written yet are those of the new file. -/
def NothingMissing (s : DagRun) : Event → Prop
  | .stop onDisk _ => s.dagInMemory = true → magicBytes.length ≤ written dag s onDisk →
    dag.drop (written dag s onDisk - magicBytes.length) = (newFile dag).drop (written dag s onDisk)
  | _ => True

/-- No run is going, and a file that is trusted is complete. -/
def NeverIncomplete (s : DagRun) : Prop := s.pc = .idle → Sound dag s.file

variable {dag} {s t : DagRun} {e : Event} {n : Nat} {mapped : QByteArray}

theorem left_prepare (h : s.pc = .prepare ∨ s.pc = .recreate ∨ s.pc = .load) :
    left dag s n mapped = s.file := by
  rcases h with h | h | h <;> simp [left, given, h, overwrite]

theorem left_write (h : s.pc = .writeMagic ∨ s.pc = .writeData ∨ s.pc = .flush) :
    left dag s n mapped = s.file.map fun file => overwrite file (given dag s) n := by
  rcases h with h | h | h <;> simp [left, h]

/-- A run in memory writes to the new file. -/
theorem left_inMemory (hmem : s.dagInMemory = true)
    (hpc : s.pc = .writeMagic ∨ s.pc = .writeData ∨ s.pc = .flush) (hinv : Inv dag s) :
    left dag s n mapped =
      some (overwrite (newFile dag) (magicBytes ++ dag) (written dag s n)) := by
  have hfile : s.file = some (newFile dag) := by
    rcases hpc with hpc | hpc | hpc
    · rw [Inv, hpc] at hinv
      rw [hinv, if_pos hmem]
    · rw [Inv, hpc] at hinv
      exact hinv.2
    · rw [Inv, hpc] at hinv
      rw [hinv, if_pos hmem]
  rw [left_write hpc, hfile, Option.map_some, overwrite_given]

/-- A run with a mapping has the data in the file before the magic number. -/
theorem sound_left_mapped (hmem : s.dagInMemory = false)
    (hpc : s.pc = .writeMagic ∨ s.pc = .flush) (hinv : Inv dag s) :
    Sound dag (left dag s n mapped) := by
  have hfile : s.file = some (withData dag (newFile dag)) := by
    rcases hpc with hpc | hpc
    · rw [Inv, hpc] at hinv
      rw [hinv, if_neg (by simp [hmem])]
    · rw [Inv, hpc] at hinv
      rw [hinv, if_neg (by simp [hmem])]
  have hgiven : given dag s = magicBytes := by
    rcases hpc with hpc | hpc <;> simp [given, hpc, hmem]
  rw [left_write (hpc.imp id .inr), hfile, Option.map_some, hgiven]
  intro _
  exact complete_overwrite_magic (drop_withData length_newFile)

/-- Until the first write the file is not trusted, whatever is in the mapping. -/
theorem sound_left_compute (hpc : s.pc = .compute) (hinv : Inv dag s) :
    Sound dag (left dag s n mapped) := by
  rw [Inv, hpc] at hinv
  simp only [left, hpc, hinv, Option.map_some]
  split
  · exact sound_newFile
  · intro h
    apply absurd h (not_trusted_of_getElem? _)
    rw [getElem?_withData (by rw [length_newFile]; omega)]
    exact getElem?_newFile

/-- Wherever a run ends, the file is sound if nothing is missing. -/
theorem sound_left (hinv : Inv dag s) (hpc : s.pc ≠ .idle)
    (h : NothingMissing dag s (.stop n mapped)) : Sound dag (left dag s n mapped) := by
  have hwrite : s.pc = .writeMagic ∨ s.pc = .flush → Sound dag (left dag s n mapped) := by
    intro hat
    cases hmem : s.dagInMemory with
    | false => exact sound_left_mapped hmem hat hinv
    | true =>
      rw [left_inMemory hmem (hat.imp id .inr) hinv]
      exact sound_overwrite_newFile.mpr (h hmem)
  cases hat : s.pc with
  | idle => exact absurd hat hpc
  | prepare =>
    rw [left_prepare (.inl hat)]
    rw [Inv, hat] at hinv
    exact hinv
  | recreate =>
    rw [left_prepare (.inr (.inl hat))]
    rw [Inv, hat] at hinv
    exact hinv
  | load =>
    rw [left_prepare (.inr (.inr hat))]
    rw [Inv, hat] at hinv
    rw [hinv]
    exact sound_newFile
  | compute => exact sound_left_compute hat hinv
  | writeMagic => exact hwrite (.inl hat)
  | writeData =>
    have hmem : s.dagInMemory = true := by
      rw [Inv, hat] at hinv
      exact hinv.1
    rw [left_inMemory hmem (.inr (.inl hat)) hinv]
    exact sound_overwrite_newFile.mpr (h hmem)
  | flush => exact hwrite (.inr hat)

theorem inv_afterPrepare {calls : PrepareCalls} (h : Sound dag s.file) :
    Inv dag (afterPrepare s (ethash_io_prepare dag calls false s.file)) := by
  rw [afterPrepare]
  split
  · exact sound_prepare h
  · exact sound_prepare h
  · exact sound_prepare h
  · exact prepare_mismatch ‹_›

theorem inv_afterRecreate {calls : PrepareCalls} (h : Sound dag s.file) :
    Inv dag (afterRecreate s (ethash_io_prepare dag calls true s.file)) := by
  rw [afterRecreate]
  split
  case isTrue hmismatch => exact prepare_mismatch hmismatch
  case isFalse => exact sound_prepare h

/-- The last flush writes the whole finished file. -/
theorem sound_flushed (hinv : Inv dag s) (hpc : s.pc = .flush) :
    Sound dag (left dag s (given dag s).length []) := by
  apply sound_left hinv (by rw [hpc]; exact fun h => by cases h)
  intro hmem _
  have hgiven : given dag s = magicBytes ++ dag := by simp [given, hpc, hmem]
  have hlength : written dag s (given dag s).length = magicBytes.length + dag.length := by
    rw [written, Nat.min_self, hgiven, List.length_append]
  rw [hlength, List.drop_eq_nil_of_le (by omega), List.drop_eq_nil_of_le (by rw [length_newFile])]

theorem inv_next (hinv : Inv dag s) (hstep : step dag s .next = some t) : Inv dag t := by
  cases hpc : s.pc with
  | load =>
    simp only [step, hpc, Option.some.injEq] at hstep
    rw [Inv, hpc] at hinv
    rw [← hstep]
    exact hinv
  | compute =>
    have hfile : s.file = some (newFile dag) := by
      rw [Inv, hpc] at hinv
      exact hinv
    cases hmem : s.dagInMemory with
    | true =>
      simp only [step, hpc, hmem, if_true, Option.some.injEq] at hstep
      rw [← hstep]
      simpa [Inv, hmem] using hfile
    | false =>
      simp only [step, hpc, hmem, Bool.false_eq_true, if_false, Option.some.injEq] at hstep
      rw [← hstep]
      simp [Inv, hfile]
  | writeMagic =>
    rw [Inv, hpc] at hinv
    cases hmem : s.dagInMemory with
    | true =>
      simp only [step, hpc, hmem, if_true, Option.some.injEq] at hstep
      rw [← hstep]
      simpa [Inv, hmem] using hinv
    | false =>
      simp only [step, hpc, hmem, Option.some.injEq] at hstep
      rw [← hstep]
      simpa [Inv, hmem] using hinv
  | writeData =>
    simp only [step, hpc, Option.some.injEq] at hstep
    rw [Inv, hpc] at hinv
    rw [← hstep]
    simpa [Inv, hinv.1] using hinv.2
  | flush =>
    simp only [step, hpc, Option.some.injEq] at hstep
    rw [← hstep]
    exact sound_flushed hinv hpc
  | _ =>
    simp only [step, hpc] at hstep
    cases hstep

theorem inv_step (hinv : Inv dag s) (hgood : NothingMissing dag s e)
    (hstep : step dag s e = some t) : Inv dag t := by
  cases e with
  | begin dagInMemory =>
    rw [step] at hstep
    split at hstep
    case isFalse => cases hstep
    case isTrue hpc =>
      cases hstep
      rw [Inv, hpc] at hinv
      exact hinv
  | prepare calls =>
    rw [step] at hstep
    split at hstep
    case h_1 hpc =>
      cases hstep
      rw [Inv, hpc] at hinv
      exact inv_afterPrepare hinv
    case h_2 hpc =>
      cases hstep
      rw [Inv, hpc] at hinv
      exact inv_afterRecreate hinv
    case h_3 => cases hstep
  | next => exact inv_next hinv hstep
  | stop onDisk mapped =>
    rw [step] at hstep
    split at hstep
    case isTrue => cases hstep
    case isFalse hpc =>
      cases hstep
      exact sound_left hinv hpc hgood

theorem neverIncomplete_of_inv (hinv : Inv dag s) : NeverIncomplete dag s := by
  intro hpc
  rw [Inv, hpc] at hinv
  exact hinv

/-- Where bytes are missing, the file that is left is trusted without them. -/
theorem incomplete_of_missing (hinv : Inv dag s) (h : ¬ NothingMissing dag s e) :
    ∃ t, step dag s e = some t ∧ ¬ NeverIncomplete dag t := by
  cases e with
  | stop onDisk mapped =>
    rw [NothingMissing] at h
    push Not at h
    obtain ⟨hmem, hmagic, hmissing⟩ := h
    have hpc : s.pc = .writeMagic ∨ s.pc = .writeData ∨ s.pc = .flush := by
      by_contra hnot
      have hgiven : given dag s = [] := by
        cases hpc : s.pc <;> simp_all [given]
      rw [written, hgiven, length_magicBytes] at hmagic
      simp at hmagic
    have hrun : s.pc ≠ .idle := by
      rcases hpc with hpc | hpc | hpc <;> rw [hpc] <;> exact fun h => by cases h
    refine ⟨_, if_neg hrun, fun hgood => hmissing ?_⟩
    have hsound : Sound dag (left dag s onDisk mapped) := hgood rfl
    rw [left_inMemory hmem hpc hinv] at hsound
    exact sound_overwrite_newFile.mp hsound hmagic
  | _ => exact absurd trivial h

/-- In every run of preparations, of either kind and ended at any call, no file is ever trusted that
is not complete, if and only if no run in memory ends with the magic number in the file and bytes
of the DAG missing. -/
theorem dag_trusted_iff {dag : QByteArray} {s : DagRun} {es : List Event} (hpc : s.pc = .idle)
    (hsound : Sound dag s.file) :
    (∀ fs t, fs <+: es → exec (step dag) s fs = some t → NeverIncomplete dag t) ↔
      Along (step dag) (NothingMissing dag) s es := by
  apply along_iff_reached
  · intro s e t hinv hgood hstep
    exact inv_step hinv hgood hstep
  · intro s hinv
    exact neverIncomplete_of_inv hinv
  · intro s e hinv hbad
    exact incomplete_of_missing hinv hbad
  · rw [Inv, hpc]
    exact hsound

/-- A file that does not exist is made, and the run stops after the first half of the data. -/
def stoppedRun : List Event :=
  [.begin true, .prepare ⟨true, true, false, true, true, true, true, true, true, true⟩,
    .next, .next, .next, .stop 10 []]

theorem dag_trusted_fresh :
    (∀ fs t, fs <+: stoppedRun → exec (step [1, 2, 3, 4]) ⟨none, false, .idle⟩ fs = some t →
      NeverIncomplete [1, 2, 3, 4] t) ↔
      Along (step [1, 2, 3, 4]) (NothingMissing [1, 2, 3, 4]) ⟨none, false, .idle⟩ stoppedRun :=
  dag_trusted_iff rfl fun h => absurd h not_trusted_none

/-- The magic number is in the file of a run that stopped, and two of the four bytes are not. -/
theorem half_file_trusted :
    ∃ t, exec (step [1, 2, 3, 4]) ⟨none, false, .idle⟩ stoppedRun = some t ∧ t.pc = .idle ∧
      Trusted [1, 2, 3, 4] t.file ∧ ¬ Complete [1, 2, 3, 4] t.file := by
  refine ⟨⟨some (magicBytes ++ [1, 2, 0, 10]), true, .idle⟩, rfl, rfl, ?_, ?_⟩
  · exact ⟨⟨true, true, true, true, true, true, true, true, true, true⟩, by decide⟩
  · intro ⟨bytes, hbytes, hdata⟩
    cases hbytes
    cases hdata

end Runs

end MinerGate.DagFile
