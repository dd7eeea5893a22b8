import MinerGate.Miner.Delivery
import MinerGate.Pool.StratumClient

/-!
# Jobs as the pool sends them

`setNewJob` takes the blob and the target of a job as the message has them. A loop that
searches for the job writes the nonce into the blob and reads the target without a look at
their lengths.
-/

namespace MinerGate

set_option autoImplicit false

open Transition QByteArray

theorem QByteArray.toUtf8_eq_nil {s : String} : toUtf8 s = [] ↔ s = "" := by
  constructor
  · intro h
    have hs := fromUtf8_toUtf8 s
    rw [h] at hs
    exact hs.symm
  · rintro rfl
    rfl

namespace Pool.StratumClient

def blobBytes (jobMap : JsonObject) : QByteArray :=
  fromHex ((jobMap.value "blob").variantToString.getD "")

def targetBytes (jobMap : JsonObject) : QByteArray :=
  fromHex ((jobMap.value "target").variantToString.getD "")

/-- The signals between two states of a client, newest first. -/
def signals (s t : Client) : List Signal :=
  (t.emitted.take (t.emitted.length - s.emitted.length)).map (·.2)

def EmitsJob (s : Client) (jobMap : JsonObject) (job : MiningJob) : Prop :=
  Signal.newJob job ∈ signals s (setNewJob s jobMap)

theorem emitsJob_iff {s : Client} {jobMap : JsonObject} {job : MiningJob} :
    EmitsJob s jobMap job ↔ (jobIdOf jobMap).isEmpty = false ∧ job = jobOf jobMap := by
  by_cases h : (jobIdOf jobMap).isEmpty = true
  · simp [EmitsJob, signals, setNewJob, h]
  · have hlength : s.emitted.length + 1 + 1 - s.emitted.length = 2 := by omega
    simp [EmitsJob, signals, setNewJob, h, Client.emit, Client.reset, hlength]

theorem target_jobOf (jobMap : JsonObject) (h : 4 ≤ (targetBytes jobMap).length) :
    (jobOf jobMap).target = (targetBytes jobMap).take 4 := by
  have hlength : ((targetBytes jobMap).take 4).length = 4 := by
    rw [List.length_take]
    omega
  have hread := littleEndian_readLittleEndian ((targetBytes jobMap).take 4)
  rw [hlength] at hread
  have htarget : jobTarget jobMap = arrayToQuint32 (targetBytes jobMap) := if_pos h
  rw [jobOf, htarget]
  exact hread

theorem job_id_jobOf {jobMap : JsonObject} (h : (jobIdOf jobMap).isEmpty = false) :
    (jobOf jobMap).job_id ≠ [] := by
  intro hnil
  rw [toUtf8_eq_nil.mp hnil] at h
  cases h

/-- The job has room for the nonce, and four bytes of target that the message has. -/
structure Valid (jobMap : JsonObject) (job : MiningJob) : Prop where
  blob : 43 ≤ job.blob.length
  target : job.target.length = 4
  decoded : job.target <+: targetBytes jobMap

theorem valid_jobOf_iff (jobMap : JsonObject) : Valid jobMap (jobOf jobMap) ↔
    43 ≤ (blobBytes jobMap).length ∧ 4 ≤ (targetBytes jobMap).length := by
  constructor
  · intro h
    refine ⟨h.blob, ?_⟩
    rw [← h.target]
    exact h.decoded.length_le
  · rintro ⟨hblob, htarget⟩
    refine ⟨hblob, length_littleEndian 4 _, ?_⟩
    rw [target_jobOf jobMap htarget]
    exact List.take_prefix 4 _

/-- A message with these bytes. -/
def message (blob target : QByteArray) : JsonObject :=
  [("job_id", .str "1"), ("blob", .str (toHex blob)), ("target", .str (toHex target))]

theorem blob_jobOf (jobMap : JsonObject) : (jobOf jobMap).blob = blobBytes jobMap := rfl

theorem blobBytes_message (blob target : QByteArray) :
    blobBytes (message blob target) = blob := fromHex_toHex blob

theorem targetBytes_message (blob target : QByteArray) :
    targetBytes (message blob target) = target := fromHex_toHex target

theorem emitsJob_message (s : Client) (blob target : QByteArray) :
    EmitsJob s (message blob target) (jobOf (message blob target)) :=
  emitsJob_iff.mpr ⟨rfl, rfl⟩

theorem Valid.congr {jobMap : JsonObject} {j k : MiningJob} (h : Valid jobMap j)
    (hjk : k.Agrees j) : Valid jobMap k := by
  have hlen : k.blob.length = j.blob.length := by
    rw [← length_setNonce k.blob 0, hjk.2.2, length_setNonce]
  refine ⟨?_, ?_, ?_⟩
  · rw [hlen]
    exact h.blob
  · rw [hjk.2.1]
    exact h.target
  · rw [hjk.2.1]
    exact h.decoded

end Pool.StratumClient

namespace Delivery
variable {backend : Backend} {job : MiningJob}

/-- The job that a loop is searching for, for the pool or for the fee. -/
def RunningWorker.SearchesJob (s : RunningWorker) (job : MiningJob) : Prop :=
  job ∈ s.loop.searching ∨ job ∈ s.loop.view.fee

/-- One job is delivered to a CPU worker, and its loop runs to the search. -/
def oneDelivery (job : MiningJob) : List Event :=
  let loop := .loop .new .new ⟨false, .ok, 1, none, 0⟩
  [.storeJob job, .setUpdateJob, .startMining, loop, loop, loop, loop, loop, loop, loop]

/-- A CPU loop searches for every job that has an id. -/
theorem oneDelivery_searches (backend : Backend) (job : MiningJob) (hid : job.job_id ≠ []) :
    ∃ s, exec (step backend) (initial (.cpu .new)) (oneDelivery job) = some s ∧
      s.loop.searching = some job := by
  have h : (exec (step backend) (initial (.cpu .new)) (oneDelivery job)).map
      (fun s => s.loop.searching) = some (some job) := by
    simp [oneDelivery, exec, step, initial, RunningWorker.isGpu, RunningWorker.setState,
      RunningWorker.shared, Loop.enter, Loop.step, CpuLoop.new, CpuLoop.step, CpuLoop.goto,
      CpuLoop.enter, Result.map, Result.keep, Result.store, Result.act, Worker.new, hid,
      Loop.searching, CpuLoop.searching]
  exact Option.map_eq_some_iff.mp h

end Delivery

namespace Pool.StratumClient

open Delivery

/-- Every job of the pool reaches the search of a CPU worker as it is. -/
theorem emitted_searched {s : Client} {jobMap : JsonObject} {job : MiningJob}
    (hemits : EmitsJob s jobMap job) (backend : Backend) :
    ∃ w, exec (step backend) (initial (.cpu .new)) (oneDelivery job) = some w ∧
      w.SearchesJob job := by
  obtain ⟨hid, rfl⟩ := emitsJob_iff.mp hemits
  obtain ⟨w, hrun, hsearch⟩ := oneDelivery_searches backend (jobOf jobMap) (job_id_jobOf hid)
  exact ⟨w, hrun, Or.inl hsearch⟩

/-- A job of the pool that reaches a search is valid exactly when its message has a blob of 43 bytes
and a target of four. -/
theorem searched_valid_iff {s : Client} {jobMap : JsonObject} {job : MiningJob}
    (hemits : EmitsJob s jobMap job) :
    (∀ (backend : Backend) (loop : Loop) (es : List Delivery.Event) (w : RunningWorker),
      exec (step backend) (initial loop) es = some w →
        ∀ k, w.SearchesJob k → k.Agrees job → Valid jobMap k) ↔
      43 ≤ (blobBytes jobMap).length ∧ 4 ≤ (targetBytes jobMap).length := by
  have hjob := (emitsJob_iff.mp hemits).2
  rw [← valid_jobOf_iff, ← hjob]
  constructor
  · intro h
    obtain ⟨w, hrun, hsearch⟩ := emitted_searched hemits
      ⟨false, cryptonoteSearch id, ⟨id, id, fun _ _ => none, fun _ _ => none⟩⟩
    exact h _ _ _ w hrun job hsearch (.refl job)
  · intro h backend loop es w hrun k hk hagrees
    exact h.congr hagrees

theorem full_message_valid :
    ∃ (w : RunningWorker) (job : MiningJob), w.SearchesJob job ∧
      Valid (message (.replicate 43 0) [1, 0, 0, 0]) job := by
  have hemits := emitsJob_message (.new ⟨"pool", 1⟩ "" "" "") (.replicate 43 0) [1, 0, 0, 0]
  obtain ⟨w, hrun, hsearch⟩ := emitted_searched hemits
    ⟨false, cryptonoteSearch id, ⟨id, id, fun _ _ => none, fun _ _ => none⟩⟩
  have hbytes := (searched_valid_iff hemits).mpr (by
    rw [blobBytes_message, targetBytes_message]
    decide)
  exact ⟨w, _, hsearch, hbytes _ _ _ w hrun _ hsearch (.refl _)⟩

/-- A message without a blob gives a job that the CPU loop searches for. -/
theorem empty_blob_searched :
    ¬ ∀ (s : Client) (jobMap : JsonObject) (job : MiningJob), EmitsJob s jobMap job →
      ∀ (backend : Backend) (loop : Loop) (es : List Delivery.Event) (w : RunningWorker),
        exec (step backend) (initial loop) es = some w →
          ∀ k, w.SearchesJob k → k.Agrees job → Valid jobMap k := by
  intro h
  have hemits := emitsJob_message (.new ⟨"pool", 1⟩ "" "" "") [] [1, 0, 0, 0]
  obtain ⟨w, hrun, hsearch⟩ := emitted_searched hemits
    ⟨false, cryptonoteSearch id, ⟨id, id, fun _ _ => none, fun _ _ => none⟩⟩
  have hblob := (h _ _ _ hemits _ _ _ w hrun _ hsearch (.refl _)).blob
  rw [blob_jobOf, blobBytes_message] at hblob
  exact absurd hblob (by decide)

end Pool.StratumClient

end MinerGate
