import MinerGate.Pool.JobMessages
import MinerGate.Pool.PoolClient

/-!
# Jobs of the Ethereum pool

The lists of parameters that `PoolClient::login` and `PoolClient::getjob` are called with, whatever
the server has put into them, and the difficulty that reaches the coin.
-/

namespace MinerGate.Pool.PoolClient

set_option autoImplicit false

open JsonRpc QByteArray
open StratumClient (signals)

/-- `QByteArray::fromHex(_jobParams.at(i).toByteArray())` -/
def hashBytes (jobParams : List Json) (i : Nat) : QByteArray :=
  fromHex (((jobParams[i]?).bind Json.variantToString).getD "")

def jobOf (jobParams : List Json) : MiningJob :=
  ⟨hashBytes jobParams PHeaderHash, hashBytes jobParams PSeedHash, hashBytes jobParams PBoudary⟩

def workerIdOf (jobParams : List Json) : Int :=
  (jobParams[PWorkerId]?.map Json.variantToInt).getD 0

/-- The boundary as a number, from the 32 bytes that are looked at. -/
def boundaryOf (jobParams : List Json) : Nat :=
  readLittleEndian ((hashBytes jobParams PBoudary).take 32).reverse

/-- The state in which the job is emitted. -/
def jobEmitted (s : Client) (jobParams : List Json) : Client :=
  ((if workerIdOf jobParams ≠ 0 then s.grant (workerIdText (workerIdOf jobParams))
    else s).reset false).emit (.newJob (jobOf jobParams))

theorem hashBytes_of_getElem {jobParams : List Json} {i : Nat} {v : Json}
    (h : jobParams[i]? = some v) : hashBytes jobParams i = fromHex (v.variantToString.getD "") := by
  rw [hashBytes, h, Option.bind_some]

theorem setNewJob_eq {s : Client} {jobParams : List Json} (h : 3 ≤ jobParams.length) :
    setNewJob s jobParams = (arrayToH256 (hashBytes jobParams PBoudary)).bind fun boundary =>
      (getDifficultyForBoundary boundary.arith).map fun jobDiff =>
        (jobEmitted s jobParams).emit (.jobDifficultyChanged jobDiff) := by
  have hheader := List.getElem?_eq_getElem (show PHeaderHash < jobParams.length by
    unfold PHeaderHash; omega)
  have hseed := List.getElem?_eq_getElem (show PSeedHash < jobParams.length by
    unfold PSeedHash; omega)
  have hboundary := List.getElem?_eq_getElem (show PBoudary < jobParams.length by
    unfold PBoudary; omega)
  simp only [jobEmitted, jobOf, hashBytes_of_getElem hheader, hashBytes_of_getElem hseed,
    hashBytes_of_getElem hboundary, Option.map_eq_bind, Function.comp_def]
  rw [setNewJob, hheader, hseed, hboundary]
  simp only [Option.bind_eq_bind, Option.bind_some]
  rfl

theorem setNewJob_of_short {s : Client} {jobParams : List Json} (h : jobParams.length < 3) :
    setNewJob s jobParams = none := by
  match jobParams, h with
  | [], _ => rfl
  | [_], _ => rfl
  | [_, _], _ => rfl

/-- What `setNewJob` reads is there, and it can divide by the boundary. -/
structure Readable (entries : Nat) (jobParams : List Json) : Prop where
  entries : entries ≤ jobParams.length
  boundary : 32 ≤ (hashBytes jobParams PBoudary).length
  divisor : boundaryOf jobParams ≠ 0

theorem arrayToH256_boundary {jobParams : List Json}
    (h : 32 ≤ (hashBytes jobParams PBoudary).length) :
    ∃ boundary, arrayToH256 (hashBytes jobParams PBoudary) = some boundary ∧
      boundary.arith = boundaryOf jobParams := by
  refine ⟨_, dif_pos h, ?_⟩
  rw [H256.arith, fromBigEndian_eq, boundaryOf]

theorem setNewJob_cases (s : Client) (jobParams : List Json) :
    (Readable 3 jobParams ∧ setNewJob s jobParams = some ((jobEmitted s jobParams).emit
      (.jobDifficultyChanged
        (u256Modulus / boundaryOf jobParams % u256Modulus % 4294967296)))) ∨
    ¬ Readable 3 jobParams ∧ setNewJob s jobParams = none := by
  by_cases hentries : 3 ≤ jobParams.length
  · rw [setNewJob_eq hentries]
    by_cases hboundary : 32 ≤ (hashBytes jobParams PBoudary).length
    · obtain ⟨boundary, hread, harith⟩ := arrayToH256_boundary hboundary
      rw [hread, Option.bind_some, harith, getDifficultyForBoundary]
      by_cases hzero : boundaryOf jobParams = 0
      · right
        rw [if_pos hzero]
        exact ⟨fun hreadable => hreadable.divisor hzero, rfl⟩
      · left
        rw [if_neg hzero]
        exact ⟨⟨hentries, hboundary, hzero⟩, rfl⟩
    · right
      rw [arrayToH256, dif_neg hboundary]
      exact ⟨fun hreadable => hboundary hreadable.boundary, rfl⟩
  · exact Or.inr ⟨fun hreadable => hentries hreadable.entries,
      setNewJob_of_short (Nat.not_le.mp hentries)⟩

/-- The two slots that take a list from the server. -/
inductive JobSlot where
  | login
  | getjob
deriving DecidableEq, Repr

namespace JobSlot

def call : JobSlot → Client → List Json → Option Client
  | .login => PoolClient.login
  | .getjob => PoolClient.getjob

/-- The number of entries that the slot needs. -/
def entries : JobSlot → Nat
  | .login => 4
  | .getjob => 3

/-- `login` before it calls `setNewJob`. -/
def before : JobSlot → Client → List Json → Client
  | .login, s, params =>
    { s.emit (.stateChanged .Connected) with m_login_timer := false }.grant
      ((params[PWorkerId]?).bind Json.variantToString)
  | .getjob, s, _ => s

theorem call_cases (slot : JobSlot) (s : Client) (params : List Json) :
    (Readable slot.entries params ∧ slot.call s params =
      some ((jobEmitted (slot.before s params) params).emit (.jobDifficultyChanged
        (u256Modulus / boundaryOf params % u256Modulus % 4294967296)))) ∨
    ¬ Readable slot.entries params ∧ slot.call s params = none := by
  cases slot with
  | getjob => exact setNewJob_cases s params
  | login =>
    show (_ ∧ PoolClient.login s params = _) ∨ _ ∧ PoolClient.login s params = _
    cases hid : params[PWorkerId]? with
    | none =>
      right
      have hlength := List.getElem?_eq_none_iff.mp hid
      refine ⟨fun hreadable => absurd hreadable.entries (Nat.not_le.mpr ?_), ?_⟩
      · exact Nat.lt_succ_of_le hlength
      · rw [PoolClient.login, hid]
        rfl
    | some id =>
      obtain ⟨hlength, -⟩ := List.getElem?_eq_some_iff.mp hid
      have hcall : PoolClient.login s params =
          setNewJob (JobSlot.login.before s params) params := by
        rw [PoolClient.login, before, hid]
        rfl
      rw [hcall]
      rcases setNewJob_cases (JobSlot.login.before s params) params with
        ⟨hreadable, hjob⟩ | ⟨hnot, hjob⟩
      · exact Or.inl ⟨⟨hlength, hreadable.boundary, hreadable.divisor⟩, hjob⟩
      · refine Or.inr ⟨fun hreadable => hnot ⟨?_, hreadable.boundary, hreadable.divisor⟩, hjob⟩
        exact Nat.le_of_succ_le hreadable.entries

/-- The signals of the slot before it calls `setNewJob`. -/
def firstSignals : JobSlot → List Signal
  | .login => [.stateChanged .Connected]
  | .getjob => []

theorem signals_call {slot : JobSlot} {s t : Client} {params : List Json}
    (h : slot.call s params = some t) : signals s t =
      .jobDifficultyChanged (u256Modulus / boundaryOf params % u256Modulus % 4294967296) ::
        .newJob (jobOf params) :: slot.firstSignals := by
  rcases slot.call_cases s params with ⟨-, hcall⟩ | ⟨-, hcall⟩
  · rw [hcall, Option.some.injEq] at h
    subst h
    have hjob : ∀ s' : Client, (jobEmitted s' params).emitted =
        (s'.rpc.m_sock.state, .newJob (jobOf params)) :: s'.emitted := by
      intro s'
      unfold jobEmitted
      split
      · rfl
      · rfl
    cases slot with
    | login =>
      have hlength : s.emitted.length + 1 + 1 + 1 - s.emitted.length = 3 := by omega
      simp [signals, Client.emit, hjob, before, Client.grant, hlength, firstSignals]
    | getjob =>
      have hlength : s.emitted.length + 1 + 1 - s.emitted.length = 2 := by omega
      simp [signals, Client.emit, hjob, before, hlength, firstSignals]
  · rw [hcall] at h
    cases h

end JobSlot

section Malformed

/-- All entries are there, the three hashes decode to 32 bytes, and the boundary is not zero. -/
structure WellFormed (slot : JobSlot) (params : List Json) : Prop where
  entries : slot.entries ≤ params.length
  headerHash : (hashBytes params PHeaderHash).length = 32
  seedHash : (hashBytes params PSeedHash).length = 32
  boundary : (hashBytes params PBoudary).length = 32
  divisor : boundaryOf params ≠ 0

/-- The worker id, the requests and the job are as before. -/
structure Unchanged (s t : Client) : Prop where
  workerId : t.session = s.session
  queue : t.rpc.m_request_queue = s.rpc.m_request_queue
  job : ∀ job, Signal.newJob job ∉ signals s t

/-- The slot returns, and a list that is malformed changes nothing. -/
structure Handled (slot : JobSlot) (s : Client) (params : List Json) : Prop where
  returns : ∃ t, slot.call s params = some t
  unchanged : ¬ WellFormed slot params → ∀ t, slot.call s params = some t → Unchanged s t

variable {slot : JobSlot} {s t : Client} {params : List Json}

theorem WellFormed.readable (h : WellFormed slot params) : Readable slot.entries params :=
  ⟨h.entries, h.boundary.ge, h.divisor⟩

theorem call_isSome (h : Readable slot.entries params) : ∃ t, slot.call s params = some t := by
  rcases slot.call_cases s params with ⟨-, hcall⟩ | ⟨hnot, -⟩
  · exact ⟨_, hcall⟩
  · exact absurd h hnot

/-- Every list that is processed to the end gives a job. -/
theorem not_unchanged (h : slot.call s params = some t) : ¬ Unchanged s t := by
  intro hsame
  apply hsame.job (jobOf params)
  rw [JobSlot.signals_call h]
  exact List.mem_cons_of_mem _ List.mem_cons_self

/-- A list is handled safely exactly when it is well formed. -/
theorem handled_iff_wellFormed (slot : JobSlot) (s : Client) (params : List Json) :
    Handled slot s params ↔ WellFormed slot params := by
  constructor
  · intro h
    by_contra hnot
    obtain ⟨t, ht⟩ := h.returns
    exact not_unchanged ht (h.unchanged hnot t ht)
  · intro h
    exact ⟨call_isSome h.readable, fun hnot => absurd h hnot⟩

/-- A list of three entries. -/
def hashes (header boundary : QByteArray) : List Json :=
  [.str (toHex header), .str (toHex (.replicate 32 1)), .str (toHex boundary)]

theorem hashBytes_hashes (header boundary : QByteArray) :
    hashBytes (hashes header boundary) PHeaderHash = header ∧
      hashBytes (hashes header boundary) PBoudary = boundary :=
  ⟨fromHex_toHex header, fromHex_toHex boundary⟩

theorem entries_hashes (header boundary : QByteArray) :
    JobSlot.getjob.entries ≤ (hashes header boundary).length := by
  rw [hashes]
  exact Nat.le_refl 3

theorem boundaryOf_hashes (header boundary : QByteArray) :
    boundaryOf (hashes header boundary) = readLittleEndian (boundary.take 32).reverse := by
  rw [boundaryOf, (hashBytes_hashes header boundary).2]

def client : Client := .new ⟨"pool", 1⟩ "" "" ""

/-- An empty list is read out of range, and a header of one byte becomes the job. -/
theorem malformed_lists_processed :
    (¬ ∀ (slot : JobSlot) (s : Client) (params : List Json), ∃ t, slot.call s params = some t) ∧
      ¬ ∀ (slot : JobSlot) (s : Client) (params : List Json), ¬ WellFormed slot params →
        ∀ t, slot.call s params = some t → Unchanged s t := by
  constructor
  · intro h
    obtain ⟨t, ht⟩ := h .getjob client []
    cases ht
  · intro h
    have hbytes := hashBytes_hashes [1] (.replicate 32 1)
    have hreadable : Readable JobSlot.getjob.entries (hashes [1] (.replicate 32 1)) := by
      refine ⟨entries_hashes _ _, ?_, ?_⟩
      · rw [hbytes.2]
        decide
      · rw [boundaryOf_hashes]
        decide
    have hmalformed : ¬ WellFormed .getjob (hashes [1] (.replicate 32 1)) := by
      intro hwell
      have hheader := hwell.headerHash
      rw [hbytes.1] at hheader
      cases hheader
    obtain ⟨t, ht⟩ := call_isSome (s := client) hreadable
    exact not_unchanged ht (h .getjob client (hashes [1] (.replicate 32 1)) hmalformed t ht)

end Malformed

section Difficulty

/-- The difficulty that a coin is shown with, as the integer that it is set to. -/
structure Coin where
  m_job_difficulty : Nat
deriving DecidableEq, Repr

def Coin.setJobDifficulty (c : Coin) (job_difficulty : Nat) : Coin :=
  if c.m_job_difficulty ≠ job_difficulty then ⟨job_difficulty⟩ else c

/-- `AbstractMinerEngine::jobDifficulty`, the slot for the signal. -/
def jobDifficulty (c : Coin) : Signal → Coin
  | .jobDifficultyChanged diff => c.setJobDifficulty diff
  | _ => c

@[simp] theorem setJobDifficulty_eq (c : Coin) (job_difficulty : Nat) :
    (c.setJobDifficulty job_difficulty).m_job_difficulty = job_difficulty := by
  unfold Coin.setJobDifficulty
  split
  · rfl
  · rename_i hsame
    exact not_not.mp hsame

/-- After the signals of a step, the newest first. -/
def coinAfter (c : Coin) (news : List Signal) : Coin :=
  news.foldr (fun signal c => jobDifficulty c signal) c

/-- The slot returns, the only difficulty it emits is `diff`, and the coin has it afterwards. -/
def Shows (slot : JobSlot) (s : Client) (c : Coin) (params : List Json) (diff : Nat) : Prop :=
  ∃ t, slot.call s params = some t ∧
    (∀ d, Signal.jobDifficultyChanged d ∈ signals s t ↔ d = diff) ∧
    (coinAfter c (signals s t)).m_job_difficulty = diff

variable {slot : JobSlot} {s : Client} {c : Coin} {params : List Json}

theorem shows_iff (h : Readable slot.entries params) (diff : Nat) :
    Shows slot s c params diff ↔
      diff = u256Modulus / boundaryOf params % u256Modulus % 4294967296 := by
  constructor
  · rintro ⟨t, ht, -, hcoin⟩
    rw [JobSlot.signals_call ht, coinAfter, List.foldr_cons] at hcoin
    exact hcoin.symm.trans (setJobDifficulty_eq _ _)
  · rintro rfl
    obtain ⟨t, ht⟩ := call_isSome (s := s) h
    refine ⟨t, ht, fun d => ?_, ?_⟩
    · rw [JobSlot.signals_call ht]
      cases slot with
      | login => simp [JobSlot.firstSignals]
      | getjob => simp [JobSlot.firstSignals]
    · rw [JobSlot.signals_call ht, coinAfter, List.foldr_cons]
      exact setJobDifficulty_eq _ _

theorem quotient_lt_iff {boundary : Nat} (hpos : 0 < boundary) :
    u256Modulus / boundary < 2 ^ 32 ↔ 2 ^ 224 < boundary := by
  have hsplit : u256Modulus = 2 ^ 32 * 2 ^ 224 := (Nat.pow_add 2 32 224).symm
  rw [Nat.div_lt_iff_lt_mul hpos, hsplit]
  exact Nat.mul_lt_mul_left (Nat.two_pow_pos 32)

/-- The difficulty is the exact quotient exactly when it has 32 bits. -/
theorem difficulty_exact_iff (slot : JobSlot) (s : Client) (c : Coin) (params : List Json)
    (hentries : slot.entries ≤ params.length) (hlength : (hashBytes params PBoudary).length = 32)
    (hboundary : boundaryOf params ≠ 0)
    (hfits : u256Modulus / boundaryOf params < 18446744073709551616) :
    Shows slot s c params (u256Modulus / boundaryOf params) ↔ 2 ^ 224 < boundaryOf params := by
  have hpos := Nat.pos_of_ne_zero hboundary
  rw [shows_iff ⟨hentries, hlength.ge, hboundary⟩, ← quotient_lt_iff hpos]
  have hmod : u256Modulus / boundaryOf params % u256Modulus = u256Modulus / boundaryOf params := by
    apply Nat.mod_eq_of_lt
    exact hfits.trans (by decide)
  rw [hmod]
  omega

/-- A job with this boundary. -/
def withBoundary (boundary : QByteArray) : List Json := hashes (.replicate 32 1) boundary

theorem half_shown :
    Shows .getjob client ⟨0⟩ (withBoundary (128 :: .replicate 31 0)) 2 := by
  have hboundary : boundaryOf (withBoundary (128 :: .replicate 31 0)) = 2 ^ 255 := by
    rw [withBoundary, boundaryOf_hashes]
    decide
  have hlength : (hashBytes (withBoundary (128 :: .replicate 31 0)) PBoudary).length = 32 := by
    rw [withBoundary, (hashBytes_hashes _ _).2]
    decide
  have hquotient : u256Modulus / 2 ^ 255 = 2 := by decide
  have hshows := difficulty_exact_iff .getjob client ⟨0⟩ (withBoundary (128 :: .replicate 31 0))
    (entries_hashes _ _) hlength (by rw [hboundary]; decide) (by rw [hboundary]; decide)
  rw [hboundary, hquotient] at hshows
  exact hshows.mpr (by decide)

/-- A difficulty of `2 ^ 32` is shown as 0. -/
theorem large_difficulty_lost :
    ¬ ∀ (slot : JobSlot) (s : Client) (c : Coin) (params : List Json),
      slot.entries ≤ params.length → (hashBytes params PBoudary).length = 32 →
      boundaryOf params ≠ 0 → u256Modulus / boundaryOf params < 18446744073709551616 →
      Shows slot s c params (u256Modulus / boundaryOf params) := by
  intro h
  have hboundary : boundaryOf (withBoundary ([0, 0, 0, 1] ++ .replicate 28 0)) = 2 ^ 224 := by
    rw [withBoundary, boundaryOf_hashes]
    decide
  have hlength :
      (hashBytes (withBoundary ([0, 0, 0, 1] ++ .replicate 28 0)) PBoudary).length = 32 := by
    rw [withBoundary, (hashBytes_hashes _ _).2]
    decide
  have hpos : boundaryOf (withBoundary ([0, 0, 0, 1] ++ .replicate 28 0)) ≠ 0 := by
    rw [hboundary]
    decide
  have hreadable :
      Readable JobSlot.getjob.entries (withBoundary ([0, 0, 0, 1] ++ .replicate 28 0)) :=
    ⟨entries_hashes _ _, hlength.ge, hpos⟩
  have hshows := (shows_iff hreadable _).mp (h .getjob client ⟨0⟩ _ hreadable.entries hlength hpos
    (by rw [hboundary]; decide))
  rw [hboundary] at hshows
  exact absurd hshows (by decide)

end Difficulty
end MinerGate.Pool.PoolClient
