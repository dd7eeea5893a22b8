import MinerGate.Miner.Job
import MinerGate.Miner.NonceCtl

/-!
# Miner workers

A worker is shared by two threads. The main thread delivers jobs to it and starts and
stops it, a miner loop on the worker's own thread reads the state and the jobs and writes
the state. Every loop is a step function: one step makes at most one access to what the
two threads share.
-/

namespace MinerGate

set_option autoImplicit false

open QByteArray

inductive MinerThreadState where
  | Mining
  | Exit
  | UpdateJob
  | Stopping
deriving DecidableEq, Repr

structure ShareEvent where
  job_id : QByteArray
  nonce : Nat
  hash : QByteArray
  fee : Bool
deriving DecidableEq, Repr

structure Worker where
  m_state : MinerThreadState
  m_job : MiningJob
  m_feeJob : MiningJob
deriving DecidableEq, Repr

def Worker.new : Worker := ⟨.Exit, .empty, .empty⟩

def Worker.job (w : Worker) (fee : Bool) : MiningJob := if fee then w.m_feeJob else w.m_job

/-- What a loop can read: its worker, `m_fee` and the counters that `NonceCtl::instance` gives
for the coin. -/
structure Shared extends Worker where
  m_fee : Bool
  nonceCtl : Bool → NonceCtl

/-- How calls to a device or a library end; a worker that gets `incapable` stops itself. -/
inductive Outcome where
  | ok
  | retry
  | fail
  | incapable
deriving DecidableEq, Repr

/-- What one step takes from outside: whether `qrand() % 100 < 2`, the outcome of its calls, the
number of nonces in a batch of the device, a nonce the device reports, and the value of a variable
that was not initialized. -/
structure Input where
  lucky : Bool
  outcome : Outcome
  threads : UInt32
  found : Option Nat
  uninitialized : Nat
deriving DecidableEq, Repr

/-- What a step does besides moving its loop. `unreserved` is a search of a range that was not
reserved. -/
inductive Action where
  | none
  | reserve (fee : Bool) (amount : Nat)
  | unreserved (fee : Bool) (amount finishNonce : Nat)
  | postEvent (share : ShareEvent)
deriving DecidableEq, Repr

/-- What a step may do: take a range of one of the amounts, search without one, or post a share of
the job that `reports` gives for its kind, with a nonce that passes the check. -/
inductive Action.Of (amounts : Nat → Prop) (reports : Bool → Option MiningJob)
    (check : MiningJob → Nat → Option QByteArray) : Action → Prop where
  | none : Of amounts reports check .none
  | reserve (fee : Bool) {amount : Nat} (hamount : amounts amount) :
    Of amounts reports check (.reserve fee amount)
  | unreserved (fee : Bool) (amount finishNonce : Nat) :
    Of amounts reports check (.unreserved fee amount finishNonce)
  | postEvent {share : ShareEvent} {job : MiningJob} (hjob : job ∈ reports share.fee)
    (hid : share.job_id = job.job_id) (hcheck : check job share.nonce = some share.hash) :
    Of amounts reports check (.postEvent share)

theorem Action.Of.report {amounts : Nat → Prop} {reports : Bool → Option MiningJob}
    {check : MiningJob → Nat → Option QByteArray} {share : ShareEvent}
    (h : (Action.postEvent share).Of amounts reports check) :
    ∃ j ∈ reports share.fee, share.job_id = j.job_id ∧ check j share.nonce = some share.hash := by
  cases h with
  | postEvent hjob hid hcheck => exact ⟨_, hjob, hid, hcheck⟩

structure Result (L : Type) where
  loop : L
  m_state : MinerThreadState
  action : Action

namespace Result
variable {L M : Type}

def keep (sh : Shared) (loop : L) : Result L := ⟨loop, sh.m_state, .none⟩
def store (m_state : MinerThreadState) (loop : L) : Result L := ⟨loop, m_state, .none⟩
def act (sh : Shared) (action : Action) (loop : L) : Result L := ⟨loop, sh.m_state, action⟩
def map (f : L → M) (r : Result L) : Result M := ⟨f r.loop, r.m_state, r.action⟩

end Result

/-- The test `_state == Exit || _state == Stopping`. Its two loads are one here: only the loop's own
thread stores `Exit`, so the state does not go from `Stopping` to `Exit` between them. -/
def MinerThreadState.stops (s : MinerThreadState) : Bool := s = .Exit ∨ s = .Stopping

def hashWord7 (hash : QByteArray) : Nat := arrayToQuint32 (hash.drop 28)

/-- The hash functions of the coins. `ethSearch` and `ethEval` give the mix hash of a nonce
that passes the checks of a CPU worker and of a GPU miner. -/
structure Hashing where
  slowHash : QByteArray → QByteArray
  slowHashLite : QByteArray → QByteArray
  ethSearch : MiningJob → Nat → Option QByteArray
  ethEval : MiningJob → Nat → Option QByteArray

/-- The check on the CPU of a nonce that a CryptoNight device found. -/
def checkCryptonote (slowHash : QByteArray → QByteArray) (job : MiningJob) (nonce : Nat) :
    Option QByteArray :=
  let hash := slowHash (setNonce job.blob nonce)
  if hashWord7 hash ≤ arrayToQuint32 job.target then some hash else none

def Input.checked (inp : Input) (size : Nat) (check : Nat → Option QByteArray) :
    Option (Nat × QByteArray) :=
  inp.found.bind fun nonce => if nonce < size then (check nonce).map (nonce, ·) else none

theorem Input.checked_eq_some {inp : Input} {size nonce : Nat} {check : Nat → Option QByteArray}
    {hash : QByteArray} (h : inp.checked size check = some (nonce, hash)) :
    nonce < size ∧ check nonce = some hash := by
  obtain ⟨n, -, hn⟩ := Option.bind_eq_some_iff.mp h
  obtain ⟨hlt, hn⟩ := Option.ite_none_right_eq_some.mp hn
  obtain ⟨k, hk, heq⟩ := Option.map_eq_some_iff.mp hn
  cases heq
  exact ⟨hlt, hk⟩

structure View where
  main : Option MiningJob
  fee : Option MiningJob
  /-- The next step stores `Mining`, whatever it finds. -/
  storesMining : Bool

namespace View

def none : View := ⟨.none, .none, false⟩

def held (v : View) (fee : Bool) : Option MiningJob := if fee then v.fee else v.main

end View

/-- What a step can do to the state and to the jobs a loop holds: it copies the worker's job,
keeps what it has but for the nonce bytes, or starts with an empty job while not mining. -/
structure StepSpec (sh : Shared) (v v' : View) (m_state : MinerThreadState) : Prop where
  held : ∀ fee, ∀ j ∈ v'.held fee, j.Agrees (sh.job fee) ∨ (∃ k ∈ v.held fee, j.Agrees k) ∨
    j = .empty ∧ m_state ≠ .Mining
  mining : m_state = .Mining → sh.m_state = .Mining ∨ v.storesMining = true

theorem StepSpec.of_held {sh : Shared} {v v' : View} {m_state : MinerThreadState}
    (hheld : ∀ fee, v'.held fee = v.held fee ∨ v'.held fee = none)
    (hstate : m_state = sh.m_state ∨ m_state ≠ .Mining ∨ v.storesMining = true) :
    StepSpec sh v v' m_state := by
  constructor
  · intro fee j hj
    rcases hheld fee with h | h
    · rw [h] at hj
      exact Or.inr (Or.inl ⟨j, hj, .refl j⟩)
    · rw [h] at hj
      cases hj
  · intro hm
    rcases hstate with h | h | h
    · exact Or.inl (h.symm.trans hm)
    · exact absurd hm h
    · exact Or.inr h

theorem StepSpec.of_job {sh : Shared} {v v' : View} {j : MiningJob} (fee : Bool)
    (hjob : v'.held fee = some j)
    (hj : j.Agrees (sh.job fee) ∨ ∃ k, v.held fee = some k ∧ j.Agrees k)
    (hother : v'.held (!fee) = v.held (!fee) ∨ v'.held (!fee) = none) :
    StepSpec sh v v' sh.m_state := by
  refine ⟨fun b i hi => ?_, Or.inl⟩
  by_cases hb : b = fee
  · subst hb
    rw [hjob, Option.mem_some_iff] at hi
    subst hi
    exact hj.imp_right Or.inl
  · have hb' : b = !fee := Bool.eq_not.mpr hb
    subst hb'
    rcases hother with h | h
    · exact Or.inr (Or.inl ⟨i, h ▸ hi, .refl i⟩)
    · rw [h] at hi
      cases hi

end MinerGate
