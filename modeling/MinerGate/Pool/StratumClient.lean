import MinerGate.Pool.Client

/-!
# The CryptoNote pool client
-/

namespace MinerGate.Pool

set_option autoImplicit false

open JsonRpc QByteArray

inductive CryptonotePoolError where
  | NoError
  | WrongParam
  | InvalidShareData
  | InvalidJobId
  | UnknownJobShare
  | SlightlyStaleShare
  | ReallyStaleShare
  | DuplicateShare
  | InvalidShare
  | CanGetJob
  | UnknownWorker
  | UnknownWorkerSession
  | InvalidWorkerSessionId
  | UnknownError
  | WorkerSessionMismatch
deriving DecidableEq, Repr

/-- The enumerator with the code; any other code reaches the default branches as well. -/
def CryptonotePoolError.ofCode (code : Int) : Option CryptonotePoolError :=
  [(0, NoError), (-1, WrongParam), (-13, InvalidShareData), (-14, InvalidJobId),
    (-15, UnknownJobShare), (-16, SlightlyStaleShare), (-17, ReallyStaleShare),
    (-18, DuplicateShare), (-19, InvalidShare), (-20, CanGetJob), (-21, UnknownWorker),
    (-22, UnknownWorkerSession), (-23, InvalidWorkerSessionId), (-24, UnknownError),
    (-25, WorkerSessionMismatch)].lookup code

def StratumAdapter : JsonRpcAdapter where
  requests := ["login", "getjob", "submit"]
  responses := ["login", "getjob", "submit"]
  notifications := ["job"]
  named := by decide

namespace StratumClient

def start : Client → Client := Client.start
def stop : Client → Client := Client.stop
def switchToPool : Client → Url → Client := Client.switchToPool
def setPool : Client → Url → Client := Client.setPool
def setWorkerName : Client → String → Client := Client.setWorkerName
def tryLogin : Client → Client := Client.tryLogin
def updateJob : Client → Client := Client.updateJob "getjob"
def updateProxy : Client → Client := Client.updateProxy
def socketError : Client → Client := Client.socketError

def getDifficultyForTarget (target : Nat) : Nat :=
  if target = 0 then 4294967295 else 4294967295 / target

def submitParams (id : String) (jobId : QByteArray) (nonce : Nat) (result : QByteArray) : Json :=
  .obj [("id", .str id), ("job_id", .str (fromUtf8 jobId)),
    ("nonce", .str (toHex (littleEndian 4 nonce))), ("result", .str (toHex result))]

/-- Nothing is submitted without a session; a null id is empty as well. -/
def submitShare (s : Client) (jobId : QByteArray) (nonce : Nat) (result : QByteArray) : Client :=
  if (s.session.getD "").isEmpty then s
  else s.request "submit" (submitParams (s.session.getD "") jobId nonce result)

def jobIdOf (jobMap : JsonObject) : String := (jobMap.value "job_id").variantToString.getD ""

/-- A target of fewer than four bytes is read as 0. -/
def jobTarget (jobMap : JsonObject) : Nat :=
  let target := fromHex ((jobMap.value "target").variantToString.getD "")
  if 4 ≤ target.length then arrayToQuint32 target else 0

def jobOf (jobMap : JsonObject) : MiningJob where
  job_id := toUtf8 (jobIdOf jobMap)
  blob := fromHex ((jobMap.value "blob").variantToString.getD "")
  target := quint32ToArray (jobTarget jobMap)

def setNewJob (s : Client) (jobMap : JsonObject) : Client :=
  if (jobIdOf jobMap).isEmpty then s
  else
    ((s.reset false).emit (.newJob (jobOf jobMap))).emit
      (.jobDifficultyChanged (getDifficultyForTarget (jobTarget jobMap)))

def login (s : Client) (params : JsonObject) : Client :=
  let s := { s.emit (.stateChanged .Connected) with m_login_timer := false }
  if (params.value "status").variantToString.getD "" ≠ "OK" then s
  else
    setNewJob ((s.emit (.stateChanged .Connected)).grant (params.value "id").variantToString)
      (params.value "job").toObject

def getjob (s : Client) (params : JsonObject) : Client := setNewJob s params

def submit (s : Client) (params : JsonObject) : Client :=
  if (params.value "status").variantToString.getD "" ≠ "OK" then s else s.emit .shareSubmitted

def error (s : Client) (code : Int) : Client :=
  match CryptonotePoolError.ofCode code with
  | some .NoError => s
  | some .InvalidShareData
  | some .InvalidJobId
  | some .UnknownJobShare
  | some .SlightlyStaleShare
  | some .ReallyStaleShare
  | some .DuplicateShare
  | some .InvalidShare => updateJob ((s.reset false).emit .shareError)
  | some .CanGetJob => { stop s with m_login_timer := true }
  | _ => { stop ((stop s).emit (.newJob .empty)) with m_login_timer := true }

def invoke (s : Client) : Invocation → Option Client
  | .error code _ _ _ => some (error s code)
  | .response "login" (.obj params) => some (login s params)
  | .response "getjob" (.obj params) => some (getjob s params)
  | .response "submit" (.obj params) => some (submit s params)
  | .notification "job" (.obj params) => some (getjob s params)
  | _ => none

def protocol : Protocol where
  adapter := StratumAdapter
  invoke := invoke
  submitShare := submitShare

theorem processLine_eq {s : Client} {obj : JsonObject} :
    Client.processLine protocol s obj =
      match s.rpc.processData StratumAdapter obj with
      | (rpc, none) => some { s with rpc := rpc }
      | (rpc, some invocation) => invoke { s with rpc := rpc } invocation := rfl

theorem processLine_cases {s t : Client} {obj : JsonObject}
    (h : Client.processLine protocol s obj = some t) :
    (∃ rpc, s.rpc.processData StratumAdapter obj = (rpc, none) ∧ t = { s with rpc := rpc }) ∨
    ∃ rpc i, s.rpc.processData StratumAdapter obj = (rpc, some i) ∧
      invoke { s with rpc := rpc } i = some t := by
  rw [processLine_eq] at h
  split at h
  case h_1 rpc hdata =>
    cases h
    exact Or.inl ⟨rpc, hdata, rfl⟩
  case h_2 rpc i hdata => exact Or.inr ⟨rpc, i, hdata, h⟩

end StratumClient

end MinerGate.Pool
