import MinerGate.Ethereum.FixedHash
import MinerGate.Pool.Client

/-!
# The Ethereum pool client
-/

namespace MinerGate.Pool

set_option autoImplicit false

open JsonRpc QByteArray

inductive EthereumPoolError where
  | NoError
  | InvalidShare
  | StaleJob
  | StaleJob2
  | DuplicateShare
  | LowDifficultyShare
  | UnauthorizedWorker
  | Timeout
  | CantGenerateJob
deriving DecidableEq, Repr

def EthereumPoolError.ofCode (code : Int) : Option EthereumPoolError :=
  [(0, NoError), (20, InvalidShare), (21, StaleJob), (-21, StaleJob2), (-22, DuplicateShare),
    (-23, LowDifficultyShare), (-24, UnauthorizedWorker), (-42, Timeout),
    (-32002, CantGenerateJob)].lookup code

def EthStratumAdapter : JsonRpcAdapter where
  requests := ["login", "eth_getWork", "eth_submitWork"]
  responses := ["login", "eth_getWork", "eth_submitWork"]
  notifications := ["eth_work"]
  named := by decide

namespace PoolClient

def start : Client → Client := Client.start
def stop : Client → Client := Client.stop
def switchToPool : Client → Url → Client := Client.switchToPool
def setPool : Client → Url → Client := Client.setPool
def setWorkerName : Client → String → Client := Client.setWorkerName
def tryLogin : Client → Client := Client.tryLogin
def updateJob : Client → Client := Client.updateJob "eth_getWork"
def updateProxy : Client → Client := Client.updateProxy
def socketError : Client → Client := Client.socketError

def PHeaderHash : Nat := 0
def PSeedHash : Nat := 1
def PBoudary : Nat := 2
def PWorkerId : Nat := 3

def u256Modulus : Nat := 2 ^ 256

/-- The quotient is kept in 256 bits and then in 32; a boundary of zero cannot be divided by. -/
def getDifficultyForBoundary (boundary : Nat) : Option Nat :=
  if boundary = 0 then none else some (u256Modulus / boundary % u256Modulus % 4294967296)

def submitShare (s : Client) (headerHash : QByteArray) (nonce : Nat) (mixHash : QByteArray) :
    Client :=
  if (s.session.getD "").isEmpty then s
  else
    s.request "eth_submitWork" (.arr [.str (toHex (bigEndian 8 nonce)), .str (toHex headerHash),
      .str (toHex mixHash), .str (s.session.getD "")])

/-- An `int` assigned to a `QString` is one character of it. -/
def workerIdText (workerId : Int) : String := String.singleton (Char.ofNat (workerId % 256).toNat)

def setNewJob (s : Client) (jobParams : List Json) : Option Client := do
  let headerHash := fromHex ((← jobParams[PHeaderHash]?).variantToString.getD "")
  let seedHash := fromHex ((← jobParams[PSeedHash]?).variantToString.getD "")
  let boundary := fromHex ((← jobParams[PBoudary]?).variantToString.getD "")
  let workerId := (jobParams[PWorkerId]?.map Json.variantToInt).getD 0
  let s := if workerId ≠ 0 then s.grant (workerIdText workerId) else s
  let s := (s.reset false).emit (.newJob ⟨headerHash, seedHash, boundary⟩)
  let jobDiff ← getDifficultyForBoundary (← arrayToH256 boundary).arith
  return s.emit (.jobDifficultyChanged jobDiff)

def login (s : Client) (params : List Json) : Option Client := do
  let s := { s.emit (.stateChanged .Connected) with m_login_timer := false }
  let id := (← params[PWorkerId]?).variantToString
  setNewJob (s.grant id) params

def getjob (s : Client) (params : List Json) : Option Client := setNewJob s params

def submit (s : Client) (result : Bool) : Client := if result then s.emit .shareSubmitted else s

def error (s : Client) (code : Int) : Client :=
  match EthereumPoolError.ofCode code with
  | some .NoError => s
  | some .DuplicateShare
  | some .InvalidShare
  | some .StaleJob
  | some .StaleJob2
  | some .LowDifficultyShare => updateJob ((s.reset false).emit .shareError)
  | some .UnauthorizedWorker => { stop s with m_login_timer := true }
  | _ => { stop ((stop s).emit (.newJob .empty)) with m_login_timer := true }

/-- The connections made in the constructor. -/
def invoke (s : Client) : Invocation → Option Client
  | .error code _ _ _ => some (error s code)
  | .response "login" (.arr params) => login s params
  | .response "eth_getWork" (.arr params) => getjob s params
  | .response "eth_submitWork" (.bool result) => some (submit s result)
  | .notification "eth_work" (.arr params) => getjob s params
  | _ => none

def protocol : Protocol where
  adapter := EthStratumAdapter
  invoke := invoke
  submitShare := submitShare

end PoolClient

end MinerGate.Pool
