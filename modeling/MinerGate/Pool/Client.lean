import MinerGate.JsonRpc.Client
import MinerGate.Lib.Transition
import MinerGate.Miner.Job

/-!
# What the two pool clients share

`StratumClient` and `PoolClient` differ in the messages they exchange with the pool, not in
how they connect, log in and stop. A request of the client travels in two queued calls,
from the adapter's signal to `JsonRpcMethodProxy::method` and from there to
`JsonRpcClient::jsonRpcMethod`, before it reaches the queue of requests.
-/

namespace MinerGate.Pool

set_option autoImplicit false

open JsonRpc

inductive PoolState where
  | Connected
  | Error
deriving DecidableEq, Repr

inductive Signal where
  | stateChanged (state : PoolState)
  | newJob (job : MiningJob)
  | shareSubmitted
  | shareError
  | jobDifficultyChanged (diff : Nat)
deriving DecidableEq, Repr

inductive Slot where
  | method
  | jsonRpcMethod
deriving DecidableEq, Repr

structure QueuedCall where
  slot : Slot
  method : String
  args : Json

/-- The handler under way: the loop of `readyRead` with the objects of its remaining lines, or
the slot for a socket error, whose signal has just been handled. -/
inductive Handler where
  | none
  | readyRead (rest : List JsonObject)
  | error

/-- `session` is `m_current_session_id` or `m_currentWorkerId`. The last two fields are
history, newest first: the signals with the state of the socket they were emitted in, and the
ids granted by a login response with the connection it came from. -/
structure Client where
  rpc : JsonRpcClient
  userAgent : String
  m_worker : String
  m_password : String
  session : Option String
  m_login_timer : Bool
  calls : List QueuedCall
  handler : Handler
  emitted : List (SocketState × Signal)
  granted : List (Nat × String)

namespace Client

def new (url : Url) (userAgent worker password : String) : Client where
  rpc := .new url
  userAgent := userAgent
  m_worker := worker
  m_password := password
  session := none
  m_login_timer := false
  calls := []
  handler := .none
  emitted := []
  granted := []

def emit (s : Client) (signal : Signal) : Client :=
  { s with emitted := (s.rpc.m_sock.state, signal) :: s.emitted }

def request (s : Client) (method : String) (args : Json) : Client :=
  { s with calls := s.calls ++ [⟨.method, method, args⟩] }

def connectToHost (s : Client) : Client := { s with rpc := s.rpc.connectToHost false }

def reset (s : Client) (full : Bool) : Client := { s with rpc := s.rpc.reset full }

def start (s : Client) : Client := if s.session.isSome then s else s.connectToHost

def stop (s : Client) : Client :=
  { s with
    m_login_timer := false
    rpc := s.rpc.disconnectFromHost
    session := none }.emit (.jobDifficultyChanged 0)

def setPool (s : Client) (url : Url) : Client := { s with rpc := s.rpc.setUrl url }

def switchToPool (s : Client) (url : Url) : Client :=
  if url ≠ s.rpc.m_url then (s.stop.setPool url).start else s

def setWorkerName (s : Client) (worker : String) : Client := { s with m_worker := worker }

def tryLogin (s : Client) : Client :=
  s.request "login"
    (.obj [("agent", .str s.userAgent), ("login", .str s.m_worker), ("pass", .str s.m_password)])

/-- The request for the current job, which takes the session as it is, also a null one. -/
def updateJob (method : String) (s : Client) : Client :=
  s.request method (.obj [("id", .str (s.session.getD ""))])

def socketError (s : Client) : Client :=
  { s.reset true with session := none }.emit (.stateChanged .Error)

def updateProxy (s : Client) : Client := { s with rpc := s.rpc.setProxy }

/-- The id that a login response grants, for the record. -/
def grant (s : Client) (id : Option String) : Client :=
  { s with
    session := id
    granted := (id.toList.map fun i => (s.rpc.m_sock.connection, i)) ++ s.granted }

end Client

/-- What a pool client adds: its adapter, the slots for the adapter's signals, and
`submitShare`. A slot that reads past its arguments, or is invoked with arguments of another
type, is undefined behaviour: `none`. -/
structure Protocol where
  adapter : JsonRpcAdapter
  invoke : Client → Invocation → Option Client
  submitShare : Client → QByteArray → Nat → QByteArray → Client

inductive Event where
  | start
  | stop
  | switchToPool (url : Url)
  | setPool (url : Url)
  | setWorkerName (worker : String)
  | submitShare (jobId : QByteArray) (nonce : Nat) (hash : QByteArray)
  /-- The `k`-th queued call is delivered. -/
  | deliver (k : Nat)
  | loginTimeout
  | connectTimeout
  | requestTimeout
  | updateProxy
  | hostFound
  | connected
  | socketError
  | bytesWritten (bytes : Nat)
  /-- A segment arrives, whose lines give these objects. -/
  | readyRead (objs : List JsonObject)
  /-- The handler under way goes on. -/
  | proceed

namespace Client
variable (P : Protocol)

/-- A queued call reaches its slot; the proxy's slot queues the second call. -/
def deliver (s : Client) (k : Nat) : Option Client :=
  match s.calls[k]? with
  | none => none
  | some call =>
    let s := { s with calls := s.calls.eraseIdx k }
    match call.slot with
    | .method => some { s with calls := s.calls ++ [{ call with slot := .jsonRpcMethod }] }
    | .jsonRpcMethod => some { s with rpc := s.rpc.jsonRpcMethod call.method (some call.args) }

def processLine (s : Client) (obj : JsonObject) : Option Client :=
  match s.rpc.processData P.adapter obj with
  | (rpc, none) => some { s with rpc := rpc }
  | (rpc, some invocation) => P.invoke { s with rpc := rpc } invocation

def proceed (s : Client) : Option Client :=
  match s.handler with
  | .none => none
  | .readyRead (obj :: rest) => processLine P { s with handler := .readyRead rest } obj
  | .readyRead [] => some { s with rpc := s.rpc.sendRequest, handler := .none }
  | .error => some { s with rpc := s.rpc.errorReconnect, handler := .none }

/-- The event loop takes its next event only when no handler is under way. -/
def whenIdle (s : Client) (enabled : Prop) [Decidable enabled] (t : Client) : Option Client :=
  match s.handler with
  | .none => if enabled then some t else none
  | _ => none

def deliverWhenIdle (s : Client) (k : Nat) : Option Client :=
  match s.handler with
  | .none => s.deliver k
  | _ => none

/-- Calls from outside come at any time, also from the slots for the client's signals. -/
def step (s : Client) : Event → Option Client
  | .start => some s.start
  | .stop => some s.stop
  | .switchToPool url => some (s.switchToPool url)
  | .setPool url => some (s.setPool url)
  | .setWorkerName worker => some (s.setWorkerName worker)
  | .submitShare jobId nonce hash => some (P.submitShare s jobId nonce hash)
  | .deliver k => s.deliverWhenIdle k
  | .loginTimeout => s.whenIdle (s.m_login_timer = true) s.tryLogin
  | .connectTimeout =>
    s.whenIdle (s.rpc.m_connect_timer = true) { s with rpc := s.rpc.connectToHost true }
  | .requestTimeout =>
    s.whenIdle (s.rpc.m_request_timer = true) { s with rpc := s.rpc.resetRequest }
  | .updateProxy => s.whenIdle True s.updateProxy
  | .hostFound =>
    s.whenIdle (s.rpc.m_sock.state = .hostLookup)
      { s with rpc := { s.rpc with m_sock := s.rpc.m_sock.hostFound } }
  | .connected =>
    s.whenIdle (s.rpc.m_sock.state = .connecting) { s.tryLogin with rpc := s.rpc.connected }
  | .socketError =>
    s.whenIdle (s.rpc.m_sock.state ≠ .unconnected)
      { { s with rpc := s.rpc.abort.errorReset }.socketError with handler := .error }
  | .bytesWritten bytes =>
    s.whenIdle (s.rpc.m_sock.state = .connected) { s with rpc := s.rpc.bytesWritten bytes }
  | .readyRead objs =>
    s.whenIdle (s.rpc.m_sock.state = .connected) { s with handler := .readyRead objs }
  | .proceed => proceed P s

end Client

end MinerGate.Pool
