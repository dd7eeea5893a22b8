import MinerGate.Qt.Json

/-!
# The JSON-RPC client

Each function below is the method of `JsonRpcClient` or `JsonRpcQueueHandler` with its
name. The socket is seen through its state and through what the client did with it: the
hosts dialled and, for each connection made, the requests written to it. The timers count
as running or not; their ticks are events of the systems that use the client.
-/

namespace MinerGate.JsonRpc

set_option autoImplicit false

structure Url where
  host : String
  port : Nat
deriving DecidableEq, Repr

inductive SocketState where
  | unconnected
  | hostLookup
  | connecting
  | connected
deriving DecidableEq, Repr

/-- `connection` numbers the connections made, `dials` and `written` are newest first. -/
structure Socket where
  state : SocketState
  peer : Url
  connection : Nat
  dials : List Url
  written : List (Nat × JsonObject)

namespace Socket

/-- A call while a connection is being made or is there is refused by the socket. -/
def connectToHost (s : Socket) (url : Url) : Socket :=
  { s with
    dials := url :: s.dials
    state := if s.state = .unconnected then .hostLookup else s.state
    peer := if s.state = .unconnected then url else s.peer }

/-- `abort` and `close`; also what is left after an error. -/
def abort (s : Socket) : Socket := { s with state := .unconnected }

def hostFound (s : Socket) : Socket := { s with state := .connecting }

def establish (s : Socket) : Socket :=
  { s with state := .connected, connection := s.connection + 1 }

def write (s : Socket) (obj : JsonObject) : Socket :=
  { s with written := (s.connection, obj) :: s.written }

end Socket

def idOf (obj : JsonObject) : Nat := toULongLong (obj.value "id").toString

def methodOf (obj : JsonObject) : String := (obj.value "method").toString

/-- The keys of `m_req_in_progress` are the requests' ids as numbers. -/
structure JsonRpcQueueHandler where
  m_req_queue : List JsonObject
  m_req_in_progress : List (Nat × JsonObject)

namespace JsonRpcQueueHandler

def addRequest (q : JsonRpcQueueHandler) (obj : JsonObject) : JsonRpcQueueHandler :=
  { q with m_req_queue := q.m_req_queue ++ [obj] }

def getRequestForProcess (q : JsonRpcQueueHandler) : JsonObject × JsonRpcQueueHandler :=
  match q.m_req_queue with
  | [] => ([], q)
  | obj :: queue =>
    (obj, ⟨queue, q.m_req_in_progress.filter (fun p => p.1 ≠ idOf obj) ++ [(idOf obj, obj)]⟩)

def removeRequest (q : JsonRpcQueueHandler) (id : Nat) : JsonObject × JsonRpcQueueHandler :=
  ((q.m_req_in_progress.lookup id).getD [],
    { q with m_req_in_progress := q.m_req_in_progress.filter fun p => p.1 ≠ id })

def clear (q : JsonRpcQueueHandler) (full : Bool) : JsonRpcQueueHandler :=
  ⟨[], if full then [] else q.m_req_in_progress⟩

end JsonRpcQueueHandler

/-- The names that `setAdapter` finds in the adapter's signals; no response is nameless. -/
structure JsonRpcAdapter where
  requests : List String
  responses : List String
  notifications : List String
  named : "" ∉ responses

inductive Invocation where
  | error (code : Int) (message data : String) (request : JsonObject)
  | notification (method : String) (params : Json)
  | response (method : String) (result : Json)

/-- The timers' fields say whether the timer is active. -/
structure JsonRpcClient where
  m_url : Url
  m_sock : Socket
  m_id_counter : Nat
  m_request_queue : JsonRpcQueueHandler
  m_request_timer : Bool
  m_connect_timer : Bool
  m_bytes_to_write : Int

namespace JsonRpcClient

def new (url : Url) : JsonRpcClient where
  m_url := url
  m_sock := ⟨.unconnected, url, 0, [], []⟩
  m_id_counter := 0
  m_request_queue := ⟨[], []⟩
  m_request_timer := false
  m_connect_timer := false
  m_bytes_to_write := 0

def queue (c : JsonRpcClient) : List JsonObject := c.m_request_queue.m_req_queue

def progress (c : JsonRpcClient) : List (Nat × JsonObject) := c.m_request_queue.m_req_in_progress

def setUrl (c : JsonRpcClient) (url : Url) : JsonRpcClient := { c with m_url := url }

def dial (c : JsonRpcClient) : JsonRpcClient :=
  { c with m_sock := c.m_sock.connectToHost c.m_url }

def abort (c : JsonRpcClient) : JsonRpcClient := { c with m_sock := c.m_sock.abort }

/-- `timerTick`: the sender of the call is the connect timer. -/
def connectToHost (c : JsonRpcClient) (timerTick : Bool) : JsonRpcClient :=
  let c := { c with m_bytes_to_write := 0 }
  if c.m_connect_timer ∧ ¬ timerTick then c
  else match c.m_sock.state with
    | .connected => c
    | .connecting => c.abort.dial
    | _ => c.dial

def reset (c : JsonRpcClient) (full : Bool) : JsonRpcClient :=
  { c with m_request_queue := c.m_request_queue.clear full }

def disconnectFromHost (c : JsonRpcClient) : JsonRpcClient :=
  { c.abort with m_connect_timer := false }.reset true

def setProxy (c : JsonRpcClient) : JsonRpcClient := c.disconnectFromHost.connectToHost false

def messageSize (obj : JsonObject) : Int := ((Json.obj obj).compact ++ "\n\n").utf8ByteSize

def write (c : JsonRpcClient) (obj : JsonObject) : JsonRpcClient :=
  { c with
    m_bytes_to_write := messageSize obj
    m_sock := c.m_sock.write obj
    m_request_timer := true }

def sendRequest (c : JsonRpcClient) : JsonRpcClient :=
  if c.m_connect_timer then c
  else if c.m_sock.state ≠ .connected then c.connectToHost false
  else if c.m_bytes_to_write > 0 then c
  else
    let (obj, queue) := c.m_request_queue.getRequestForProcess
    let c := { c with m_request_queue := queue }
    if obj.isEmpty then c else c.write obj

def createNewObject (c : JsonRpcClient) : JsonObject × JsonRpcClient :=
  let id := (c.m_id_counter + 1) % quint64Modulus
  ([("jsonrpc", .str "2.0"), ("id", .str id.repr)], { c with m_id_counter := id })

def newRequest (c : JsonRpcClient) (method : String) (args : Option Json) : JsonObject :=
  let obj := c.createNewObject.1.insert "method" (.str method)
  match args with
  | none => obj
  | some params => obj.insert "params" params

def jsonRpcMethod (c : JsonRpcClient) (method : String) (args : Option Json) : JsonRpcClient :=
  let c' := c.createNewObject.2
  let queue := c'.m_request_queue.addRequest (c.newRequest method args)
  { c' with m_request_queue := queue }.sendRequest

section ProcessData
variable (adapter : JsonRpcAdapter)

def takeRequest (c : JsonRpcClient) (id : Nat) : JsonObject × JsonRpcClient :=
  ((c.m_request_queue.removeRequest id).1,
    { c with m_request_queue := (c.m_request_queue.removeRequest id).2 })

def listOrMap : Json → Option Json
  | .arr items => some (.arr items)
  | .obj entries => some (.obj entries)
  | _ => none

def listMapOrBool : Json → Option Json
  | .bool b => some (.bool b)
  | v => listOrMap v

def errorInvocation (obj request : JsonObject) : Invocation :=
  let error := (obj.value "error").toObject
  .error (error.value "code").toInt (error.value "message").toString (error.value "data").toString
    request

def processError (c : JsonRpcClient) (obj : JsonObject) : JsonRpcClient × Option Invocation :=
  if obj.contains "id" then
    let (request, c) := c.takeRequest (idOf obj)
    (c, some (errorInvocation obj request))
  else (c, some (errorInvocation obj []))

def processNotification (obj : JsonObject) : Option Invocation :=
  let params :=
    if obj.contains "params" then obj.value "params"
    else if obj.contains "result" then obj.value "result"
    else .null
  if methodOf obj ∈ adapter.notifications then
    (listOrMap params).map (.notification (methodOf obj))
  else none

def processResponse (c : JsonRpcClient) (obj : JsonObject) : JsonRpcClient × Option Invocation :=
  let (request, c) := { c with m_request_timer := false }.takeRequest (idOf obj)
  if obj.contains "result" ∨ obj.contains "params" then
    let result := if obj.contains "result" then obj.value "result" else obj.value "params"
    if methodOf request ∈ adapter.responses then
      (c, (listMapOrBool result).map (.response (methodOf request)))
    else (c, none)
  else (c, none)

def processData (c : JsonRpcClient) (obj : JsonObject) : JsonRpcClient × Option Invocation :=
  if obj.contains "error" ∧ ¬ (obj.value "error").isNull then c.processError obj
  else if ¬ obj.contains "id" then (c, processNotification adapter obj)
  else c.processResponse adapter obj

end ProcessData

def resetRequest (c : JsonRpcClient) : JsonRpcClient :=
  ({ c with m_request_timer := false }.abort.reset true).connectToHost false

def errorReset (c : JsonRpcClient) : JsonRpcClient := { c.reset true with m_request_timer := false }

def errorReconnect (c : JsonRpcClient) : JsonRpcClient :=
  if ¬ c.m_connect_timer then { c with m_connect_timer := true } else c

/-- The slot for the socket's error signal. The owner's slot for `socketErrorSignal` runs
between the two parts. -/
def error (c : JsonRpcClient) : JsonRpcClient := c.errorReset.errorReconnect

/-- The socket connects: `sendRequest` is called before the connect timer is stopped. -/
def connected (c : JsonRpcClient) : JsonRpcClient :=
  { { c with m_sock := c.m_sock.establish }.sendRequest with m_connect_timer := false }

def bytesWritten (c : JsonRpcClient) (bytes : Nat) : JsonRpcClient :=
  let c := { c with m_bytes_to_write := c.m_bytes_to_write - bytes }
  if c.m_bytes_to_write = 0 then c.sendRequest else c

section Facts
variable (c : JsonRpcClient) (url : Url) (tick : Bool) (full : Bool) (obj : JsonObject)

@[simp] theorem dial_queue : c.dial.m_request_queue = c.m_request_queue := rfl
@[simp] theorem dial_counter : c.dial.m_id_counter = c.m_id_counter := rfl
@[simp] theorem dial_dials : c.dial.m_sock.dials = c.m_url :: c.m_sock.dials := rfl
@[simp] theorem dial_connection : c.dial.m_sock.connection = c.m_sock.connection := rfl
@[simp] theorem dial_written : c.dial.m_sock.written = c.m_sock.written := rfl
@[simp] theorem abort_queue : c.abort.m_request_queue = c.m_request_queue := rfl
@[simp] theorem abort_counter : c.abort.m_id_counter = c.m_id_counter := rfl
@[simp] theorem abort_url : c.abort.m_url = c.m_url := rfl
@[simp] theorem abort_state : c.abort.m_sock.state = .unconnected := rfl
@[simp] theorem abort_dials : c.abort.m_sock.dials = c.m_sock.dials := rfl
@[simp] theorem abort_connection : c.abort.m_sock.connection = c.m_sock.connection := rfl
@[simp] theorem abort_written : c.abort.m_sock.written = c.m_sock.written := rfl
@[simp] theorem abort_connect_timer : c.abort.m_connect_timer = c.m_connect_timer := rfl
@[simp] theorem dial_connect_timer : c.dial.m_connect_timer = c.m_connect_timer := rfl
@[simp] theorem dial_request_timer : c.dial.m_request_timer = c.m_request_timer := rfl
@[simp] theorem abort_request_timer : c.abort.m_request_timer = c.m_request_timer := rfl
@[simp] theorem reset_counter : (c.reset full).m_id_counter = c.m_id_counter := rfl
@[simp] theorem reset_sock : (c.reset full).m_sock = c.m_sock := rfl
@[simp] theorem reset_connect_timer : (c.reset full).m_connect_timer = c.m_connect_timer := rfl
@[simp] theorem reset_queue : (c.reset full).m_request_queue = c.m_request_queue.clear full := rfl

theorem dial_state (h : c.m_sock.state ≠ .connecting ∧ c.m_sock.state ≠ .connected) :
    c.dial.m_sock.state = .hostLookup := by
  cases hs : c.m_sock.state with
  | unconnected | hostLookup => simp [dial, Socket.connectToHost, hs]
  | connecting => exact absurd hs h.1
  | connected => exact absurd hs h.2

theorem connectToHost_cases :
    ((c.m_connect_timer = true ∧ tick = false ∨ c.m_sock.state = .connected) ∧
      c.connectToHost tick = { c with m_bytes_to_write := 0 }) ∨
    (¬ (c.m_connect_timer = true ∧ tick = false) ∧ c.m_sock.state ≠ .connected ∧
      ∃ b : JsonRpcClient, (b = { c with m_bytes_to_write := 0 } ∨
          b = { c with m_bytes_to_write := 0 }.abort) ∧
        b.m_sock.state ≠ .connecting ∧ b.m_sock.state ≠ .connected ∧
        c.connectToHost tick = b.dial) := by
  by_cases ht : c.m_connect_timer = true ∧ tick = false
  · refine .inl ⟨.inl ht, ?_⟩
    simp [connectToHost, ht]
  · have ht' : ¬ (c.m_connect_timer = true ∧ ¬ tick = true) := by simpa using ht
    cases hs : c.m_sock.state with
    | connected =>
      refine .inl ⟨.inr rfl, ?_⟩
      simp only [connectToHost, hs, if_neg ht']
    | connecting =>
      refine .inr ⟨ht, by decide, _, .inr rfl, by simp, by simp, ?_⟩
      simp only [connectToHost, hs, if_neg ht']
    | unconnected | hostLookup =>
      refine .inr ⟨ht, by decide, _, .inl rfl, by simp [hs], by simp [hs], ?_⟩
      simp only [connectToHost, hs, if_neg ht']

theorem errorReconnect_eq : c.errorReconnect = { c with m_connect_timer := true } := by
  rw [errorReconnect]
  cases ht : c.m_connect_timer with
  | false => rfl
  | true =>
    rw [if_neg (by simp), ← ht]

theorem connectToHost_of_connected (h : c.m_sock.state = .connected) :
    c.connectToHost tick = { c with m_bytes_to_write := 0 } := by
  rcases c.connectToHost_cases tick with ⟨-, h'⟩ | ⟨-, h', -⟩
  · exact h'
  · exact absurd h h'

@[simp] theorem connectToHost_queue :
    (c.connectToHost tick).m_request_queue = c.m_request_queue := by
  rcases c.connectToHost_cases tick with ⟨-, h⟩ | ⟨-, -, b, rfl | rfl, -, -, h⟩ <;>
    simp [h]

@[simp] theorem connectToHost_counter : (c.connectToHost tick).m_id_counter = c.m_id_counter := by
  rcases c.connectToHost_cases tick with ⟨-, h⟩ | ⟨-, -, b, rfl | rfl, -, -, h⟩ <;>
    simp [h]

@[simp] theorem connectToHost_connection :
    (c.connectToHost tick).m_sock.connection = c.m_sock.connection := by
  rcases c.connectToHost_cases tick with ⟨-, h⟩ | ⟨-, -, b, rfl | rfl, -, -, h⟩ <;>
    simp [h]

@[simp] theorem connectToHost_written :
    (c.connectToHost tick).m_sock.written = c.m_sock.written := by
  rcases c.connectToHost_cases tick with ⟨-, h⟩ | ⟨-, -, b, rfl | rfl, -, -, h⟩ <;>
    simp [h]

@[simp] theorem connectToHost_connect_timer :
    (c.connectToHost tick).m_connect_timer = c.m_connect_timer := by
  rcases c.connectToHost_cases tick with ⟨-, h⟩ | ⟨-, -, b, rfl | rfl, -, -, h⟩ <;>
    simp [h]

@[simp] theorem connectToHost_request_timer :
    (c.connectToHost tick).m_request_timer = c.m_request_timer := by
  rcases c.connectToHost_cases tick with ⟨-, h⟩ | ⟨-, -, b, rfl | rfl, -, -, h⟩ <;>
    simp [h]

theorem connectToHost_state_connected :
    (c.connectToHost tick).m_sock.state = .connected ↔ c.m_sock.state = .connected := by
  rcases c.connectToHost_cases tick with ⟨-, h⟩ | ⟨-, hs, b, -, h1, h2, h⟩
  · rw [h]
  · rw [h, dial_state b ⟨h1, h2⟩]
    simp [hs]

theorem connectToHost_dials_le :
    c.m_sock.dials.length ≤ (c.connectToHost tick).m_sock.dials.length := by
  rcases c.connectToHost_cases tick with ⟨-, h⟩ | ⟨-, -, b, rfl | rfl, -, -, h⟩ <;>
    simp [h]

theorem connectToHost_dials_of_down (ht : c.m_connect_timer = false)
    (hs : c.m_sock.state = .unconnected) :
    (c.connectToHost tick).m_sock.dials = c.m_url :: c.m_sock.dials := by
  rcases c.connectToHost_cases tick with ⟨h | h, -⟩ | ⟨-, -, b, rfl | rfl, -, -, h⟩
  · rw [ht] at h
    cases h.1
  · rw [hs] at h
    cases h
  · rw [h]
    rfl
  · rw [h]
    rfl

theorem resetRequest_dials_le : c.m_sock.dials.length ≤ c.resetRequest.m_sock.dials.length :=
  ({ c with m_request_timer := false }.abort.reset true).connectToHost_dials_le false

theorem resetRequest_dials (ht : c.m_connect_timer = false) :
    c.resetRequest.m_sock.dials = c.m_url :: c.m_sock.dials :=
  ({ c with m_request_timer := false }.abort.reset true).connectToHost_dials_of_down false ht rfl

theorem setProxy_dials : c.setProxy.m_sock.dials = c.m_url :: c.m_sock.dials :=
  c.disconnectFromHost.connectToHost_dials_of_down false rfl rfl

def dequeue : JsonRpcClient :=
  { c with m_request_queue := c.m_request_queue.getRequestForProcess.2 }

variable {c obj}

theorem dequeue_queue {rest : List JsonObject} (hq : c.queue = obj :: rest) :
    c.dequeue.queue = rest := by
  simp only [queue] at hq
  simp [queue, dequeue, JsonRpcQueueHandler.getRequestForProcess, hq]

theorem mem_dequeue_progress {rest : List JsonObject} (hq : c.queue = obj :: rest)
    {p : Nat × JsonObject} (hp : p ∈ c.dequeue.progress) :
    p ∈ c.progress ∨ p = (idOf obj, obj) := by
  simp only [queue] at hq
  simp only [progress, dequeue, JsonRpcQueueHandler.getRequestForProcess, hq, List.mem_append,
    List.mem_filter, List.mem_singleton] at hp
  exact hp.imp_left And.left

variable (c)

theorem sendRequest_cases :
    c.sendRequest = c ∨
    (c.m_sock.state ≠ .connected ∧ c.m_connect_timer = false ∧
      c.sendRequest = c.connectToHost false) ∨
    (c.m_sock.state = .connected ∧ c.m_connect_timer = false ∧ c.m_bytes_to_write ≤ 0 ∧
      ∃ obj rest, c.queue = obj :: rest ∧
        (obj.isEmpty = true ∧ c.sendRequest = c.dequeue ∨
          obj.isEmpty = false ∧ c.sendRequest = c.dequeue.write obj)) := by
  by_cases ht : c.m_connect_timer = true
  · exact .inl (if_pos ht)
  · rw [Bool.not_eq_true] at ht
    by_cases hs : c.m_sock.state = .connected
    · by_cases hb : c.m_bytes_to_write > 0
      · refine .inl ?_
        simp [sendRequest, ht, hs, hb]
      · have hgo : c.sendRequest =
            if c.m_request_queue.getRequestForProcess.1.isEmpty then c.dequeue
            else c.dequeue.write c.m_request_queue.getRequestForProcess.1 := by
          rw [sendRequest, if_neg (by simp [ht]), if_neg (by simp [hs]), if_neg hb]
          rfl
        cases hq : c.m_request_queue.m_req_queue with
        | nil =>
          have hget : c.m_request_queue.getRequestForProcess = ([], c.m_request_queue) := by
            simp [JsonRpcQueueHandler.getRequestForProcess, hq]
          rw [dequeue, hget] at hgo
          exact .inl hgo
        | cons obj rest =>
          have hget : c.m_request_queue.getRequestForProcess.1 = obj := by
            simp [JsonRpcQueueHandler.getRequestForProcess, hq]
          rw [hget] at hgo
          refine .inr (.inr ⟨hs, ht, Int.not_lt.mp hb, obj, rest, hq, ?_⟩)
          cases ho : obj.isEmpty with
          | true => exact .inl ⟨rfl, by rw [hgo, if_pos ho]⟩
          | false => exact .inr ⟨rfl, by rw [hgo, if_neg (by simp [ho])]⟩
    · refine .inr (.inl ⟨hs, ht, ?_⟩)
      simp [sendRequest, ht, hs]

theorem sendRequest_state_connected :
    c.sendRequest.m_sock.state = .connected ↔ c.m_sock.state = .connected := by
  rcases c.sendRequest_cases with h | ⟨-, -, h⟩ | ⟨-, -, -, obj, rest, -, ⟨-, h⟩ | ⟨-, h⟩⟩
  · rw [h]
  · rw [h]
    exact c.connectToHost_state_connected false
  · rw [h]
    exact Iff.rfl
  · rw [h]
    exact Iff.rfl

theorem sendRequest_dials_le : c.m_sock.dials.length ≤ c.sendRequest.m_sock.dials.length := by
  rcases c.sendRequest_cases with h | ⟨-, -, h⟩ | ⟨-, -, -, obj, rest, -, ⟨-, h⟩ | ⟨-, h⟩⟩
  · exact Nat.le_of_eq (by rw [h])
  · rw [h]
    exact c.connectToHost_dials_le false
  · rw [h]
    exact Nat.le_refl _
  · rw [h]
    exact Nat.le_refl _

theorem sendRequest_dials_of_down (ht : c.m_connect_timer = false)
    (hs : c.m_sock.state = .unconnected) :
    c.sendRequest.m_sock.dials = c.m_url :: c.m_sock.dials := by
  have h : c.sendRequest = c.connectToHost false := by simp [sendRequest, ht, hs]
  rw [h]
  exact c.connectToHost_dials_of_down false ht hs

end Facts

section NewRequest
variable (c : JsonRpcClient) (method : String) (args : Option Json)

def nextId : Nat := (c.m_id_counter + 1) % quint64Modulus

theorem idOf_newRequest : idOf (c.newRequest method args) = c.nextId := by
  have hid : (c.newRequest method args).value "id" = .str c.nextId.repr := by
    cases args <;>
      simp [newRequest, createNewObject, JsonObject.insert, JsonObject.value, nextId,
        List.lookup_cons]
  rw [idOf, hid]
  exact toULongLong_repr (Nat.mod_lt _ (by decide))

theorem methodOf_newRequest : methodOf (c.newRequest method args) = method := by
  have hmethod : (c.newRequest method args).value "method" = .str method := by
    cases args <;>
      simp [newRequest, createNewObject, JsonObject.insert, JsonObject.value, List.lookup_cons]
  rw [methodOf, hmethod]
  rfl

theorem params_newRequest (params : Json) :
    (c.newRequest method (some params)).value "params" = params := by
  simp [newRequest, createNewObject, JsonObject.insert, JsonObject.value, List.lookup_cons]

theorem newRequest_ne_nil : (c.newRequest method args).isEmpty = false := by
  cases args <;> simp [newRequest, createNewObject, JsonObject.insert]

def enqueue : JsonRpcClient :=
  { c with
    m_id_counter := c.nextId
    m_request_queue := c.m_request_queue.addRequest (c.newRequest method args) }

theorem jsonRpcMethod_dials_le :
    c.m_sock.dials.length ≤ (c.jsonRpcMethod method args).m_sock.dials.length :=
  (c.enqueue method args).sendRequest_dials_le

theorem jsonRpcMethod_dials_of_down (ht : c.m_connect_timer = false)
    (hs : c.m_sock.state = .unconnected) :
    (c.jsonRpcMethod method args).m_sock.dials = c.m_url :: c.m_sock.dials :=
  (c.enqueue method args).sendRequest_dials_of_down ht hs

end NewRequest

section ProcessDataFacts
variable (adapter : JsonRpcAdapter) (c : JsonRpcClient) (obj : JsonObject)

theorem exists_request_of_response {id : Nat}
    (h : methodOf (c.takeRequest id).1 ∈ adapter.responses) :
    ∃ request, (id, request) ∈ c.progress ∧
      (c.takeRequest id).1 = request := by
  cases hl : c.m_request_queue.m_req_in_progress.lookup id with
  | none =>
    have hnil : (c.takeRequest id).1 = [] := by
      simp [takeRequest, JsonRpcQueueHandler.removeRequest, hl]
    rw [hnil] at h
    exact absurd h adapter.named
  | some request =>
    refine ⟨request, ?_, by simp [takeRequest, JsonRpcQueueHandler.removeRequest, hl]⟩
    obtain ⟨l₁, l₂, hl, -⟩ := List.lookup_eq_some_iff.mp hl
    rw [progress, hl]
    simp

theorem processError_cases :
    ((c.processError obj).1 = c ∨ (c.processError obj).1 = (c.takeRequest (idOf obj)).2) ∧
      ∃ code message data request,
        (c.processError obj).2 = some (.error code message data request) := by
  rw [processError]
  split
  case isTrue => exact ⟨.inr rfl, _, _, _, _, rfl⟩
  case isFalse => exact ⟨.inl rfl, _, _, _, _, rfl⟩

theorem processNotification_cases :
    processNotification adapter obj = none ∨
      ∃ params, processNotification adapter obj = some (.notification (methodOf obj) params) := by
  rw [processNotification]
  split
  case isFalse => exact .inl rfl
  case isTrue =>
    cases h : listOrMap _ with
    | none => exact .inl (by simp)
    | some params => exact .inr ⟨params, by simp⟩

theorem processResponse_cases :
    (c.processResponse adapter obj).1 =
        ({ c with m_request_timer := false }.takeRequest (idOf obj)).2 ∧
      ((c.processResponse adapter obj).2 = none ∨
        methodOf (c.takeRequest (idOf obj)).1 ∈ adapter.responses ∧
          ∃ v, (c.processResponse adapter obj).2 =
            some (.response (methodOf (c.takeRequest (idOf obj)).1) v)) := by
  have htake : ({ c with m_request_timer := false }.takeRequest (idOf obj)).1 =
      (c.takeRequest (idOf obj)).1 := rfl
  by_cases hr : obj.contains "result" = true ∨ obj.contains "params" = true
  · by_cases hm : methodOf (c.takeRequest (idOf obj)).1 ∈ adapter.responses
    · simp only [processResponse, htake, if_pos hr, if_pos hm]
      refine ⟨trivial, ?_⟩
      cases listMapOrBool _ with
      | none => exact .inl rfl
      | some v => exact .inr ⟨hm, v, rfl⟩
    · simp only [processResponse, htake, if_pos hr, if_neg hm]
      exact ⟨trivial, .inl trivial⟩
  · simp only [processResponse, if_neg hr]
    exact ⟨trivial, .inl trivial⟩

theorem processData_cases :
    ((obj.contains "error" ∧ ¬ (obj.value "error").isNull) ∧
        c.processData adapter obj = c.processError obj) ∨
      (¬ (obj.contains "error" ∧ ¬ (obj.value "error").isNull) ∧ ¬ obj.contains "id" ∧
        c.processData adapter obj = (c, processNotification adapter obj)) ∨
      c.processData adapter obj = c.processResponse adapter obj := by
  rw [processData]
  split
  case isTrue herror => exact .inl ⟨herror, rfl⟩
  case isFalse herror =>
    split
    case isTrue hid => exact .inr (.inl ⟨herror, hid, rfl⟩)
    case isFalse => exact .inr (.inr rfl)

/-- A line takes at most the request with its id, and may stop the request timer. -/
theorem processData_client :
    (c.processData adapter obj).1 = c ∨ ∃ timer,
      (c.processData adapter obj).1 =
        ({ c with m_request_timer := timer }.takeRequest (idOf obj)).2 := by
  rcases c.processData_cases adapter obj with ⟨-, h⟩ | ⟨-, -, h⟩ | h
  · rw [h]
    exact (c.processError_cases obj).1.imp_right fun htake => ⟨c.m_request_timer, htake⟩
  · rw [h]
    exact .inl rfl
  · rw [h]
    exact .inr ⟨false, (c.processResponse_cases adapter obj).1⟩

@[simp] theorem processData_sock : (c.processData adapter obj).1.m_sock = c.m_sock := by
  rcases c.processData_client adapter obj with h | ⟨timer, h⟩
  · rw [h]
  · rw [h]
    rfl

@[simp] theorem processData_bytes_to_write :
    (c.processData adapter obj).1.m_bytes_to_write = c.m_bytes_to_write := by
  rcases c.processData_client adapter obj with h | ⟨timer, h⟩
  · rw [h]
  · rw [h]
    rfl

@[simp] theorem processData_connect_timer :
    (c.processData adapter obj).1.m_connect_timer = c.m_connect_timer := by
  rcases c.processData_client adapter obj with h | ⟨timer, h⟩
  · rw [h]
  · rw [h]
    rfl

end ProcessDataFacts

end JsonRpcClient

end MinerGate.JsonRpc
