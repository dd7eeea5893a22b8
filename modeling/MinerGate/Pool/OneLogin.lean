import Mathlib.Data.List.Perm.Basic
import MinerGate.Pool.LoginRetry

/-!
# One login for each connection

A login request is made when a connection is there and when the login timer ticks. It travels in
two queued calls and waits in the queue of requests, from where it may be written to a later
connection.
-/

namespace MinerGate.Pool.OneLogin

set_option autoImplicit false

open JsonRpc Transition Client
open JsonRpcClient (isLogin)
open StratumClient (protocol setNewJob login getjob submit error invoke submitShare)

/-- The logins among the queued calls. -/
def callLogins (s : Client) : Nat := s.calls.countP fun call => call.method = "login"

def queuedLogins (c : JsonRpcClient) : Nat := c.queue.countP fun obj => isLogin obj

/-- The logins that were written to the connection that was made last. -/
def writtenLogins (s : Socket) : Nat :=
  s.written.countP fun p => p.1 = s.connection ∧ isLogin p.2

/-- The logins that are queued, or written and not answered. -/
def rpcLogins (c : JsonRpcClient) (answered : Bool) : Nat :=
  queuedLogins c +
    if c.m_sock.state = .connected ∧ answered = false then writtenLogins c.m_sock else 0

/-- The logins that are on their way, with a note of whether a login has been answered on the
connection. -/
def pending (p : Client × Bool) : Nat := callLogins p.1 + rpcLogins p.1.rpc p.2

/-- The next line is a reply to a login. -/
def answersLogin (s : Client) : Bool :=
  match s.handler with
  | .readyRead (obj :: _) =>
    obj.contains "id" && s.rpc.progress.any fun p => p.1 = idOf obj ∧ isLogin p.2
  | _ => false

def note (s : Client) (e : Event) (answered : Bool) : Bool :=
  match e with
  | .connected => false
  | .proceed => answered || answersLogin s
  | _ => answered

/-- Until a login is answered, at most one was written to the connection. -/
def LoginOnce (p : Client × Bool) : Prop :=
  p.1.rpc.m_sock.state = .connected → p.2 = false → writtenLogins p.1.rpc.m_sock ≤ 1

/-- A login is made only when no other one is on its way to the same connection. -/
def Alone (p : Client × Bool) : Event → Prop
  | .connected => callLogins p.1 + queuedLogins p.1.rpc = 0
  | .loginTimeout => pending p = 0
  | _ => True

instance (p : Client × Bool) (e : Event) : Decidable (Alone p e) := by
  unfold Alone
  split <;> infer_instance

section Rpc
variable {c d e : JsonRpcClient}

def Past (s : Socket) : Prop := ∀ p ∈ s.written, p.1 ≤ s.connection

/-- There are no more logins in `d` than in `c`. -/
structure Fewer (c d : JsonRpcClient) : Prop where
  logins : ∀ answered, rpcLogins d answered ≤ rpcLogins c answered
  past : Past c.m_sock → Past d.m_sock

theorem Fewer.refl (c : JsonRpcClient) : Fewer c c := ⟨fun _ => Nat.le_refl _, id⟩

theorem Fewer.trans (h : Fewer c d) (h' : Fewer d e) : Fewer c e :=
  ⟨fun answered => (h'.logins answered).trans (h.logins answered),
    fun hpast => h'.past (h.past hpast)⟩

theorem Fewer.of_eq (hqueue : d.queue = c.queue) (hsock : d.m_sock = c.m_sock) : Fewer c d := by
  constructor
  · intro answered
    unfold rpcLogins queuedLogins
    rw [hqueue, hsock]
  · rw [hsock]
    exact id

/-- A client whose connection is gone. -/
theorem Fewer.of_down (hqueue : queuedLogins d ≤ queuedLogins c)
    (hstate : d.m_sock.state ≠ .connected) (hwritten : d.m_sock.written = c.m_sock.written)
    (hconnection : d.m_sock.connection = c.m_sock.connection) : Fewer c d := by
  constructor
  · intro answered
    unfold rpcLogins
    rw [if_neg fun h => hstate h.1]
    omega
  · unfold Past
    rw [hwritten, hconnection]
    exact id

theorem connectToHost_fewer (c : JsonRpcClient) (tick : Bool) : Fewer c (c.connectToHost tick) := by
  constructor
  · intro answered
    unfold rpcLogins queuedLogins writtenLogins JsonRpcClient.queue
    rw [c.connectToHost_queue, c.connectToHost_written, c.connectToHost_connection]
    simp only [c.connectToHost_state_connected]
    exact Nat.le_refl _
  · unfold Past
    rw [c.connectToHost_written, c.connectToHost_connection]
    exact id

theorem dequeue_logins {obj : JsonObject} {rest : List JsonObject}
    (hqueue : c.queue = obj :: rest) :
    queuedLogins c = queuedLogins c.dequeue + if isLogin obj then 1 else 0 := by
  unfold queuedLogins
  rw [JsonRpcClient.dequeue_queue hqueue, hqueue, List.countP_cons]
  simp

/-- A request that is written leaves the queue. -/
theorem write_fewer {obj : JsonObject} {rest : List JsonObject} (hqueue : c.queue = obj :: rest) :
    Fewer c (c.dequeue.write obj) := by
  have hdequeue := dequeue_logins hqueue
  have hwrite : writtenLogins (c.dequeue.write obj).m_sock =
      writtenLogins c.m_sock + if isLogin obj then 1 else 0 := by
    have hhead : decide (c.m_sock.connection = c.m_sock.connection ∧ isLogin obj) =
        decide (isLogin obj) := by simp
    show ((c.m_sock.connection, obj) :: c.m_sock.written).countP
      (fun p => decide (p.1 = c.m_sock.connection ∧ isLogin p.2)) = _
    rw [List.countP_cons, hhead]
    simp only [decide_eq_true_eq]
    rfl
  constructor
  · intro answered
    show queuedLogins c.dequeue + _ ≤ _
    unfold rpcLogins
    have hstate : (c.dequeue.write obj).m_sock.state = c.m_sock.state := rfl
    rw [hwrite, hdequeue, hstate]
    split
    · omega
    · omega
  · intro hpast p hp
    rcases List.mem_cons.mp hp with rfl | hp
    · exact Nat.le_refl _
    · exact hpast p hp

theorem dequeue_fewer {obj : JsonObject} {rest : List JsonObject} (hqueue : c.queue = obj :: rest) :
    Fewer c c.dequeue := by
  have hdequeue := dequeue_logins hqueue
  refine ⟨fun answered => ?_, id⟩
  have hsock : c.dequeue.m_sock = c.m_sock := rfl
  unfold rpcLogins
  rw [hsock, hdequeue]
  omega

theorem sendRequest_fewer (c : JsonRpcClient) : Fewer c c.sendRequest := by
  rcases c.sendRequest_cases with
    hc | ⟨-, -, hc⟩ | ⟨-, -, -, obj, rest, hqueue, ⟨-, hc⟩ | ⟨-, hc⟩⟩
  · rw [hc]
    exact .refl c
  · rw [hc]
    exact connectToHost_fewer c false
  · rw [hc]
    exact dequeue_fewer hqueue
  · rw [hc]
    exact write_fewer hqueue

theorem reset_fewer (c : JsonRpcClient) (full : Bool) : Fewer c (c.reset full) := by
  refine ⟨fun answered => ?_, id⟩
  have hqueue : queuedLogins (c.reset full) = 0 := rfl
  have hsock : (c.reset full).m_sock = c.m_sock := rfl
  unfold rpcLogins
  rw [hqueue, hsock]
  omega

theorem disconnectFromHost_fewer (c : JsonRpcClient) : Fewer c c.disconnectFromHost :=
  .of_down (Nat.zero_le _) (fun hs => by cases hs) rfl rfl

theorem resetRequest_fewer (c : JsonRpcClient) : Fewer c c.resetRequest := by
  have hdown : Fewer c ({ c with m_request_timer := false }.abort.reset true) :=
    .of_down (Nat.zero_le _) (fun hs => by cases hs) rfl rfl
  exact hdown.trans (connectToHost_fewer _ false)

theorem processData_fewer (c : JsonRpcClient) (adapter : JsonRpcAdapter) (obj : JsonObject) :
    Fewer c (c.processData adapter obj).1 :=
  have h := c.processData_effect adapter obj
  .of_eq h.queue h.sock

theorem bytesWritten_fewer (c : JsonRpcClient) (bytes : Nat) : Fewer c (c.bytesWritten bytes) := by
  have hless : Fewer c { c with m_bytes_to_write := c.m_bytes_to_write - bytes } := .of_eq rfl rfl
  rw [JsonRpcClient.bytesWritten]
  split
  · exact hless.trans (sendRequest_fewer _)
  · exact hless

/-- A method that reaches the client adds at most its own login. -/
theorem jsonRpcMethod_logins (c : JsonRpcClient) (method : String) (args : Option Json)
    (answered : Bool) : rpcLogins (c.jsonRpcMethod method args) answered ≤
      rpcLogins c answered + if method = "login" then 1 else 0 := by
  have henqueue : rpcLogins (c.enqueue method args) answered =
      rpcLogins c answered + if method = "login" then 1 else 0 := by
    have hqueue : queuedLogins (c.enqueue method args) =
        queuedLogins c + if method = "login" then 1 else 0 := by
      show (c.queue ++ [c.newRequest method args]).countP _ = _
      rw [List.countP_append, List.countP_singleton]
      simp [queuedLogins, isLogin, JsonRpcClient.methodOf_newRequest]
    have hsock : (c.enqueue method args).m_sock = c.m_sock := rfl
    unfold rpcLogins
    rw [hqueue, hsock]
    omega
  rw [← henqueue]
  exact (sendRequest_fewer (c.enqueue method args)).logins answered

/-- Only a waiting login is written to a new connection at once. -/
theorem connected_logins (hpast : Past c.m_sock) :
    rpcLogins c.connected false ≤ queuedLogins c ∧ Past c.connected.m_sock := by
  have hnone : writtenLogins c.m_sock.establish = 0 := by
    unfold writtenLogins
    rw [List.countP_eq_zero]
    intro p hp
    have hle : p.1 ≤ c.m_sock.connection := hpast p hp
    have hne : p.1 ≠ c.m_sock.connection + 1 := by omega
    simp [Socket.establish, hne]
  have hsend := sendRequest_fewer { c with m_sock := c.m_sock.establish }
  have hstart : rpcLogins { c with m_sock := c.m_sock.establish } false = queuedLogins c := by
    unfold rpcLogins
    rw [hnone]
    simp [queuedLogins, JsonRpcClient.queue]
  constructor
  · rw [← hstart]
    exact hsend.logins false
  · exact hsend.past fun p hp => Nat.le_succ_of_le (hpast p hp)

end Rpc
section Client
variable {s t u : Client}

/-- There are no more logins in `t` than in `s`. -/
structure NoMore (s t : Client) : Prop where
  calls : callLogins t ≤ callLogins s
  rpc : Fewer s.rpc t.rpc

theorem NoMore.trans (h : NoMore s t) (h' : NoMore t u) : NoMore s u :=
  ⟨h'.calls.trans h.calls, h.rpc.trans h'.rpc⟩

theorem NoMore.of_rpc (hcalls : t.calls = s.calls) (hrpc : Fewer s.rpc t.rpc) : NoMore s t := by
  refine ⟨?_, hrpc⟩
  unfold callLogins
  rw [hcalls]

theorem NoMore.of_eq (hcalls : t.calls = s.calls) (hrpc : t.rpc = s.rpc) : NoMore s t := by
  apply NoMore.of_rpc hcalls
  rw [hrpc]
  exact .refl s.rpc

theorem callLogins_request (s : Client) (method : String) (args : Json) :
    callLogins (s.request method args) = callLogins s + if method = "login" then 1 else 0 := by
  show (s.calls ++ [(⟨.method, method, args⟩ : QueuedCall)]).countP _ = _
  rw [List.countP_append, List.countP_singleton]
  simp only [decide_eq_true_eq]
  rfl

theorem request_noMore (s : Client) {method : String} (args : Json) (h : method ≠ "login") :
    NoMore s (s.request method args) := by
  refine ⟨?_, .refl s.rpc⟩
  rw [callLogins_request, if_neg h]
  exact Nat.le_refl _

theorem stop_noMore (s : Client) : NoMore s s.stop := .of_rpc rfl (disconnectFromHost_fewer s.rpc)

theorem start_noMore (s : Client) : NoMore s s.start := by
  rw [Client.start]
  split
  · exact .of_eq rfl rfl
  · exact .of_rpc rfl (connectToHost_fewer s.rpc false)

theorem switchToPool_noMore (s : Client) (url : Url) : NoMore s (s.switchToPool url) := by
  rw [Client.switchToPool]
  split
  · have hset : NoMore s.stop (s.stop.setPool url) := .of_rpc rfl (.of_eq rfl rfl)
    exact ((stop_noMore s).trans hset).trans (start_noMore _)
  · exact .of_eq rfl rfl

theorem submitShare_noMore (s : Client) (jobId : QByteArray) (nonce : Nat) (hash : QByteArray) :
    NoMore s (submitShare s jobId nonce hash) := by
  unfold StratumClient.submitShare
  split
  · exact .of_eq rfl rfl
  · exact request_noMore s _ (by decide)

theorem setNewJob_noMore (s : Client) (jobMap : JsonObject) : NoMore s (setNewJob s jobMap) := by
  rw [setNewJob]
  split
  · exact .of_eq rfl rfl
  · exact .of_rpc rfl (reset_fewer s.rpc false)

theorem login_noMore (s : Client) (params : JsonObject) : NoMore s (login s params) := by
  rw [login]
  split
  · exact .of_eq rfl rfl
  · refine NoMore.trans ?_ (setNewJob_noMore _ _)
    exact .of_eq rfl rfl

theorem error_noMore (s : Client) (code : Int) : NoMore s (error s code) := by
  have hstop : NoMore s { s.stop with m_login_timer := true } :=
    (stop_noMore s).trans (.of_eq rfl rfl)
  have hupdate : NoMore s (StratumClient.updateJob ((s.reset false).emit .shareError)) := by
    have hreset : NoMore s ((s.reset false).emit .shareError) :=
      .of_rpc rfl (reset_fewer s.rpc false)
    exact hreset.trans (request_noMore _ _ (by decide))
  have htwice : NoMore s { (s.stop.emit (.newJob .empty)).stop with m_login_timer := true } := by
    have hemit : NoMore s (s.stop.emit (.newJob .empty)) :=
      (stop_noMore s).trans (.of_eq rfl rfl)
    exact (hemit.trans (stop_noMore _)).trans (.of_eq rfl rfl)
  cases hcode : CryptonotePoolError.ofCode code with
  | none =>
    simp only [error, hcode]
    exact htwice
  | some e =>
    cases e with
    | NoError =>
      simp only [error, hcode]
      exact .of_eq rfl rfl
    | InvalidShareData | InvalidJobId | UnknownJobShare | SlightlyStaleShare | ReallyStaleShare
    | DuplicateShare | InvalidShare =>
      simp only [error, hcode]
      exact hupdate
    | CanGetJob =>
      simp only [error, hcode]
      exact hstop
    | _ =>
      simp only [error, hcode]
      exact htwice

theorem invoke_noMore {i : Invocation} (h : invoke s i = some t) : NoMore s t := by
  rw [StratumClient.invoke.eq_def] at h
  split at h
  case h_1 code _ _ _ =>
    cases h
    exact error_noMore s code
  case h_2 params =>
    cases h
    exact login_noMore s params
  case h_3 params =>
    cases h
    exact setNewJob_noMore s params
  case h_4 params =>
    cases h
    unfold StratumClient.submit
    split
    · exact .of_eq rfl rfl
    · exact .of_eq rfl rfl
  case h_5 params =>
    cases h
    exact setNewJob_noMore s params
  case h_6 => cases h

/-- No slot for a message of the pool makes a login. -/
theorem processLine_noMore {obj : JsonObject} (h : Client.processLine protocol s obj = some t) :
    NoMore s t := by
  have hdata := processData_fewer s.rpc StratumAdapter obj
  rcases StratumClient.processLine_cases h with ⟨rpc, hrpc, rfl⟩ | ⟨rpc, i, hrpc, hinvoke⟩
  · rw [hrpc] at hdata
    exact .of_rpc rfl hdata
  · rw [hrpc] at hdata
    refine NoMore.trans ?_ (invoke_noMore hinvoke)
    exact .of_rpc rfl hdata

theorem proceed_noMore (h : Client.proceed protocol s = some t) : NoMore s t := by
  rw [Client.proceed] at h
  split at h
  case h_1 => cases h
  case h_2 obj rest hhandler =>
    refine NoMore.trans ?_ (processLine_noMore h)
    exact .of_eq rfl rfl
  case h_3 =>
    cases h
    exact .of_rpc rfl (sendRequest_fewer s.rpc)
  case h_4 =>
    cases h
    refine .of_rpc rfl ?_
    rw [JsonRpcClient.errorReconnect_eq]
    exact .of_eq rfl rfl

/-- A call that is delivered takes its login along. -/
theorem deliver_noMore {k : Nat} (h : s.deliverWhenIdle k = some t) :
    (∀ answered, pending (t, answered) ≤ pending (s, answered)) ∧
      (Past s.rpc.m_sock → Past t.rpc.m_sock) := by
  obtain ⟨call, hcall, hcases⟩ := deliverWhenIdle_eq_some h
  obtain ⟨hk, hget⟩ := List.getElem?_eq_some_iff.mp hcall
  have hcount : (s.calls.eraseIdx k).countP (fun call => call.method = "login") +
      (if call.method = "login" then 1 else 0) = callLogins s := by
    have hperm := (List.getElem_cons_eraseIdx_perm hk).countP_eq
      (fun call => decide (call.method = "login"))
    rw [List.countP_cons, hget] at hperm
    simpa [callLogins] using hperm
  rcases hcases with ⟨-, rfl⟩ | ⟨-, rfl⟩
  · refine ⟨fun answered => ?_, id⟩
    have hcalls : callLogins { s with
        calls := s.calls.eraseIdx k ++ [{ call with slot := .jsonRpcMethod }] } = callLogins s := by
      rw [← hcount]
      show (s.calls.eraseIdx k ++ [_]).countP _ = _
      rw [List.countP_append, List.countP_singleton]
      simp
    unfold pending
    rw [hcalls]
  · refine ⟨fun answered => ?_, fun hpast => ?_⟩
    · have hmethod := jsonRpcMethod_logins s.rpc call.method (some call.args) answered
      show (s.calls.eraseIdx k).countP _ + rpcLogins (s.rpc.jsonRpcMethod call.method _) answered ≤
        callLogins s + rpcLogins s.rpc answered
      omega
    · exact (sendRequest_fewer (s.rpc.enqueue call.method (some call.args))).past hpast

end Client

/-- At most one login is on its way to a connection. -/
structure Inv (p : Client × Bool) : Prop where
  pending : pending p ≤ 1
  past : Past p.1.rpc.m_sock

theorem new_inv (url : Url) (userAgent worker password : String) :
    Inv (new url userAgent worker password, false) :=
  ⟨Nat.zero_le 1, fun p hp => by cases hp⟩

variable {s t : Client} {answered answered' : Bool} {e : Event}

theorem Inv.loginOnce {p : Client × Bool} (h : Inv p) : LoginOnce p := by
  intro hs hanswered
  have hpending := h.pending
  unfold OneLogin.pending rpcLogins at hpending
  rw [if_pos ⟨hs, hanswered⟩] at hpending
  omega

/-- A reply only lowers the number of logins on their way. -/
theorem rpcLogins_answered (c : JsonRpcClient) (answers : Bool) :
    rpcLogins c (answered || answers) ≤ rpcLogins c answered := by
  cases answered with
  | true => exact Nat.le_refl _
  | false =>
    cases answers with
    | false => exact Nat.le_refl _
    | true =>
      unfold rpcLogins
      rw [if_neg (by simp)]
      omega

theorem Inv.noMore (h : Inv (s, answered)) (hmore : NoMore s t) : Inv (t, answered) := by
  refine ⟨?_, hmore.rpc.past h.past⟩
  have hpending : callLogins s + rpcLogins s.rpc answered ≤ 1 := h.pending
  have hcalls := hmore.calls
  have hrpc := hmore.rpc.logins answered
  show callLogins t + rpcLogins t.rpc answered ≤ 1
  omega

theorem step_inv (h : Inv (s, answered)) (hC : Alone (s, answered) e)
    (hstep : Client.step protocol s e = some t) : Inv (t, note s e answered) := by
  cases e with
  | start =>
    cases hstep
    exact h.noMore (start_noMore s)
  | stop =>
    cases hstep
    exact h.noMore (stop_noMore s)
  | switchToPool url =>
    cases hstep
    exact h.noMore (switchToPool_noMore s url)
  | setPool url =>
    cases hstep
    exact h.noMore (.of_rpc rfl (.of_eq rfl rfl))
  | setWorkerName worker =>
    cases hstep
    exact h.noMore (.of_eq rfl rfl)
  | submitShare jobId nonce hash =>
    cases hstep
    exact h.noMore (submitShare_noMore s jobId nonce hash)
  | deliver k =>
    obtain ⟨hpending, hpast⟩ := deliver_noMore hstep
    exact ⟨(hpending answered).trans h.pending, hpast h.past⟩
  | loginTimeout =>
    obtain ⟨-, rfl⟩ := whenIdle_eq_some hstep
    have hnone : callLogins s + rpcLogins s.rpc answered = 0 := hC
    have hcalls : callLogins s.tryLogin = callLogins s + 1 := callLogins_request s "login" _
    refine ⟨?_, h.past⟩
    show callLogins s.tryLogin + rpcLogins s.rpc answered ≤ 1
    omega
  | connectTimeout =>
    obtain ⟨-, rfl⟩ := whenIdle_eq_some hstep
    exact h.noMore (.of_rpc rfl (connectToHost_fewer s.rpc true))
  | requestTimeout =>
    obtain ⟨-, rfl⟩ := whenIdle_eq_some hstep
    exact h.noMore (.of_rpc rfl (resetRequest_fewer s.rpc))
  | updateProxy =>
    obtain ⟨-, rfl⟩ := whenIdle_eq_some hstep
    have hproxy := (disconnectFromHost_fewer s.rpc).trans (connectToHost_fewer _ false)
    exact h.noMore (.of_rpc rfl hproxy)
  | hostFound =>
    obtain ⟨-, rfl⟩ := whenIdle_eq_some hstep
    exact h.noMore (.of_rpc rfl
      (.of_down (Nat.le_refl _) (fun hs => by cases hs) rfl rfl))
  | connected =>
    obtain ⟨-, rfl⟩ := whenIdle_eq_some hstep
    have hnone : callLogins s + queuedLogins s.rpc = 0 := hC
    have hcalls : callLogins s.tryLogin = callLogins s + 1 := callLogins_request s "login" _
    obtain ⟨hlogins, hpast⟩ := connected_logins (c := s.rpc) h.past
    refine ⟨?_, hpast⟩
    show callLogins s.tryLogin + rpcLogins s.rpc.connected false ≤ 1
    omega
  | socketError =>
    obtain ⟨-, rfl⟩ := whenIdle_eq_some hstep
    exact h.noMore (.of_rpc rfl
      (.of_down (Nat.zero_le _) (fun hs => by cases hs) rfl rfl))
  | bytesWritten bytes =>
    obtain ⟨-, rfl⟩ := whenIdle_eq_some hstep
    exact h.noMore (.of_rpc rfl (bytesWritten_fewer s.rpc bytes))
  | readyRead objs =>
    obtain ⟨-, rfl⟩ := whenIdle_eq_some hstep
    exact h.noMore (.of_eq rfl rfl)
  | proceed =>
    have hmore := h.noMore (proceed_noMore hstep)
    refine ⟨?_, hmore.past⟩
    have hanswers : rpcLogins t.rpc (answered || answersLogin s) ≤ rpcLogins t.rpc answered :=
      rpcLogins_answered t.rpc (answersLogin s)
    have hpending : callLogins t + rpcLogins t.rpc answered ≤ 1 := hmore.pending
    show callLogins t + rpcLogins t.rpc (answered || answersLogin s) ≤ 1
    omega

/-- In every run in which each login is made alone, a connection gets at most one login before the
reply to it. -/
theorem run_login_once {url : Url} {userAgent worker password : String} {es : List Event}
    {p : Client × Bool}
    (hrun : exec (watch (step protocol) note) (new url userAgent worker password, false) es =
      some p)
    (halone : Along (watch (step protocol) note) Alone (new url userAgent worker password, false)
      es) :
    LoginOnce p := by
  have hinv := exec_invariant (I := Inv) (C := Alone)
    (fun ⟨s, answered⟩ e ⟨t, answered'⟩ hI hC he => by
      obtain ⟨hstep, rfl⟩ := watch_eq_some.mp he
      exact step_inv hI hC hstep) (new_inv url userAgent worker password) halone hrun
  exact hinv.loginOnce

section Runs

/-- The client starts, and its login is written to the first connection. -/
def firstLogin : List Event := [.start, .hostFound, .connected, .deliver 0, .deliver 0]

/-- The login is refused. The client sleeps, connects again, logs in, and the login timer ticks
before the reply. -/
def refusedLogin : List Event :=
  firstLogin ++ [.readyRead [[("id", .str "1"), ("error", .obj [("code", .int (-20))])]], .proceed,
    .proceed, .hostFound, .connected, .deliver 0, .deliver 0, .loginTimeout, .deliver 0, .deliver 0,
    .bytesWritten 112]

def loginsAfter (es : List Event) : Option (SocketState × Bool × Nat) :=
  (exec (watch (step protocol) note) (newClient, false) es).map fun p =>
    (p.1.rpc.m_sock.state, p.2, writtenLogins p.1.rpc.m_sock)

theorem first_login_alone : ∃ p, exec (watch (step protocol) note) (newClient, false) firstLogin =
    some p ∧ writtenLogins p.1.rpc.m_sock = 1 ∧ LoginOnce p := by
  have hlogins : loginsAfter firstLogin = some (.connected, false, 1) := by decide +kernel
  obtain ⟨p, hp, hstate⟩ := Option.map_eq_some_iff.mp hlogins
  injection hstate with _ hrest
  injection hrest with _ hone
  exact ⟨p, hp, hone, run_login_once hp (by decide +kernel)⟩

/-- After a refused login the timer's login is written behind that of the connection. -/
theorem refused_login_doubled :
    ¬ ∀ (url : Url) (userAgent worker password : String) (es : List Event) (p : Client × Bool),
      exec (watch (step protocol) note) (new url userAgent worker password, false) es = some p →
      LoginOnce p := by
  intro h
  have hlogins : loginsAfter refusedLogin = some (.connected, false, 2) := by decide +kernel
  obtain ⟨p, hp, hstate⟩ := Option.map_eq_some_iff.mp hlogins
  injection hstate with hs hrest
  injection hrest with hanswered htwo
  have honce := h _ _ _ _ refusedLogin p hp hs hanswered
  rw [htwo] at honce
  exact absurd honce (by decide)

end Runs
end MinerGate.Pool.OneLogin
