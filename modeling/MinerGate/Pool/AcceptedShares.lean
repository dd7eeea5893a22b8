import Mathlib.Data.List.Perm.Subperm
import MinerGate.Pool.Freshness
import MinerGate.Pool.LoginRetry

/-!
# Accepted shares

A share that `submitShare` accepts travels in two queued calls and waits in the queue of requests
until what was written before it has been flushed. Replies of the pool, the timers and the proxy
clear that queue.
-/

namespace MinerGate.Pool.AcceptedShares

set_option autoImplicit false

open JsonRpc Transition Client LoginRetry
open StratumClient (protocol setNewJob login submit error invoke submitShare submitParams loggedIn
  share)

/-- The parameters of a share's request. -/
def shareOf (obj : JsonObject) : Option Json :=
  if methodOf obj = "submit" then some (obj.value "params") else none

def shareOfCall (call : QueuedCall) : Option Json :=
  if call.method = "submit" then some call.args else none

def callShares (s : Client) : List Json := s.calls.filterMap shareOfCall

def queuedShares (c : JsonRpcClient) : List Json := c.queue.filterMap shareOf

def writtenShares (s : Socket) : List Json := s.written.filterMap fun p => shareOf p.2

def rpcShares (c : JsonRpcClient) : List Json := queuedShares c ++ writtenShares c.m_sock

/-- The shares on their way to the queue, in the queue, and written to the socket. -/
def carried (s : Client) : List Json := callShares s ++ rpcShares s.rpc

/-- What the next line of the handler under way calls. -/
def nextInvocation (s : Client) : Option Invocation :=
  match s.handler with
  | .readyRead (obj :: _) => (s.rpc.processData StratumAdapter obj).2
  | _ => none

def bringsJob : Invocation → Bool
  | .error _ _ _ _ => false
  | i => dropsRequests i

def refuses : Invocation → Bool
  | .error code _ _ _ => CryptonotePoolError.ofCode code ≠ some .NoError
  | _ => false

/-- A new job, a stop from outside, and a failure of the socket or of the request timer. -/
def excuses (s : Client) : Event → Bool
  | .stop | .socketError | .requestTimeout => true
  | .switchToPool url => url ≠ s.rpc.m_url
  | .proceed => (nextInvocation s).any bringsJob
  | _ => false

def acceptedBy (s : Client) : Event → List Json
  | .submitShare jobId nonce hash =>
    if (s.session.getD "").isEmpty then []
    else [submitParams (s.session.getD "") jobId nonce hash]
  | _ => []

/-- The shares that were accepted since the last excuse. -/
def note (s : Client) (e : Event) (accepted : List Json) : List Json :=
  if excuses s e then [] else acceptedBy s e ++ accepted

/-- Each accepted share is still there, as often as it was accepted. -/
def Kept (p : Client × List Json) : Prop := p.2.Subperm (carried p.1)

/-- No share is in the queue when the pool refuses something or the proxy changes. -/
def Spares (s : Client) : Event → Prop
  | .updateProxy => queuedShares s.rpc = []
  | .proceed => ∀ i ∈ nextInvocation s, refuses i = true → queuedShares s.rpc = []
  | _ => True

instance (s : Client) (e : Event) : Decidable (Spares s e) := by
  unfold Spares
  split <;> infer_instance

section Rpc
variable {c d : JsonRpcClient}

theorem filterMap_cons_toList {α β : Type} (f : α → Option β) (a : α) (l : List α) :
    (a :: l).filterMap f = (f a).toList ++ l.filterMap f := by
  rw [List.filterMap_cons]
  cases f a with
  | none => rfl
  | some b => rfl

theorem rpcShares_of_eq (hqueue : d.queue = c.queue)
    (hwritten : d.m_sock.written = c.m_sock.written) : rpcShares d = rpcShares c := by
  unfold rpcShares queuedShares writtenShares
  rw [hqueue, hwritten]

theorem rpcShares_of_cleared (hqueue : d.queue = [])
    (hwritten : d.m_sock.written = c.m_sock.written) (hnone : queuedShares c = []) :
    rpcShares d = rpcShares c := by
  unfold rpcShares queuedShares writtenShares at *
  rw [hqueue, hwritten, hnone]
  rfl

theorem rpcShares_connectToHost (c : JsonRpcClient) (tick : Bool) :
    rpcShares (c.connectToHost tick) = rpcShares c := by
  apply rpcShares_of_eq
  · unfold JsonRpcClient.queue
    rw [c.connectToHost_queue]
  · exact c.connectToHost_written tick

theorem queuedShares_dequeue {obj : JsonObject} {rest : List JsonObject}
    (hqueue : c.queue = obj :: rest) :
    queuedShares c = (shareOf obj).toList ++ queuedShares c.dequeue := by
  unfold queuedShares
  rw [JsonRpcClient.dequeue_queue hqueue, hqueue, filterMap_cons_toList]

/-- An empty object is no request of a share. -/
theorem shareOf_of_isEmpty {obj : JsonObject} (h : obj.isEmpty = true) : shareOf obj = none := by
  rw [List.isEmpty_iff.mp h]
  rfl

theorem writtenShares_write (c : JsonRpcClient) (obj : JsonObject) :
    writtenShares (c.dequeue.write obj).m_sock =
      (shareOf obj).toList ++ writtenShares c.m_sock :=
  filterMap_cons_toList (fun p : Nat × JsonObject => shareOf p.2) (c.m_sock.connection, obj)
    c.m_sock.written

/-- A share that leaves the queue is written. -/
theorem rpcShares_write {obj : JsonObject} {rest : List JsonObject}
    (hqueue : c.queue = obj :: rest) :
    (rpcShares (c.dequeue.write obj)).Perm (rpcShares c) := by
  have hsame : queuedShares (c.dequeue.write obj) = queuedShares c.dequeue := rfl
  unfold rpcShares
  rw [queuedShares_dequeue hqueue, writtenShares_write, hsame, ← List.append_assoc]
  exact List.perm_append_comm.append_right _

theorem rpcShares_sendRequest (c : JsonRpcClient) :
    (rpcShares c.sendRequest).Perm (rpcShares c) := by
  rcases c.sendRequest_cases with
    hc | ⟨-, -, hc⟩ | ⟨-, -, -, obj, rest, hqueue, ⟨hempty, hc⟩ | ⟨-, hc⟩⟩
  · rw [hc]
  · rw [hc, rpcShares_connectToHost]
  · have hsame : rpcShares c.dequeue = rpcShares c := by
      unfold rpcShares
      rw [queuedShares_dequeue hqueue, shareOf_of_isEmpty hempty]
      rfl
    rw [hc, hsame]
  · rw [hc]
    exact rpcShares_write hqueue

theorem rpcShares_processData (c : JsonRpcClient) (obj : JsonObject) :
    rpcShares (c.processData StratumAdapter obj).1 = rpcShares c :=
  have h := c.processData_effect StratumAdapter obj
  rpcShares_of_eq h.queue (congrArg Socket.written h.sock)

theorem queuedShares_processData (c : JsonRpcClient) (obj : JsonObject) :
    queuedShares (c.processData StratumAdapter obj).1 = queuedShares c := by
  unfold queuedShares
  rw [(c.processData_effect StratumAdapter obj).queue]

theorem rpcShares_bytesWritten (c : JsonRpcClient) (bytes : Nat) :
    (rpcShares (c.bytesWritten bytes)).Perm (rpcShares c) := by
  have hless : rpcShares { c with m_bytes_to_write := c.m_bytes_to_write - bytes } = rpcShares c :=
    rfl
  rw [JsonRpcClient.bytesWritten]
  split
  · exact rpcShares_sendRequest { c with m_bytes_to_write := c.m_bytes_to_write - bytes }
  · rw [hless]

/-- A method that reaches the client adds its own share. -/
theorem rpcShares_jsonRpcMethod (c : JsonRpcClient) (call : QueuedCall) :
    (rpcShares (c.jsonRpcMethod call.method (some call.args))).Perm
      ((shareOfCall call).toList ++ rpcShares c) := by
  have hshare : shareOf (c.newRequest call.method (some call.args)) = shareOfCall call := by
    unfold shareOf shareOfCall
    rw [JsonRpcClient.methodOf_newRequest, JsonRpcClient.params_newRequest]
  have henqueue : queuedShares (c.enqueue call.method (some call.args)) =
      queuedShares c ++ (shareOfCall call).toList := by
    change (c.queue ++ [c.newRequest call.method (some call.args)]).filterMap shareOf = _
    rw [List.filterMap_append, ← hshare, filterMap_cons_toList, List.filterMap_nil,
      List.append_nil]
    rfl
  have hwritten : writtenShares (c.enqueue call.method (some call.args)).m_sock =
    writtenShares c.m_sock := rfl
  refine (rpcShares_sendRequest (c.enqueue call.method (some call.args))).trans ?_
  unfold rpcShares
  rw [henqueue, hwritten, ← List.append_assoc]
  exact List.perm_append_comm.append_right _

end Rpc

section Client
variable {s t : Client} {e : Event}

theorem carried_of_rpc (hcalls : t.calls = s.calls)
    (hrpc : (rpcShares t.rpc).Perm (rpcShares s.rpc)) : (carried t).Perm (carried s) := by
  unfold carried callShares
  rw [hcalls]
  exact hrpc.append_left _

theorem carried_of_eq (hcalls : t.calls = s.calls) (hrpc : t.rpc = s.rpc) :
    (carried t).Perm (carried s) := by
  apply carried_of_rpc hcalls
  rw [hrpc]

theorem carried_of_cleared (hcalls : t.calls = s.calls) (hqueue : t.rpc.queue = [])
    (hwritten : t.rpc.m_sock.written = s.rpc.m_sock.written) (hnone : queuedShares s.rpc = []) :
    (carried t).Perm (carried s) := by
  apply carried_of_rpc hcalls
  rw [rpcShares_of_cleared hqueue hwritten hnone]

theorem carried_request (s : Client) (method : String) (args : Json) :
    (carried (s.request method args)).Perm
      ((shareOfCall ⟨.method, method, args⟩).toList ++ carried s) := by
  have hcalls : callShares (s.request method args) =
      callShares s ++ (shareOfCall ⟨.method, method, args⟩).toList := by
    unfold callShares
    change (s.calls ++ [_]).filterMap shareOfCall = _
    rw [List.filterMap_append, filterMap_cons_toList, List.filterMap_nil, List.append_nil]
  unfold carried
  rw [hcalls, ← List.append_assoc]
  exact List.perm_append_comm.append_right _

theorem carried_request_of_ne (s : Client) {method : String} (args : Json)
    (hmethod : method ≠ "submit") : (carried (s.request method args)).Perm (carried s) := by
  have hnone : shareOfCall ⟨.method, method, args⟩ = none := if_neg hmethod
  have hperm := carried_request s method args
  rw [hnone] at hperm
  exact hperm

theorem carried_start (s : Client) : (carried s.start).Perm (carried s) := by
  rw [Client.start]
  split
  case isTrue => exact .refl _
  case isFalse =>
    refine carried_of_rpc rfl ?_
    change (rpcShares (s.rpc.connectToHost false)).Perm _
    rw [rpcShares_connectToHost]

theorem setNewJob_of_no_id (s : Client) {jobMap : JsonObject} (hnone : hasJobId jobMap = false) :
    setNewJob s jobMap = s := by
  have hempty : (StratumClient.jobIdOf jobMap).isEmpty = true := by
    rw [hasJobId, Bool.not_eq_false'] at hnone
    exact hnone
  rw [setNewJob, if_pos hempty]

theorem carried_login (s : Client) {params : JsonObject}
    (hjob : bringsJob (.response "login" (.obj params)) = false) :
    (carried (login s params)).Perm (carried s) := by
  rw [login]
  split
  case isTrue => exact carried_of_eq rfl rfl
  case isFalse hstatus =>
    have hok : statusOK params = true := decide_eq_true (not_not.mp hstatus)
    have hnone : hasJobId (JsonObject.value params "job").toObject = false := by
      have hdrops : (statusOK params &&
        hasJobId (JsonObject.value params "job").toObject) = false := hjob
      rw [hok, Bool.true_and] at hdrops
      exact hdrops
    rw [setNewJob_of_no_id _ hnone]
    exact carried_of_eq rfl rfl

/-- A refusal clears the queue, by a reset or by a stop. -/
theorem carried_error (s : Client) {code : Int}
    (hnone : CryptonotePoolError.ofCode code ≠ some .NoError → queuedShares s.rpc = []) :
    (carried (error s code)).Perm (carried s) := by
  by_cases hcode : CryptonotePoolError.ofCode code = some .NoError
  · rw [error, hcode]
  · have hshare : (carried (StratumClient.updateJob ((s.reset false).emit .shareError))).Perm
        (carried s) := by
      have hrequest := carried_request_of_ne ((s.reset false).emit .shareError)
        (.obj [("id", .str (s.session.getD ""))]) (show "getjob" ≠ "submit" by decide)
      exact hrequest.trans (carried_of_cleared rfl rfl rfl (hnone hcode))
    rw [error]
    split
    case h_1 h => exact absurd h hcode
    case h_9 => exact carried_of_cleared rfl rfl rfl (hnone hcode)
    case h_10 => exact carried_of_cleared rfl rfl rfl (hnone hcode)
    all_goals exact hshare

theorem invoke_keeps {i : Invocation} (hi : invoke s i = some t) (hjob : bringsJob i = false)
    (hnone : refuses i = true → queuedShares s.rpc = []) : (carried t).Perm (carried s) := by
  rw [StratumClient.invoke.eq_def] at hi
  split at hi
  case h_1 code _ _ _ =>
    cases hi
    apply carried_error
    intro hcode
    exact hnone (decide_eq_true hcode)
  case h_2 params =>
    cases hi
    exact carried_login s hjob
  case h_3 params =>
    cases hi
    change (carried (setNewJob s params)).Perm _
    rw [setNewJob_of_no_id s hjob]
  case h_4 params =>
    cases hi
    rw [submit]
    split
    · exact .refl _
    · exact carried_of_eq rfl rfl
  case h_5 params =>
    cases hi
    change (carried (setNewJob s params)).Perm _
    rw [setNewJob_of_no_id s hjob]
  case h_6 => cases hi

theorem processLine_keeps {obj : JsonObject} (hs : Client.processLine protocol s obj = some t)
    (hnext : ∀ i ∈ (s.rpc.processData StratumAdapter obj).2,
      bringsJob i = false ∧ (refuses i = true → queuedShares s.rpc = [])) :
    (carried t).Perm (carried s) := by
  rcases StratumClient.processLine_cases hs with ⟨rpc, hdata, rfl⟩ | ⟨rpc, i, hdata, hinvoke⟩
  · refine carried_of_rpc rfl ?_
    change (rpcShares rpc).Perm _
    rw [← rpcShares_processData s.rpc obj, hdata]
  · obtain ⟨hjob, hnone⟩ := hnext i (by rw [hdata]; rfl)
    have hqueued : queuedShares rpc = queuedShares s.rpc := by
      rw [← queuedShares_processData s.rpc obj, hdata]
    have hline : (carried { s with rpc := rpc }).Perm (carried s) := by
      refine carried_of_rpc rfl ?_
      change (rpcShares rpc).Perm _
      rw [← rpcShares_processData s.rpc obj, hdata]
    refine (invoke_keeps hinvoke hjob fun hrefuse => ?_).trans hline
    exact hqueued.trans (hnone hrefuse)

theorem proceed_keeps (hs : Client.proceed protocol s = some t)
    (hjob : excuses s .proceed = false) (hspares : Spares s .proceed) :
    (carried t).Perm (carried s) := by
  have hany : (nextInvocation s).any bringsJob = false := hjob
  have hrefuse : ∀ i ∈ nextInvocation s, refuses i = true → queuedShares s.rpc = [] := hspares
  rw [Client.proceed] at hs
  split at hs
  case h_1 => cases hs
  case h_2 obj rest hhandler =>
    have hnext : nextInvocation s = (s.rpc.processData StratumAdapter obj).2 := by
      rw [nextInvocation, hhandler]
    rw [hnext] at hany hrefuse
    have hline := processLine_keeps hs fun i hi => ⟨?_, hrefuse i hi⟩
    · exact hline.trans (carried_of_eq rfl rfl)
    · rw [Option.mem_def.mp hi] at hany
      exact hany
  case h_3 =>
    cases hs
    exact carried_of_rpc rfl (rpcShares_sendRequest s.rpc)
  case h_4 =>
    cases hs
    refine carried_of_rpc rfl ?_
    change (rpcShares s.rpc.errorReconnect).Perm _
    rw [JsonRpcClient.errorReconnect_eq]
    rfl

/-- A delivered call is queued again, or becomes a request. -/
theorem deliver_keeps {k : Nat} (hs : s.deliverWhenIdle k = some t) :
    (carried t).Perm (carried s) := by
  obtain ⟨call, hcall, hcases⟩ := deliverWhenIdle_eq_some hs
  obtain ⟨hk, hget⟩ := List.getElem?_eq_some_iff.mp hcall
  have htaken : (callShares s).Perm
      ((shareOfCall call).toList ++ (s.calls.eraseIdx k).filterMap shareOfCall) := by
    have hperm := (List.getElem_cons_eraseIdx_perm hk).symm.filterMap shareOfCall
    rw [hget, filterMap_cons_toList] at hperm
    exact hperm
  have hall : (carried s).Perm ((s.calls.eraseIdx k).filterMap shareOfCall ++
      ((shareOfCall call).toList ++ rpcShares s.rpc)) := by
    unfold carried
    rw [← List.append_assoc]
    exact (htaken.trans List.perm_append_comm).append_right _
  refine List.Perm.trans ?_ hall.symm
  rcases hcases with ⟨-, rfl⟩ | ⟨-, rfl⟩
  · have hagain : (s.calls.eraseIdx k ++ [{ call with slot := .jsonRpcMethod }]).filterMap
        shareOfCall = (s.calls.eraseIdx k).filterMap shareOfCall ++ (shareOfCall call).toList := by
      rw [List.filterMap_append, filterMap_cons_toList, List.filterMap_nil, List.append_nil]
      rfl
    change ((s.calls.eraseIdx k ++ [_]).filterMap shareOfCall ++ rpcShares s.rpc).Perm _
    rw [hagain, List.append_assoc]
  · exact (rpcShares_jsonRpcMethod s.rpc call).append_left _

/-- A share that is accepted joins those that are carried, and none of these is lost. -/
theorem step_keeps (hs : step protocol s e = some t) (hexcused : excuses s e = false)
    (hspares : Spares s e) : (carried t).Perm (acceptedBy s e ++ carried s) := by
  cases e with
  | start =>
    cases hs
    exact carried_start s
  | stop => cases hexcused
  | switchToPool url =>
    cases hs
    have hsame : ¬ url ≠ s.rpc.m_url := of_decide_eq_false hexcused
    rw [Client.switchToPool, if_neg hsame]
    exact .refl _
  | setPool url =>
    cases hs
    exact carried_of_rpc rfl (.refl _)
  | setWorkerName worker =>
    cases hs
    exact carried_of_eq rfl rfl
  | submitShare jobId nonce hash =>
    cases hs
    change (carried (submitShare s jobId nonce hash)).Perm _
    rw [submitShare, acceptedBy]
    split
    case isTrue => exact .refl _
    case isFalse => exact carried_request s "submit" _
  | deliver k => exact deliver_keeps hs
  | loginTimeout =>
    obtain ⟨-, rfl⟩ := whenIdle_eq_some hs
    exact carried_request_of_ne s _ (by decide)
  | connectTimeout =>
    obtain ⟨-, rfl⟩ := whenIdle_eq_some hs
    refine carried_of_rpc rfl ?_
    change (rpcShares (s.rpc.connectToHost true)).Perm _
    rw [rpcShares_connectToHost]
  | requestTimeout => cases hexcused
  | updateProxy =>
    obtain ⟨-, rfl⟩ := whenIdle_eq_some hs
    refine carried_of_rpc rfl ?_
    change (rpcShares (s.rpc.disconnectFromHost.connectToHost false)).Perm _
    rw [rpcShares_connectToHost]
    have hcleared : rpcShares s.rpc.disconnectFromHost = rpcShares s.rpc :=
      rpcShares_of_cleared rfl rfl hspares
    rw [hcleared]
  | hostFound =>
    obtain ⟨-, rfl⟩ := whenIdle_eq_some hs
    exact carried_of_rpc rfl (.refl _)
  | connected =>
    obtain ⟨-, rfl⟩ := whenIdle_eq_some hs
    have hsent := rpcShares_sendRequest { s.rpc with m_sock := s.rpc.m_sock.establish }
    have hlogin : (carried s.tryLogin).Perm (carried s) := carried_request_of_ne s _ (by decide)
    refine List.Perm.trans ?_ hlogin
    exact carried_of_rpc rfl hsent
  | socketError => cases hexcused
  | bytesWritten bytes =>
    obtain ⟨-, rfl⟩ := whenIdle_eq_some hs
    exact carried_of_rpc rfl (rpcShares_bytesWritten s.rpc bytes)
  | readyRead objs =>
    obtain ⟨-, rfl⟩ := whenIdle_eq_some hs
    exact carried_of_eq rfl rfl
  | proceed => exact proceed_keeps hs hexcused hspares

theorem step_kept {accepted : List Json} (hs : step protocol s e = some t) (h : Kept (s, accepted))
    (hspares : Spares s e) : Kept (t, note s e accepted) := by
  change (note s e accepted).Subperm (carried t)
  rw [note]
  split
  case isTrue => exact List.nil_subperm
  case isFalse hexcused =>
    rw [Bool.not_eq_true] at hexcused
    have hall : (acceptedBy s e ++ accepted).Subperm (acceptedBy s e ++ carried s) :=
      (List.subperm_append_left _).mpr h
    exact hall.trans (step_keeps hs hexcused hspares).symm.subperm

end Client

/-- In every run whose steps spare the queued shares, no accepted share is lost. -/
theorem run_shares_kept {url : Url} {userAgent worker password : String} {es : List Event}
    {p : Client × List Json}
    (hrun : exec (watch (step protocol) note) (new url userAgent worker password, []) es = some p)
    (hspares : Along (step protocol) Spares (new url userAgent worker password) es) : Kept p := by
  have hstart : Kept (new url userAgent worker password, []) := List.nil_subperm
  exact exec_invariant (I := Kept) (C := fun p e => Spares p.1 e)
    (fun ⟨s, accepted⟩ e ⟨t, accepted'⟩ hI hC he => by
      obtain ⟨hstep, rfl⟩ := watch_eq_some.mp he
      exact step_kept hstep hI hC) hstart (along_watch.mpr hspares) hrun

section Runs

/-- A share is written and not flushed yet when the next one is queued. -/
def twoShares : List Event :=
  loggedIn ++ .bytesWritten 112 :: share ++
    [.submitShare [106, 111, 98] 8 [], .deliver 0, .deliver 0]

def refusal : JsonObject := [("id", .str "2"), ("error", .obj [("code", .int (-19))])]

/-- The first share is refused. -/
def refusedShare : List Event := twoShares ++ [.readyRead [refusal], .proceed, .proceed]

def sharesAfter (es : List Event) : Option (Nat × Nat) :=
  (exec (watch (step protocol) note) (newClient, []) es).map fun p =>
    (p.2.length, (carried p.1).length)

theorem two_shares_kept : ∃ p,
    exec (watch (step protocol) note) (newClient, []) twoShares = some p ∧
      p.2.length = 2 ∧ Kept p := by
  have hshares : sharesAfter twoShares = some (2, 2) := by decide +kernel
  obtain ⟨p, hp, hlen⟩ := Option.map_eq_some_iff.mp hshares
  injection hlen with htwo _
  exact ⟨p, hp, htwo, run_shares_kept hp (by decide +kernel)⟩

/-- The refusal of the first share drops the second, which is of the same job. -/
theorem refusal_drops_share :
    ¬ ∀ (url : Url) (userAgent worker password : String) (es : List Event)
        (p : Client × List Json),
      exec (watch (step protocol) note) (new url userAgent worker password, []) es = some p →
      Kept p := by
  intro h
  have hshares : sharesAfter refusedShare = some (2, 1) := by decide +kernel
  obtain ⟨p, hp, hlen⟩ := Option.map_eq_some_iff.mp hshares
  injection hlen with htwo hone
  have hle := (h _ _ _ _ refusedShare p hp).length_le
  rw [htwo, hone] at hle
  exact absurd hle (by decide)

end Runs

end MinerGate.Pool.AcceptedShares
