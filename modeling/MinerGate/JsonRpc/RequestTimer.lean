import MinerGate.JsonRpc.Correlation

/-!
# The request timer

One timer stands for all requests that wait for a reply: it is started whenever a request is
written, and stopped by every reply that is no error.
-/

namespace MinerGate.JsonRpc

set_option autoImplicit false

open Transition Correlation

def isError (obj : JsonObject) : Prop := obj.contains "error" ∧ ¬ (obj.value "error").isNull

instance (obj : JsonObject) : Decidable (isError obj) := inferInstanceAs (Decidable (_ ∧ _))

/-- The object is an error or a result for the request with its id. -/
def Answers (obj : JsonObject) : Prop :=
  obj.contains "id" ∧ (isError obj ∨ obj.contains "result" ∨ obj.contains "params")

instance (obj : JsonObject) : Decidable (Answers obj) := inferInstanceAs (Decidable (_ ∧ _))

/-- A run, and the ids of the requests that were written to the current connection and have not been
answered, newest first. -/
structure Awaiting where
  run : Run
  outstanding : List Nat

/-- The ids of the requests that a step has written. -/
def newIds (c c' : JsonRpcClient) : List Nat :=
  (c'.m_sock.written.take (c'.m_sock.written.length - c.m_sock.written.length)).map
    fun p => idOf p.2

namespace Awaiting

def remaining (a : Awaiting) (obj : JsonObject) : List Nat :=
  if Answers obj then a.outstanding.filter (· ≠ idOf obj) else a.outstanding

def outstandingAfter (a : Awaiting) (run : Run) : Event → List Nat
  | .processData obj => a.remaining obj
  | .connected => newIds a.run.client run.client
  | _ => newIds a.run.client run.client ++ a.outstanding

def step (adapter : JsonRpcAdapter) (a : Awaiting) (e : Event) : Option Awaiting :=
  (Correlation.step adapter a.run e).map fun run => ⟨run, a.outstandingAfter run e⟩

def initial (url : Url) : Awaiting := ⟨Correlation.initial url, []⟩

/-- On a connection the timer runs exactly while a request is unanswered, so that it does not end
one on which all requests are answered. -/
structure Tracked (adapter : JsonRpcAdapter) (a : Awaiting) : Prop where
  active : a.run.client.m_sock.state = .connected →
    (a.run.client.m_request_timer = true ↔ a.outstanding ≠ [])
  timeout : a.run.client.m_sock.state = .connected →
    (step adapter a .requestTimeout).isSome → a.outstanding ≠ []

end Awaiting

/-- A request is written as soon as there is a connection. -/
def JsonRpcClient.WritesAtOnce (c : JsonRpcClient) : Prop :=
  c.m_connect_timer = false ∧ c.m_bytes_to_write ≤ 0 ∧
    ∃ obj rest, c.queue = obj :: rest ∧ obj.isEmpty = false

namespace Awaiting

/-- A result leaves no request unanswered, an error does not answer the last one, and a connection
begins without a running timer or with a request. -/
def Fits (a : Awaiting) : Event → Prop
  | .processData obj => a.run.client.m_sock.state = .connected →
      if isError obj then a.outstanding = [] ∨ a.remaining obj ≠ []
      else obj.contains "id" = true → a.remaining obj = []
  | .connected => a.run.client.m_sock.state = .connecting →
      a.run.client.m_request_timer = false ∨ a.run.client.WritesAtOnce
  | _ => True

end Awaiting

section Writes
variable {c c' c'' : JsonRpcClient} {obj : JsonObject}

/-- One step writes a request and starts the timer, or leaves both as they are. -/
inductive Writes (c c' : JsonRpcClient) : Prop where
  | none (written : c'.m_sock.written = c.m_sock.written)
    (timer : c'.m_request_timer = c.m_request_timer)
  | one (p : Nat × JsonObject) (written : c'.m_sock.written = p :: c.m_sock.written)
    (timer : c'.m_request_timer = true)

/-- What is written counts from any client with the same socket and timer. -/
theorem Writes.of_eq {d : JsonRpcClient} (h : Writes d c')
    (hwritten : d.m_sock.written = c.m_sock.written)
    (htimer : d.m_request_timer = c.m_request_timer) : Writes c c' := by
  cases h with
  | none written timer => exact .none (written.trans hwritten) (timer.trans htimer)
  | one p written timer => exact .one p (written.trans (congrArg _ hwritten)) timer

theorem newIds_of_eq (h : c'.m_sock.written = c.m_sock.written) : newIds c c' = [] := by
  unfold newIds
  rw [h, Nat.sub_self]
  rfl

theorem newIds_of_cons {p : Nat × JsonObject} (h : c'.m_sock.written = p :: c.m_sock.written) :
    newIds c c' = [idOf p.2] := by
  have hlength : (p :: c.m_sock.written).length - c.m_sock.written.length = 1 := by
    rw [List.length_cons]
    omega
  unfold newIds
  rw [h, hlength]
  rfl

/-- Writing keeps the timer in step with the unanswered requests. -/
theorem Writes.active (h : Writes c c') {outstanding : List Nat}
    (hactive : c.m_request_timer = true ↔ outstanding ≠ []) :
    c'.m_request_timer = true ↔ newIds c c' ++ outstanding ≠ [] := by
  cases h with
  | none written timer =>
    rw [newIds_of_eq written, timer]
    exact hactive
  | one p written timer =>
    rw [newIds_of_cons written]
    exact iff_of_true timer (List.cons_ne_nil _ _)

theorem writes_connectToHost (c : JsonRpcClient) (tick : Bool) :
    Writes c (c.connectToHost tick) :=
  .none (c.connectToHost_written tick) (c.connectToHost_request_timer tick)

theorem writes_sendRequest (c : JsonRpcClient) : Writes c c.sendRequest := by
  rcases c.sendRequest_cases with hc | ⟨-, -, hc⟩ | ⟨-, -, -, obj, rest, -, ⟨-, hc⟩ | ⟨-, hc⟩⟩
  · rw [hc]
    exact .none rfl rfl
  · rw [hc]
    exact writes_connectToHost c false
  · rw [hc]
    exact .none rfl rfl
  · rw [hc]
    exact .one _ rfl rfl

theorem sendRequest_of_writesAtOnce (h : c.WritesAtOnce) (hs : c.m_sock.state = .connected) :
    ∃ p, c.sendRequest.m_sock.written = p :: c.m_sock.written ∧
      c.sendRequest.m_request_timer = true := by
  obtain ⟨htimer, hbytes, obj, rest, hqueue, hne⟩ := h
  have hget : c.m_request_queue.getRequestForProcess.1 = obj := by
    have hq : c.m_request_queue.m_req_queue = obj :: rest := hqueue
    simp [JsonRpcQueueHandler.getRequestForProcess, hq]
  have hsend : c.sendRequest = c.dequeue.write obj := by
    rw [JsonRpcClient.sendRequest, if_neg (by simp [htimer]), if_neg (not_not.mpr hs),
      if_neg (Int.not_lt.mpr hbytes)]
    simp only [hget, hne, Bool.false_eq_true, if_false]
    rfl
  rw [hsend]
  exact ⟨_, rfl, rfl⟩

/-- What is written on a new connection. -/
theorem writes_connected (c : JsonRpcClient) :
    (c.WritesAtOnce ∧ newIds c c.connected ≠ [] ∧ c.connected.m_request_timer = true) ∨
    ¬ c.WritesAtOnce ∧ newIds c c.connected = [] ∧
      c.connected.m_request_timer = c.m_request_timer := by
  have hstate : ({ c with m_sock := c.m_sock.establish } : JsonRpcClient).m_sock.state =
    .connected := rfl
  by_cases hwrites : c.WritesAtOnce
  · left
    obtain ⟨p, hwritten, htimer⟩ := sendRequest_of_writesAtOnce
      (c := { c with m_sock := c.m_sock.establish }) hwrites hstate
    have hids : newIds c c.connected = [idOf p.2] := newIds_of_cons hwritten
    rw [hids]
    exact ⟨hwrites, List.cons_ne_nil _ _, htimer⟩
  · right
    refine ⟨hwrites, ?_⟩
    rcases JsonRpcClient.sendRequest_cases { c with m_sock := c.m_sock.establish } with
      hc | ⟨hdown, -⟩ | ⟨-, htimer, hbytes, obj, rest, hqueue, ⟨-, hc⟩ | ⟨hne, -⟩⟩
    · unfold JsonRpcClient.connected
      rw [hc]
      exact ⟨newIds_of_eq rfl, rfl⟩
    · exact absurd hstate hdown
    · unfold JsonRpcClient.connected
      rw [hc]
      exact ⟨newIds_of_eq rfl, rfl⟩
    · exact absurd ⟨htimer, hbytes, obj, rest, hqueue, hne⟩ hwrites

end Writes
namespace Awaiting
variable {adapter : JsonRpcAdapter} {a b : Awaiting} {e : Event}

theorem tracked_of_active (h : a.run.client.m_sock.state = .connected →
    (a.run.client.m_request_timer = true ↔ a.outstanding ≠ [])) : Tracked adapter a where
  active := h
  timeout hs hfires := by
    apply (h hs).mp
    obtain ⟨b, hb⟩ := Option.isSome_iff_exists.mp hfires
    obtain ⟨run, hrun, -⟩ := Option.map_eq_some_iff.mp hb
    exact (Option.ite_none_right_eq_some.mp hrun).1

theorem Tracked.writes (h : Tracked adapter a) {c : JsonRpcClient} (hwrites : Writes a.run.client c)
    (hs : c.m_sock.state = .connected → a.run.client.m_sock.state = .connected) (run : Run)
    (hrun : run.client = c) :
    Tracked adapter ⟨run, newIds a.run.client run.client ++ a.outstanding⟩ := by
  subst hrun
  exact tracked_of_active fun hconnected => hwrites.active (h.active (hs hconnected))

theorem tracked_of_down (hs : a.run.client.m_sock.state ≠ .connected) : Tracked adapter a :=
  tracked_of_active fun hconnected => absurd hconnected hs

theorem processError_timer (c : JsonRpcClient) (obj : JsonObject) :
    (c.processError obj).1.m_request_timer = c.m_request_timer := by
  obtain ⟨hc | hc, -⟩ := c.processError_cases obj
  · rw [hc]
  · rw [hc]
    rfl

/-- Only a reply that is no error has to do with the timer. -/
theorem processData_timer (adapter : JsonRpcAdapter) (c : JsonRpcClient) (obj : JsonObject) :
    (c.processData adapter obj).1.m_request_timer =
      if ¬ isError obj ∧ obj.contains "id" = true then false else c.m_request_timer := by
  have hdata : c.processData adapter obj = if isError obj then c.processError obj
      else if ¬ obj.contains "id" then (c, JsonRpcClient.processNotification adapter obj)
      else c.processResponse adapter obj := rfl
  rw [hdata]
  by_cases herror : isError obj
  · rw [if_pos herror, if_neg fun hboth => hboth.1 herror]
    exact processError_timer c obj
  · rw [if_neg herror]
    by_cases hid : obj.contains "id" = true
    · rw [if_neg (not_not.mpr hid), if_pos ⟨herror, hid⟩,
        (c.processResponse_cases adapter obj).1]
      rfl
    · rw [if_pos hid, if_neg fun hboth => hid hboth.2]

theorem remaining_of_nil (h : a.outstanding = []) (obj : JsonObject) : a.remaining obj = [] := by
  unfold remaining
  rw [h]
  split
  · rfl
  · rfl

/-- After an object of the server the timer is right exactly when the object fits. -/
theorem processData_active_iff (h : Tracked adapter a) (obj : JsonObject) :
    ((a.run.client.processData adapter obj).1.m_sock.state = .connected →
      ((a.run.client.processData adapter obj).1.m_request_timer = true ↔ a.remaining obj ≠ [])) ↔
    a.Fits (.processData obj) := by
  rw [a.run.client.processData_sock adapter obj, processData_timer adapter a.run.client obj]
  apply forall_congr'
  intro hs
  have hactive := h.active hs
  by_cases herror : isError obj
  · rw [if_neg fun hboth => hboth.1 herror, if_pos herror, hactive]
    constructor
    · intro hsame
      exact (Classical.em (a.outstanding = [])).imp_right hsame.mp
    · rintro (hnil | hrest)
      · rw [remaining_of_nil hnil, hnil]
      · refine iff_of_true (fun hnil => hrest (remaining_of_nil hnil obj)) hrest
  · rw [if_neg herror]
    by_cases hid : obj.contains "id" = true
    · rw [if_pos ⟨herror, hid⟩]
      constructor
      · intro hsame _
        by_contra hrest
        cases hsame.mpr hrest
      · intro hnil
        exact iff_of_false Bool.false_ne_true (not_not.mpr (hnil hid))
    · have hsame : a.remaining obj = a.outstanding := if_neg fun hanswers => hid hanswers.1
      rw [if_neg fun hboth => hid hboth.2, hsame]
      exact iff_of_true hactive fun hnot => absurd hnot hid

theorem step_tracked (h : Tracked adapter a) (hfits : a.Fits e)
    (hstep : step adapter a e = some b) : Tracked adapter b := by
  obtain ⟨run, hrun, rfl⟩ := Option.map_eq_some_iff.mp hstep
  cases e with
  | jsonRpcMethod method args =>
    cases hrun
    have henqueued : Writes a.run.client (a.run.client.enqueue method args).sendRequest :=
      (writes_sendRequest _).of_eq rfl rfl
    exact h.writes henqueued (JsonRpcClient.sendRequest_state_connected _).mp _ rfl
  | sendRequest =>
    cases hrun
    exact h.writes (writes_sendRequest _) (JsonRpcClient.sendRequest_state_connected _).mp _ rfl
  | processData obj =>
    cases hrun
    exact tracked_of_active ((processData_active_iff h obj).mpr hfits)
  | reset full =>
    cases hrun
    exact h.writes (c := a.run.client.reset full) (.none rfl rfl) id _ rfl
  | connectToHost =>
    cases hrun
    exact h.writes (writes_connectToHost _ false)
      (JsonRpcClient.connectToHost_state_connected _ false).mp _ rfl
  | disconnectFromHost =>
    cases hrun
    exact tracked_of_down fun hs => by cases hs
  | setUrl url =>
    cases hrun
    exact h.writes (c := a.run.client.setUrl url) (.none rfl rfl) id _ rfl
  | setProxy =>
    cases hrun
    refine tracked_of_down fun hs => ?_
    cases (JsonRpcClient.connectToHost_state_connected _ false).mp hs
  | connectTimeout =>
    obtain ⟨-, hrun⟩ := Option.ite_none_right_eq_some.mp hrun
    cases hrun
    exact h.writes (writes_connectToHost _ true)
      (JsonRpcClient.connectToHost_state_connected _ true).mp _ rfl
  | requestTimeout =>
    obtain ⟨-, hrun⟩ := Option.ite_none_right_eq_some.mp hrun
    cases hrun
    refine tracked_of_down fun hs => ?_
    cases (JsonRpcClient.connectToHost_state_connected _ false).mp hs
  | hostFound =>
    obtain ⟨-, hrun⟩ := Option.ite_none_right_eq_some.mp hrun
    cases hrun
    exact tracked_of_down fun hs => by cases hs
  | connected =>
    obtain ⟨hstate, hrun⟩ := Option.ite_none_right_eq_some.mp hrun
    cases hrun
    refine tracked_of_active fun _ => ?_
    show a.run.client.connected.m_request_timer = true ↔
      newIds a.run.client a.run.client.connected ≠ []
    rcases writes_connected a.run.client with ⟨-, hids, htimer⟩ | ⟨hnot, hids, htimer⟩
    · exact iff_of_true htimer hids
    · rw [htimer, hids, (hfits hstate).resolve_right hnot]
      exact iff_of_false Bool.false_ne_true (not_not.mpr rfl)
  | error =>
    obtain ⟨-, hrun⟩ := Option.ite_none_right_eq_some.mp hrun
    cases hrun
    refine tracked_of_down fun hs => ?_
    change a.run.client.abort.error.m_sock.state = .connected at hs
    rw [JsonRpcClient.error, JsonRpcClient.errorReconnect_eq] at hs
    cases hs
  | bytesWritten bytes =>
    obtain ⟨-, hrun⟩ := Option.ite_none_right_eq_some.mp hrun
    cases hrun
    refine h.writes (c := a.run.client.bytesWritten bytes) ?_ ?_ _ rfl
    · rw [JsonRpcClient.bytesWritten]
      split
      · exact (writes_sendRequest _).of_eq rfl rfl
      · exact .none rfl rfl
    · rw [JsonRpcClient.bytesWritten]
      split
      · exact (JsonRpcClient.sendRequest_state_connected _).mp
      · exact id

/-- In every state of a run the timer follows the unanswered requests, exactly when every step
fits. -/
theorem tracked_iff (adapter : JsonRpcAdapter) (url : Url) (es : List Event) :
    (∀ fs a, fs <+: es → exec (step adapter) (initial url) fs = some a → Tracked adapter a) ↔
      Along (step adapter) Fits (initial url) es := by
  refine along_iff_reached (I := Tracked adapter) (fun a e b hI hC he => step_tracked hI hC he)
    (fun a hI => hI) (fun a e hI hC => ?_) (tracked_of_down fun hs => by cases hs)
  cases e with
  | processData obj =>
    exact ⟨_, rfl, fun htracked => hC ((processData_active_iff hI obj).mp htracked.active)⟩
  | connected =>
    obtain ⟨hstate, hbad⟩ := Classical.not_imp.mp hC
    obtain ⟨htimer, hnot⟩ := not_or.mp hbad
    refine ⟨_, congrArg _ (if_pos hstate), fun htracked => ?_⟩
    have hactive : a.run.client.connected.m_request_timer = true ↔
        newIds a.run.client a.run.client.connected ≠ [] :=
      htracked.active ((JsonRpcClient.sendRequest_state_connected { a.run.client with
        m_sock := a.run.client.m_sock.establish }).mpr rfl)
    rcases writes_connected a.run.client with ⟨hwrites, -⟩ | ⟨-, hids, hsame⟩
    · exact hnot hwrites
    · rw [hids, hsame] at hactive
      exact hactive.mp ((Bool.not_eq_false _).mp htimer) rfl
  | _ => exact absurd trivial hC

/-- An error that answers the only request leaves the timer running. -/
theorem error_leaves_timer :
    ¬ ∀ (adapter : JsonRpcAdapter) (url : Url) (es : List Event) (a : Awaiting),
      exec (step adapter) (initial url) es = some a → Tracked adapter a := by
  intro h
  have hrun : (exec (step loginAdapter) (initial ⟨"pool", 3333⟩)
      [.connectToHost, .hostFound, .connected, .jsonRpcMethod "login" none,
        .processData [("id", .str "1"), ("error", .obj [("code", .int (-1))])]]).map
        (fun a => (a.run.client.m_sock.state, a.run.client.m_request_timer, a.outstanding)) =
      some (.connected, true, []) := by
    decide +kernel
  obtain ⟨a, ha, hstate⟩ := Option.map_eq_some_iff.mp hrun
  injection hstate with hs hrest
  injection hrest with htimer hnone
  exact ((h _ _ _ a ha).active hs).mp htimer hnone

end Awaiting
end MinerGate.JsonRpc
