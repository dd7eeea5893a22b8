import MinerGate.Pool.LoginRetry

/-!
# Switching to another pool

The url is one thing and the connection another. `setPool` changes only the url, `start` leaves a
session, a connection and a retry as they are, and `switchToPool` looks at the url alone.
-/

namespace MinerGate.JsonRpc.JsonRpcClient

set_option autoImplicit false

variable {b c d : JsonRpcClient} {tick : Bool} {obj : JsonObject}

/-- From `c` to `d` the connection goes on, or a new one is made to the url; what is in progress
belongs to a connection. -/
structure Keeps (c d : JsonRpcClient) : Prop where
  url : d.m_url = c.m_url
  peer : (c.m_sock.state ≠ .unconnected → c.m_sock.peer = c.m_url) →
    d.m_sock.state ≠ .unconnected → d.m_sock.peer = c.m_url
  engaged : c.m_sock.state ≠ .unconnected ∨ c.m_connect_timer = true →
    d.m_sock.state ≠ .unconnected ∨ d.m_connect_timer = true
  progress : (∀ p ∈ c.progress, c.m_sock.state = .connected) →
    ∀ p ∈ d.progress, d.m_sock.state = .connected

theorem Keeps.trans (h : Keeps c b) (h' : Keeps b d) : Keeps c d where
  url := h'.url.trans h.url
  peer hpeer hstate := by
    rw [← h.url]
    exact h'.peer (fun hs => (h.peer hpeer hs).trans h.url.symm) hstate
  engaged he := h'.engaged (h.engaged he)
  progress hp := h'.progress (h.progress hp)

/-- What the socket and the connect timer are like decides, and that nothing is added to what is in
progress. -/
theorem Keeps.of_sock (hurl : d.m_url = c.m_url) (hstate : d.m_sock.state = c.m_sock.state)
    (hpeer : d.m_sock.peer = c.m_sock.peer) (htimer : d.m_connect_timer = c.m_connect_timer)
    (hprogress : c.m_sock.state = .connected ∨ d.progress ⊆ c.progress) : Keeps c d where
  url := hurl
  peer h hs := by
    rw [hpeer]
    exact h (hstate ▸ hs)
  engaged h := by rwa [hstate, htimer]
  progress h p hp := by
    rw [hstate]
    rcases hprogress with hs | hsub
    · exact hs
    · exact h p (hsub hp)

theorem Keeps.refl (c : JsonRpcClient) : Keeps c c :=
  .of_sock rfl rfl rfl rfl (Or.inr (List.Subset.refl _))

theorem dial_keeps (hs : c.m_sock.state ≠ .connecting ∧ c.m_sock.state ≠ .connected) :
    Keeps c c.dial where
  url := rfl
  peer h _ := by
    show (if c.m_sock.state = .unconnected then c.m_url else c.m_sock.peer) = c.m_url
    split
    case isTrue => rfl
    case isFalse hstate => exact h hstate
  engaged _ := Or.inl (by simp [c.dial_state hs])
  progress h p hp := absurd (h p hp) hs.2

theorem connectToHost_keeps (c : JsonRpcClient) (tick : Bool) : Keeps c (c.connectToHost tick) := by
  have hbytes : Keeps c { c with m_bytes_to_write := 0 } :=
    .of_sock rfl rfl rfl rfl (Or.inr (List.Subset.refl _))
  rcases c.connectToHost_cases tick with ⟨-, heq⟩ | ⟨-, hconn, b, rfl | rfl, h1, h2, heq⟩
  · rw [heq]
    exact hbytes
  · rw [heq]
    exact hbytes.trans (dial_keeps ⟨h1, h2⟩)
  · rw [heq]
    refine ⟨rfl, fun _ _ => rfl, fun _ => Or.inl ?_, fun h p hp => absurd (h p hp) hconn⟩
    simp [dial_state _ ⟨h1, h2⟩]

/-- Afterwards there is a connection, one is being made, or the next try is to come. -/
theorem connectToHost_engaged (c : JsonRpcClient) (tick : Bool) :
    (c.connectToHost tick).m_sock.state ≠ .unconnected ∨
      (c.connectToHost tick).m_connect_timer = true := by
  rcases c.connectToHost_cases tick with ⟨⟨ht, -⟩ | hs, heq⟩ | ⟨-, -, b, -, h1, h2, heq⟩
  · rw [heq]
    exact Or.inr ht
  · rw [heq]
    exact Or.inl (by simp [hs])
  · rw [heq]
    exact Or.inl (by simp [dial_state b ⟨h1, h2⟩])

theorem sendRequest_keeps (c : JsonRpcClient) : Keeps c c.sendRequest := by
  rcases c.sendRequest_cases with heq | ⟨-, -, heq⟩ | ⟨hs, -, -, obj, rest, -, ⟨-, heq⟩ | ⟨-, heq⟩⟩
  · rw [heq]
    exact .refl c
  · rw [heq]
    exact c.connectToHost_keeps false
  · rw [heq]
    exact .of_sock rfl rfl rfl rfl (Or.inl hs)
  · rw [heq]
    exact .of_sock rfl rfl rfl rfl (Or.inl hs)

theorem jsonRpcMethod_keeps (c : JsonRpcClient) (method : String) (args : Option Json) :
    Keeps c (c.jsonRpcMethod method args) :=
  (Keeps.of_sock (c := c) (d := c.enqueue method args) rfl rfl rfl rfl
    (Or.inr (List.Subset.refl _))).trans (c.enqueue method args).sendRequest_keeps

theorem bytesWritten_keeps (c : JsonRpcClient) (bytes : Nat) : Keeps c (c.bytesWritten bytes) := by
  have hcount : Keeps c { c with m_bytes_to_write := c.m_bytes_to_write - bytes } :=
    .of_sock rfl rfl rfl rfl (Or.inr (List.Subset.refl _))
  rw [bytesWritten]
  split
  · exact hcount.trans (sendRequest_keeps _)
  · exact hcount

/-- After `abort` and a full reset the next connection is to the url. -/
theorem reconnect_keeps (hurl : d.m_url = c.m_url) (hstate : d.m_sock.state = .unconnected)
    (hprogress : d.progress = []) : Keeps c (d.connectToHost false) := by
  have h := d.connectToHost_keeps false
  refine ⟨h.url.trans hurl, fun _ hs => ?_, fun _ => d.connectToHost_engaged false, fun _ => ?_⟩
  · rw [← hurl]
    exact h.peer (fun hne => absurd hstate hne) hs
  · exact h.progress (by simp [hprogress])

theorem resetRequest_keeps (c : JsonRpcClient) : Keeps c c.resetRequest :=
  reconnect_keeps rfl rfl rfl

theorem setProxy_keeps (c : JsonRpcClient) : Keeps c c.setProxy := reconnect_keeps rfl rfl rfl

theorem hostFound_keeps (hs : c.m_sock.state = .hostLookup) :
    Keeps c { c with m_sock := c.m_sock.hostFound } := by
  refine ⟨rfl, fun h _ => h (by simp [hs]), fun _ => Or.inl (by simp [Socket.hostFound]), ?_⟩
  intro h p hp
  have hconnected := h p hp
  rw [hs] at hconnected
  cases hconnected

theorem connected_keeps (hs : c.m_sock.state = .connecting) : Keeps c c.connected := by
  have hsent := sendRequest_keeps { c with m_sock := c.m_sock.establish }
  have hstate : c.connected.m_sock.state = .connected :=
    (sendRequest_state_connected { c with m_sock := c.m_sock.establish }).mpr rfl
  refine ⟨hsent.url, fun h hup => ?_, fun _ => Or.inl (by simp [hstate]), fun _ _ _ => hstate⟩
  exact hsent.peer (fun _ => h (by simp [hs])) hup

theorem takeRequest_keeps (c : JsonRpcClient) (id : Nat) (timer : Bool) :
    Keeps c ({ c with m_request_timer := timer }.takeRequest id).2 :=
  .of_sock rfl rfl rfl rfl (Or.inr fun _ hp => (mem_takeRequest_progress.mp hp).1)

theorem processData_keeps (c : JsonRpcClient) (adapter : JsonRpcAdapter) (obj : JsonObject) :
    Keeps c (c.processData adapter obj).1 := by
  rcases c.processData_client adapter obj with hsame | ⟨timer, htake⟩
  · rw [hsame]
    exact .refl c
  · rw [htake]
    exact c.takeRequest_keeps (idOf obj) timer

theorem errorReconnect_timer (c : JsonRpcClient) : c.errorReconnect.m_connect_timer = true := by
  rw [errorReconnect_eq]

theorem errorReconnect_keeps (c : JsonRpcClient) : Keeps c c.errorReconnect := by
  rw [errorReconnect_eq]
  exact ⟨rfl, fun h => h, fun _ => Or.inr rfl, fun h => h⟩

end MinerGate.JsonRpc.JsonRpcClient

namespace MinerGate.Pool.PoolSwitch

set_option autoImplicit false

open JsonRpc JsonRpcClient Transition Client LoginRetry
open StratumClient (protocol setNewJob login getjob submit error invoke submitShare)

/-- The part of `AbstractMinerEngine::startCpuImpl` that reaches the client. -/
def startCpuImpl (s : Client) (pool : Url) (worker : String) : Client :=
  ((s.setPool pool).setWorkerName worker).start

/-- `started`: a device of the list has not been mining yet. -/
def startGpuImpl (s : Client) (pool : Url) (worker : String) (started : Bool) : Client :=
  let s := (s.setPool pool).setWorkerName worker
  if started then s.start else s

def restartImpl (s : Client) (pool : Url) : Client := s.switchToPool pool

inductive Op where
  | event (e : Event)
  | startCpuImpl (pool : Url) (worker : String)
  | startGpuImpl (pool : Url) (worker : String) (started : Bool)
  | restartImpl (pool : Url)

def call (s : Client) : Op → Option Client
  | .event e => Client.step protocol s e
  | .startCpuImpl pool worker => some (startCpuImpl s pool worker)
  | .startGpuImpl pool worker started => some (startGpuImpl s pool worker started)
  | .restartImpl pool => some (restartImpl s pool)

/-- What the calls so far ask for: nothing, a pool that is set, or the pool to be connected to. -/
inductive Phase where
  | idle
  | chosen (pool : Url)
  | following (pool : Url)
deriving DecidableEq, Repr

def noteCall (_ : Client) (op : Op) (phase : Phase) : Phase :=
  match op, phase with
  | .event (.setPool pool), _ => .chosen pool
  | .event .start, .chosen pool => .following pool
  | .event (.switchToPool pool), _ => .following pool
  | .event .stop, _ => .idle
  | .startCpuImpl pool _, _ => .following pool
  | .startGpuImpl pool _ _, _ => .following pool
  | .restartImpl pool, _ => .following pool
  | _, phase => phase

abbrev step : Client × Phase → Op → Option (Client × Phase) := watch call noteCall

def inError (s : Client) : Bool :=
  match s.handler with
  | .error => true
  | _ => false

/-- The next try to connect is to come: from a timer, or from one that the slot for a socket error
is about to start. -/
def Waiting (s : Client) : Prop :=
  s.rpc.m_connect_timer = true ∨ s.m_login_timer = true ∨ inError s = true

def Toward (s : Client) (pool : Url) : Prop :=
  s.rpc.m_sock.state ≠ .unconnected → s.rpc.m_sock.peer = pool

def Engaged (s : Client) : Prop := s.rpc.m_sock.state ≠ .unconnected ∨ Waiting s

instance (s : Client) : Decidable (Waiting s) := inferInstanceAs (Decidable (_ ∨ _ ∨ _))

instance (s : Client) (pool : Url) : Decidable (Toward s pool) :=
  inferInstanceAs (Decidable (_ → _))

instance (s : Client) : Decidable (Engaged s) := inferInstanceAs (Decidable (_ ∨ _))

/-- The client is connected, connecting or waiting to connect to the pool, and to no other one. -/
structure Following (s : Client) (pool : Url) : Prop where
  url : s.rpc.m_url = pool
  toward : Toward s pool
  engaged : Engaged s

/-- `start` takes the client to the pool: there is no connection to another one, or one that is only
being made, with no session and no retry under way, so that it is given up. -/
def StartsOn (s : Client) (pool : Url) : Prop :=
  Toward s pool ∨
    s.session = none ∧ s.rpc.m_connect_timer = false ∧ s.rpc.m_sock.state = .connecting

/-- `switchToPool` takes the client to the pool: its url is another one, or the client is on its way
already. -/
def SwitchesTo (s : Client) (pool : Url) : Prop :=
  s.rpc.m_url ≠ pool ∨ Toward s pool ∧ Engaged s

instance (s : Client) (pool : Url) : Decidable (StartsOn s pool) :=
  inferInstanceAs (Decidable (_ ∨ _))

instance (s : Client) (pool : Url) : Decidable (SwitchesTo s pool) :=
  inferInstanceAs (Decidable (_ ∨ _))

/-- The condition on the state before a call that is to take the client to a pool. -/
def Meets (p : Client × Phase) : Op → Prop
  | .event .start =>
    match p.2 with
    | .chosen pool => StartsOn p.1 pool
    | _ => True
  | .event (.switchToPool pool) => SwitchesTo p.1 pool
  | .startCpuImpl pool _ => StartsOn p.1 pool
  | .startGpuImpl pool _ started =>
    if started then StartsOn p.1 pool else Toward p.1 pool ∧ Engaged p.1
  | .restartImpl pool => SwitchesTo p.1 pool
  | _ => True

/-- What is in progress belongs to a connection, and a session to one or to the retry after it. -/
structure Steady (s : Client) : Prop where
  progress : ∀ p ∈ s.rpc.progress, s.rpc.m_sock.state = .connected
  session : s.session.isSome = true →
    s.rpc.m_sock.state ≠ .unconnected ∨ s.rpc.m_connect_timer = true

/-- A step that is no call of the engine: the client goes where it went. -/
structure Goes (s t : Client) : Prop where
  url : t.rpc.m_url = s.rpc.m_url
  steady : Steady t
  following : ∀ pool, Following s pool → Following t pool

variable {s t : Client} {pool : Url} {e : Event}

theorem engaged_of_rpc (h : s.rpc.m_sock.state ≠ .unconnected ∨ s.rpc.m_connect_timer = true) :
    Engaged s :=
  h.imp_right Or.inl

theorem Steady.of_keeps (h : Steady s) (hk : Keeps s.rpc t.rpc)
    (hsession : t.session.isSome = true →
      s.session.isSome = true ∨ t.rpc.m_sock.state = .connected) : Steady t where
  progress := hk.progress h.progress
  session hsome := by
    rcases hsession hsome with hs | hs
    · exact hk.engaged (h.session hs)
    · exact Or.inl (by simp [hs])

theorem Goes.of_keeps (h : Steady s) (hk : Keeps s.rpc t.rpc)
    (hsession : t.session.isSome = true →
      s.session.isSome = true ∨ t.rpc.m_sock.state = .connected)
    (hwait : s.m_login_timer = true ∨ inError s = true → Engaged t) : Goes s t where
  url := hk.url
  steady := h.of_keeps hk hsession
  following pool hf := by
    refine ⟨hk.url.trans hf.url, ?_, ?_⟩
    · have hpeer := hk.peer fun hs => (hf.toward hs).trans hf.url.symm
      exact fun hs => (hpeer hs).trans hf.url
    · rcases hf.engaged with hs | ht | hwaits
      · exact engaged_of_rpc (hk.engaged (Or.inl hs))
      · exact engaged_of_rpc (hk.engaged (Or.inr ht))
      · exact hwait hwaits

/-- The rest of the client stays as it is. -/
theorem Goes.of_rpc (h : Steady s) (hk : Keeps s.rpc t.rpc) (hsession : t.session = s.session)
    (htimer : t.m_login_timer = s.m_login_timer) (hhandler : t.handler = s.handler) : Goes s t := by
  refine .of_keeps h hk (fun hsome => Or.inl (hsession ▸ hsome)) fun hwait => Or.inr (Or.inr ?_)
  rw [htimer, inError, hhandler]
  exact hwait

theorem stop_steady (s : Client) : Steady s.stop := ⟨fun _ hp => (by cases hp), fun h => (by cases h)⟩

theorem setPool_steady (h : Steady s) (pool : Url) : Steady (s.setPool pool) :=
  ⟨h.progress, h.session⟩

theorem start_steady (h : Steady s) : Steady s.start := by
  rw [start]
  split
  case isTrue => exact h
  case isFalse => exact h.of_keeps (s.rpc.connectToHost_keeps false) Or.inl

theorem start_url (s : Client) : s.start.rpc.m_url = s.rpc.m_url := by
  rw [start]
  split
  case isTrue => rfl
  case isFalse => exact (s.rpc.connectToHost_keeps false).url

theorem start_engaged (h : Steady s) : Engaged s.start := by
  rw [start]
  split
  case isTrue hsome => exact engaged_of_rpc (h.session hsome)
  case isFalse => exact engaged_of_rpc (s.rpc.connectToHost_engaged false)

/-- `start` comes to the pool of the url exactly from the states that the condition allows. -/
theorem start_toward_iff (hurl : s.rpc.m_url = pool) : Toward s.start pool ↔ StartsOn s pool := by
  cases hsession : s.session with
  | some id =>
    have hstart : s.start = s := if_pos (by simp [hsession])
    simp [StartsOn, hstart, hsession]
  | none =>
    have hstart : s.start = s.connectToHost := if_neg (by simp [hsession])
    rw [hstart, StartsOn, hsession]
    cases htimer : s.rpc.m_connect_timer with
    | true =>
      simp [Client.connectToHost, JsonRpcClient.connectToHost, htimer, Toward]
    | false =>
      cases hstate : s.rpc.m_sock.state <;>
        simp [Client.connectToHost, JsonRpcClient.connectToHost, htimer, Toward, hstate, dial,
          JsonRpcClient.abort, Socket.abort, Socket.connectToHost, hurl]

theorem start_following_iff (h : Steady s) (hurl : s.rpc.m_url = pool) :
    Following s.start pool ↔ StartsOn s pool := by
  rw [← start_toward_iff hurl]
  exact ⟨Following.toward, fun ht => ⟨(start_url s).trans hurl, ht, start_engaged h⟩⟩

theorem switchToPool_steady (h : Steady s) (pool : Url) : Steady (s.switchToPool pool) := by
  rw [switchToPool]
  split
  case isTrue => exact start_steady (setPool_steady (stop_steady s) pool)
  case isFalse => exact h

theorem switchToPool_following_iff : Following (s.switchToPool pool) pool ↔ SwitchesTo s pool := by
  by_cases hurl : s.rpc.m_url = pool
  · have hswitch : s.switchToPool pool = s := if_neg (by simp [hurl])
    rw [hswitch, SwitchesTo]
    constructor
    · exact fun h => Or.inr ⟨h.toward, h.engaged⟩
    · rintro (hne | ⟨htoward, hengaged⟩)
      · exact absurd hurl hne
      · exact ⟨hurl, htoward, hengaged⟩
  · have hswitch : s.switchToPool pool = (s.stop.setPool pool).start :=
      if_pos (Ne.symm hurl)
    have hpool : (s.stop.setPool pool).rpc.m_url = pool := rfl
    rw [hswitch, start_following_iff (setPool_steady (stop_steady s) pool) hpool]
    exact iff_of_true (Or.inl fun hs => absurd rfl hs) (Or.inl hurl)

theorem start_goes (h : Steady s) : Goes s s.start where
  url := start_url s
  steady := start_steady h
  following _ hf := (start_following_iff h hf.url).mpr (Or.inl hf.toward)

theorem request_goes (h : Steady s) (method : String) (args : Json) :
    Goes s (s.request method args) :=
  .of_rpc h (.refl s.rpc) rfl rfl rfl

theorem socketError_goes (s : Client) :
    Goes s { socketError { s with rpc := s.rpc.abort.errorReset } with handler := .error } where
  url := rfl
  steady := ⟨fun _ hp => (by cases hp), fun h => (by cases h)⟩
  following _ hf := ⟨hf.url, fun hs => absurd rfl hs, Or.inr (Or.inr (Or.inr rfl))⟩

theorem deliver_goes (h : Steady s) {k : Nat} (hs : s.deliverWhenIdle k = some t) : Goes s t := by
  obtain ⟨call, -, ⟨-, rfl⟩ | ⟨-, rfl⟩⟩ := deliverWhenIdle_eq_some hs
  · exact .of_rpc h (.refl s.rpc) rfl rfl rfl
  · exact .of_rpc h (s.rpc.jsonRpcMethod_keeps _ _) rfl rfl rfl

theorem error_stops {code : Int} {message data : String} {request : JsonObject}
    (h : sleeps (.error code message data request) = true) :
    (error s code).rpc.m_sock.state = .unconnected ∧ (error s code).rpc.progress = [] ∧
      (error s code).session = none ∧ (error s code).rpc.m_url = s.rpc.m_url := by
  rw [StratumClient.error]
  split
  case h_1 hcode => simp [sleeps, hcode] at h
  case h_9 | h_10 => exact ⟨rfl, rfl, rfl, rfl⟩
  all_goals
    rename_i hcode
    simp [sleeps, isShareError, hcode] at h

/-- A response answers a request in progress, so that there is a connection. -/
theorem response_connected (h : Steady s) {obj : JsonObject} {rpc : JsonRpcClient}
    {method : String} {result : Json}
    (hdata : s.rpc.processData StratumAdapter obj = (rpc, some (.response method result))) :
    s.rpc.m_sock.state = .connected := by
  rcases s.rpc.processData_cases StratumAdapter obj with ⟨-, heq⟩ | ⟨-, -, heq⟩ | heq
  · obtain ⟨-, code, message, data, request, herror⟩ := s.rpc.processError_cases obj
    rw [heq] at hdata
    rw [hdata] at herror
    cases herror
  · rw [hdata] at heq
    have hnotification := (congrArg (·.2) heq).symm
    rcases processNotification_cases StratumAdapter obj with hnone | ⟨params, hsome⟩
    · rw [hnone] at hnotification
      cases hnotification
    · rw [hsome] at hnotification
      cases hnotification
  · rw [heq] at hdata
    rcases (s.rpc.processResponse_cases StratumAdapter obj).2 with hnone | ⟨hmethod, -⟩
    · rw [hdata] at hnone
      cases hnone
    · obtain ⟨request, hp, -⟩ := s.rpc.exists_request_of_response StratumAdapter hmethod
      exact h.progress _ hp

theorem response_of_isLoginResponse {i : Invocation} (h : isLoginResponse i = true) :
    ∃ method result, i = .response method result := by
  cases i with
  | response method result => exact ⟨method, result, rfl⟩
  | error code message data request | notification method params => cases h

theorem isLoginResponse_of_grantsSession {i : Invocation} (h : grantsSession i = true) :
    isLoginResponse i = true := by
  rw [grantsSession.eq_def] at h
  split at h
  case h_1 => rfl
  case h_2 => cases h

theorem invoke_goes {u : Client} (h : Steady u) {i : Invocation}
    (hconnected : isLoginResponse i = true → u.rpc.m_sock.state = .connected)
    (hhandler : inError u = false) (hs : invoke u i = some t) : Goes u t := by
  cases hsleeps : sleeps i with
  | false =>
    have heffect := invoke_effect hsleeps hs
    have hk : Keeps u.rpc t.rpc := by
      rw [heffect.rpc]
      split
      · exact .of_sock rfl rfl rfl rfl (Or.inr (List.Subset.refl _))
      · exact .refl u.rpc
    have hstate : t.rpc.m_sock.state = u.rpc.m_sock.state := by
      rw [heffect.rpc]
      split <;> rfl
    refine .of_keeps h hk (fun hsome => ?_) fun hwait => ?_
    · rcases heffect.session.mp hsome with hgrant | ⟨hsession, -⟩
      · exact Or.inr (hstate.trans (hconnected (isLoginResponse_of_grantsSession hgrant)))
      · exact Or.inl hsession
    · rcases hwait with htimer | herror
      · cases hlogin : isLoginResponse i with
        | true => exact Or.inl (by simp [hstate, hconnected hlogin])
        | false => exact Or.inr (Or.inr (Or.inl (heffect.login_timer.mpr ⟨htimer, hlogin⟩)))
      · rw [hhandler] at herror
        cases herror
  | true =>
    have htimer := invoke_sleeps hsleeps hs
    cases i with
    | error code message data request =>
      cases hs
      obtain ⟨hstate, hprogress, hsession, hurl⟩ := error_stops (s := u) hsleeps
      refine ⟨hurl, ⟨?_, ?_⟩, fun pool hf => ⟨hurl.trans hf.url, ?_, Or.inr (Or.inr (Or.inl htimer))⟩⟩
      · simp [hprogress]
      · simp [hsession]
      · exact fun hs => absurd hstate hs
    | notification method params | response method result => cases hsleeps

theorem Goes.trans {u : Client} (h : Goes s u) (h' : Goes u t) : Goes s t where
  url := h'.url.trans h.url
  steady := h'.steady
  following pool hf := h'.following pool (h.following pool hf)

theorem processLine_goes {u : Client} (h : Steady u) (hhandler : inError u = false)
    {obj : JsonObject} (hs : Client.processLine protocol u obj = some t) : Goes u t := by
  have hdata := u.rpc.processData_keeps StratumAdapter obj
  rcases StratumClient.processLine_cases hs with ⟨rpc, heq, rfl⟩ | ⟨rpc, i, heq, hinvoke⟩
  · rw [heq] at hdata
    exact .of_rpc h hdata rfl rfl rfl
  · have hconnected : isLoginResponse i = true → u.rpc.m_sock.state = .connected := by
      intro hlogin
      obtain ⟨method, result, rfl⟩ := response_of_isLoginResponse hlogin
      exact response_connected h heq
    have hsock := u.rpc.processData_sock StratumAdapter obj
    rw [heq] at hdata hsock
    have hgoes : Goes u { u with rpc := rpc } := .of_rpc h hdata rfl rfl rfl
    refine hgoes.trans (invoke_goes hgoes.steady (fun hlogin => ?_) hhandler hinvoke)
    show rpc.m_sock.state = .connected
    rw [show rpc.m_sock = u.rpc.m_sock from hsock]
    exact hconnected hlogin

theorem proceed_goes (h : Steady s) (hs : Client.proceed protocol s = some t) : Goes s t := by
  rw [Client.proceed] at hs
  split at hs
  case h_1 => cases hs
  case h_2 obj rest hhandler =>
    have hidle : inError s = false := by rw [inError, hhandler]
    have hrest : Goes s { s with handler := .readyRead rest } := by
      refine .of_keeps h (.refl s.rpc) Or.inl fun hwait => Or.inr (Or.inr (Or.inl ?_))
      exact hwait.resolve_right (by simp [hidle])
    exact hrest.trans (processLine_goes hrest.steady rfl hs)
  case h_3 hhandler =>
    cases hs
    have hidle : inError s = false := by rw [inError, hhandler]
    refine .of_keeps h s.rpc.sendRequest_keeps Or.inl fun hwait => Or.inr (Or.inr (Or.inl ?_))
    exact hwait.resolve_right (by simp [hidle])
  case h_4 =>
    cases hs
    exact .of_keeps h s.rpc.errorReconnect_keeps Or.inl
      fun _ => Or.inr (Or.inl s.rpc.errorReconnect_timer)

/-- The calls that choose a pool, start and stop. -/
def IsCall : Event → Prop
  | .start | .stop | .switchToPool _ | .setPool _ => True
  | _ => False

/-- Whatever else happens, the client goes where it went, and comes back to it. -/
theorem step_goes (h : Steady s) (he : ¬ IsCall e) (hs : Client.step protocol s e = some t) :
    Goes s t := by
  cases e with
  | start | stop | switchToPool url | setPool url => exact absurd trivial he
  | setWorkerName worker =>
    cases hs
    exact .of_rpc h (.refl s.rpc) rfl rfl rfl
  | submitShare jobId nonce hash =>
    cases hs
    show Goes s (submitShare s jobId nonce hash)
    rw [submitShare]
    split
    case isTrue => exact .of_rpc h (.refl s.rpc) rfl rfl rfl
    case isFalse => exact request_goes h _ _
  | deliver k => exact deliver_goes h hs
  | proceed => exact proceed_goes h hs
  | loginTimeout =>
    obtain ⟨-, rfl⟩ := whenIdle_eq_some hs
    exact request_goes h _ _
  | connectTimeout =>
    obtain ⟨-, rfl⟩ := whenIdle_eq_some hs
    exact .of_rpc h (s.rpc.connectToHost_keeps true) rfl rfl rfl
  | requestTimeout =>
    obtain ⟨-, rfl⟩ := whenIdle_eq_some hs
    exact .of_rpc h s.rpc.resetRequest_keeps rfl rfl rfl
  | updateProxy =>
    obtain ⟨-, rfl⟩ := whenIdle_eq_some hs
    exact .of_rpc h s.rpc.setProxy_keeps rfl rfl rfl
  | hostFound =>
    obtain ⟨hstate, rfl⟩ := whenIdle_eq_some hs
    exact .of_rpc h (hostFound_keeps hstate) rfl rfl rfl
  | connected =>
    obtain ⟨hstate, rfl⟩ := whenIdle_eq_some hs
    exact .of_rpc h (connected_keeps hstate) rfl rfl rfl
  | socketError =>
    obtain ⟨-, rfl⟩ := whenIdle_eq_some hs
    exact socketError_goes s
  | bytesWritten bytes =>
    obtain ⟨-, rfl⟩ := whenIdle_eq_some hs
    exact .of_rpc h (s.rpc.bytesWritten_keeps bytes) rfl rfl rfl
  | readyRead objs =>
    have hidle : inError s = false := by rw [inError, handler_of_whenIdle hs]
    obtain ⟨-, rfl⟩ := whenIdle_eq_some hs
    refine .of_keeps h (.refl s.rpc) Or.inl fun hwait => Or.inr (Or.inr (Or.inl ?_))
    exact hwait.resolve_right (by simp [hidle])

/-- The client is on its way to the pool that it is to follow, and its url is the pool that is set. -/
structure Inv (p : Client × Phase) : Prop where
  steady : Steady p.1
  chosen : ∀ pool, p.2 = .chosen pool → p.1.rpc.m_url = pool
  following : ∀ pool, p.2 = .following pool → Following p.1 pool

theorem Inv.goes {phase : Phase} (h : Inv (s, phase)) (hg : Goes s t) : Inv (t, phase) where
  steady := hg.steady
  chosen pool hp := hg.url.trans (h.chosen pool hp)
  following pool hp := hg.following pool (h.following pool hp)

theorem Inv.of_following (hsteady : Steady t) (h : Following t pool) : Inv (t, .following pool) where
  steady := hsteady
  chosen := fun _ hp => (by cases hp)
  following := fun _ hp => (by cases hp; exact h)

theorem startCpuImpl_following_iff (h : Steady s) {worker : String} :
    Following (startCpuImpl s pool worker) pool ↔ StartsOn s pool :=
  start_following_iff (s := (s.setPool pool).setWorkerName worker) ⟨h.progress, h.session⟩ rfl

theorem startCpuImpl_steady (h : Steady s) (pool : Url) (worker : String) :
    Steady (startCpuImpl s pool worker) :=
  start_steady (s := (s.setPool pool).setWorkerName worker) ⟨h.progress, h.session⟩

theorem startGpuImpl_following_iff (h : Steady s) {worker : String} {started : Bool} :
    Following (startGpuImpl s pool worker started) pool ↔
      if started then StartsOn s pool else Toward s pool ∧ Engaged s := by
  cases started with
  | true => exact startCpuImpl_following_iff h
  | false => exact ⟨fun hf => ⟨hf.toward, hf.engaged⟩, fun hf => ⟨rfl, hf.1, hf.2⟩⟩

theorem startGpuImpl_steady (h : Steady s) (pool : Url) (worker : String) (started : Bool) :
    Steady (startGpuImpl s pool worker started) := by
  cases started with
  | true => exact startCpuImpl_steady h pool worker
  | false => exact ⟨h.progress, h.session⟩

theorem noteCall_of_not_isCall {phase : Phase} (he : ¬ IsCall e) :
    noteCall s (.event e) phase = phase := by
  cases e with
  | start | stop | switchToPool url | setPool url => exact absurd trivial he
  | _ => rfl

theorem start_inv {phase : Phase} (h : Inv (s, phase)) (hm : Meets (s, phase) (.event .start)) :
    Inv (s.start, noteCall s (.event .start) phase) := by
  cases phase with
  | idle | following pool => exact h.goes (start_goes h.steady)
  | chosen pool =>
    exact .of_following (start_steady h.steady)
      ((start_following_iff h.steady (h.chosen pool rfl)).mpr hm)

theorem step_inv {p q : Client × Phase} {op : Op} (h : Inv p) (hm : Meets p op)
    (hs : step p op = some q) : Inv q := by
  obtain ⟨s, phase⟩ := p
  obtain ⟨t, phase'⟩ := q
  obtain ⟨hcall, rfl⟩ := watch_eq_some.mp hs
  cases op with
  | startCpuImpl pool worker =>
    cases hcall
    exact .of_following (startCpuImpl_steady h.steady pool worker)
      ((startCpuImpl_following_iff h.steady).mpr hm)
  | startGpuImpl pool worker started =>
    cases hcall
    exact .of_following (startGpuImpl_steady h.steady pool worker started)
      ((startGpuImpl_following_iff h.steady).mpr hm)
  | restartImpl pool =>
    cases hcall
    exact .of_following (switchToPool_steady h.steady pool) (switchToPool_following_iff.mpr hm)
  | event e =>
    by_cases he : IsCall e
    · cases e with
      | start =>
        cases hcall
        exact start_inv h hm
      | stop =>
        cases hcall
        exact ⟨stop_steady s, fun _ hp => (by cases hp), fun _ hp => (by cases hp)⟩
      | switchToPool pool =>
        cases hcall
        exact .of_following (switchToPool_steady h.steady pool) (switchToPool_following_iff.mpr hm)
      | setPool pool =>
        cases hcall
        exact ⟨setPool_steady h.steady pool, fun _ hp => (by cases hp; rfl),
          fun _ hp => (by cases hp)⟩
      | _ => exact he.elim
    · rw [noteCall_of_not_isCall he]
      exact h.goes (step_goes h.steady he hcall)

/-- A call from a state that the condition leaves out does not take the client to the pool. -/
theorem step_not_following {p : Client × Phase} {op : Op} (h : Inv p) (hm : ¬ Meets p op) :
    ∃ q, step p op = some q ∧ ¬ ∀ pool, q.2 = .following pool → Following q.1 pool := by
  obtain ⟨s, phase⟩ := p
  cases op with
  | startCpuImpl pool worker =>
    exact ⟨_, rfl, fun hf => hm ((startCpuImpl_following_iff h.steady).mp (hf pool rfl))⟩
  | startGpuImpl pool worker started =>
    exact ⟨_, rfl, fun hf => hm ((startGpuImpl_following_iff h.steady).mp (hf pool rfl))⟩
  | restartImpl pool =>
    exact ⟨_, rfl, fun hf => hm (switchToPool_following_iff.mp (hf pool rfl))⟩
  | event e =>
    cases e with
    | start =>
      cases phase with
      | idle | following pool => exact absurd trivial hm
      | chosen pool =>
        exact ⟨_, rfl, fun hf =>
          hm ((start_following_iff h.steady (h.chosen pool rfl)).mp (hf pool rfl))⟩
    | switchToPool pool =>
      exact ⟨_, rfl, fun hf => hm (switchToPool_following_iff.mp (hf pool rfl))⟩
    | _ => exact absurd trivial hm

theorem new_inv (url : Url) (userAgent worker password : String) :
    Inv (Client.new url userAgent worker password, .idle) :=
  ⟨⟨fun _ hp => (by cases hp), fun h => (by cases h)⟩, fun _ hp => (by cases hp),
    fun _ hp => (by cases hp)⟩

/-- In every state of a run the client is on its way to the pool that the last call asks for exactly
when every such call comes in a state from which it gets there. -/
theorem follows_url_iff (url : Url) (userAgent worker password : String) (ops : List Op) :
    (∀ ops' s pool, ops' <+: ops →
        exec step (Client.new url userAgent worker password, .idle) ops' =
          some (s, .following pool) → Following s pool) ↔
      Along step Meets (Client.new url userAgent worker password, .idle) ops := by
  have hrule : (∀ fs q, fs <+: ops →
      exec step (Client.new url userAgent worker password, .idle) fs = some q →
        ∀ pool, q.2 = .following pool → Following q.1 pool) ↔
      Along step Meets (Client.new url userAgent worker password, .idle) ops :=
    along_iff_reached (I := Inv) (fun _ _ _ => step_inv) (fun _ h => h.following)
      (fun _ _ => step_not_following) (new_inv url userAgent worker password)
  rw [← hrule]
  constructor
  · rintro h fs ⟨s, phase⟩ hfs hrun pool rfl
    exact h fs s pool hfs hrun
  · intro h fs s pool hfs hrun
    exact h fs _ hfs hrun pool rfl

/-- The pool changes between the start on the CPU and the one on a GPU. -/
def gpuOnOtherPool : List Op :=
  [.startCpuImpl ⟨"old", 1⟩ "worker", .event .hostFound, .event .connected,
    .startGpuImpl ⟨"new", 2⟩ "worker" true, .restartImpl ⟨"new", 2⟩]

/-- `start` finds a connection and leaves it, and then `switchToPool` finds its url. -/
theorem connected_to_old_pool :
    ¬ ∀ (ops : List Op) (s : Client) (pool : Url),
      exec step (newClient, .idle) ops = some (s, .following pool) → Following s pool := by
  intro h
  have hmap : (exec step (newClient, .idle) gpuOnOtherPool).map (fun p =>
      (p.2, p.1.rpc.m_sock.state, p.1.rpc.m_sock.peer)) =
        some (.following ⟨"new", 2⟩, .connected, ⟨"old", 1⟩) := by decide +kernel
  obtain ⟨⟨s, phase⟩, hrun, hp⟩ := Option.map_eq_some_iff.mp hmap
  simp only [Prod.mk.injEq] at hp
  obtain ⟨rfl, hstate, hpeer⟩ := hp
  have htoward := (h _ s _ hrun).toward (by simp [hstate])
  rw [hpeer] at htoward
  exact absurd htoward (by decide)

end MinerGate.Pool.PoolSwitch
