import MinerGate.JsonRpc.Correlation
import MinerGate.Pool.Stop

/-!
# Logging in again

A started client without a session must come to another login request: the socket is on its
way up, a timer will tick, or a request is waiting. Only a line from the server can take
the last of these away, so the condition is one on lines.
-/

namespace MinerGate.JsonRpc.JsonRpcClient

set_option autoImplicit false

open Correlation

def isLogin (obj : JsonObject) : Prop := methodOf obj = "login"

/-- The client is connecting, will try to, or has a login request that waits to be sent or, with the
request timer running, to be answered. -/
inductive Busy (c : JsonRpcClient) : Prop where
  | connecting (h : c.m_sock.state = .hostLookup ∨ c.m_sock.state = .connecting)
  | connectTimer (h : c.m_connect_timer = true)
  | queued (h : ∃ obj ∈ c.queue, isLogin obj)
  | inFlight (timer : c.m_request_timer = true) (h : ∃ p ∈ c.progress, isLogin p.2)

/-- The ids of the requests that wait are their own. -/
def Tracked (c : JsonRpcClient) : Prop := ∃ created, Inv ⟨c, created, []⟩

variable {c d : JsonRpcClient} {obj : JsonObject}

theorem Tracked.shrink (h : Tracked c) (hd : Shrinks c d) : Tracked d := by
  obtain ⟨created, h⟩ := h
  exact ⟨created, h.shrink hd⟩

theorem Tracked.connectToHost (h : Tracked c) (tick : Bool) : Tracked (c.connectToHost tick) := by
  obtain ⟨created, h⟩ := h
  exact ⟨created, h.shrink (connectToHost_shrinks h tick)⟩

theorem Tracked.sendRequest (h : Tracked c) : Tracked c.sendRequest := by
  obtain ⟨created, h⟩ := h
  exact ⟨created, h.sendRequest⟩

theorem Tracked.enqueue (h : Tracked c) (method : String) (args : Option Json)
    (hwrap : c.m_id_counter + 1 < quint64Modulus) : Tracked (c.enqueue method args) := by
  obtain ⟨created, h⟩ := h
  exact ⟨_, h.enqueue method args hwrap⟩

theorem Tracked.processData (h : Tracked c) (adapter : JsonRpcAdapter) (obj : JsonObject) :
    Tracked (c.processData adapter obj).1 := by
  obtain ⟨created, h⟩ := h
  have h' : Inv ⟨(c.processData adapter obj).1, created, dispatches adapter c obj ++ []⟩ :=
    h.processData obj
  exact ⟨created, h'.created_ne, h'.created_le, h'.created_ids, h'.queue_created, h'.queue_ids,
    h'.progress_created, h'.apart, h'.written, by simp, .nil, by simp⟩

theorem Tracked.setSock (h : Tracked c) {s : Socket} (hs : c.m_sock.state ≠ .connected)
    (hw : s.written = c.m_sock.written) : Tracked { c with m_sock := s } := by
  obtain ⟨created, h⟩ := h
  exact ⟨created, h.setSock hs hw⟩

theorem Tracked.congr (h : Tracked c) (hq : d.m_request_queue = c.m_request_queue)
    (hsock : d.m_sock = c.m_sock) (hcounter : d.m_id_counter = c.m_id_counter) : Tracked d := by
  apply h.shrink
  refine ⟨hcounter, ?_, ?_, by rw [hsock], .inr (by rw [hsock]; exact ⟨rfl, rfl⟩)⟩
  · rw [queue, hq]
    exact List.Sublist.refl _
  · rw [progress, hq]
    exact List.Sublist.refl _

theorem Busy.congr (h : Busy c) (hq : d.m_request_queue = c.m_request_queue)
    (hstate : d.m_sock.state = c.m_sock.state) (htimer : d.m_request_timer = c.m_request_timer)
    (hconnect : d.m_connect_timer = c.m_connect_timer) : Busy d := by
  cases h with
  | connecting h => exact .connecting (by rwa [hstate])
  | connectTimer h => exact .connectTimer (by rwa [hconnect])
  | queued h => exact .queued (by rwa [queue, hq])
  | inFlight timer h => exact .inFlight (by rwa [htimer]) (by rwa [progress, hq])

theorem connectToHost_busy (tick : Bool) (h : c.m_sock.state ≠ .connected ∨ Busy c) :
    Busy (c.connectToHost tick) := by
  rcases c.connectToHost_cases tick with ⟨hc, heq⟩ | ⟨-, -, b, -, h1, h2, heq⟩
  · have hbusy : Busy c := by
      rcases h with h | h
      · exact .connectTimer (hc.resolve_right h).1
      · exact h
    rw [heq]
    exact hbusy.congr rfl rfl rfl rfl
  · rw [heq]
    exact .connecting (.inl (dial_state b ⟨h1, h2⟩))

/-- A request that is written takes the place of no other one. -/
theorem Busy.sendRequest (h : Busy c) (ht : Tracked c) : Busy c.sendRequest := by
  rcases c.sendRequest_cases with heq | ⟨hs, -, heq⟩ | ⟨hs, htimer, -, obj, rest, hq, heq⟩
  · rwa [heq]
  · rw [heq]
    exact connectToHost_busy false (.inl hs)
  · obtain ⟨created, hinv⟩ := ht
    have hobj : obj ∈ c.queue := hq ▸ List.mem_cons_self
    have hne : obj.isEmpty = false := hinv.created_ne obj (hinv.queue_created obj hobj)
    have heq : c.sendRequest = c.dequeue.write obj := by
      rcases heq with ⟨hempty, -⟩ | ⟨-, heq⟩
      · rw [hne] at hempty
        cases hempty
      · exact heq
    have hprogress : (c.dequeue.write obj).progress =
        c.progress.filter (fun p => p.1 ≠ idOf obj) ++ [(idOf obj, obj)] := by
      simp only [queue] at hq
      simp [progress, write, dequeue, JsonRpcQueueHandler.getRequestForProcess, hq]
    rw [heq]
    cases h with
    | connecting h => exact absurd hs (by rcases h with h | h <;> rw [h] <;> decide)
    | connectTimer h =>
      rw [htimer] at h
      cases h
    | queued h =>
      obtain ⟨o, ho, hlogin⟩ := h
      rw [hq] at ho
      rcases List.mem_cons.mp ho with rfl | ho
      · refine .inFlight rfl ⟨(idOf o, o), ?_, hlogin⟩
        rw [hprogress]
        exact List.mem_append_right _ List.mem_cons_self
      · refine .queued ⟨o, ?_, hlogin⟩
        show o ∈ c.dequeue.queue
        rwa [dequeue_queue hq]
    | inFlight timer h =>
      obtain ⟨p, hp, hlogin⟩ := h
      refine .inFlight rfl ⟨p, ?_, hlogin⟩
      rw [hprogress]
      have hapart := (hinv.apart obj hobj p hp).symm
      exact List.mem_append_left _ (List.mem_filter.mpr ⟨hp, by simpa using hapart⟩)

theorem Busy.enqueue (h : Busy c) (method : String) (args : Option Json) :
    Busy (c.enqueue method args) := by
  cases h with
  | connecting h => exact .connecting h
  | connectTimer h => exact .connectTimer h
  | queued h =>
    obtain ⟨o, ho, hlogin⟩ := h
    exact .queued ⟨o, List.mem_append_left _ ho, hlogin⟩
  | inFlight timer h => exact .inFlight timer h

theorem enqueue_login_busy (c : JsonRpcClient) (args : Option Json) :
    Busy (c.enqueue "login" args) :=
  .queued ⟨_, List.mem_append_right _ List.mem_cons_self, c.methodOf_newRequest "login" args⟩

def isErrorLine (obj : JsonObject) : Prop := obj.contains "error" ∧ ¬ (obj.value "error").isNull

instance (obj : JsonObject) : Decidable (isErrorLine obj) := inferInstanceAs (Decidable (_ ∧ _))

instance (obj : JsonObject) : Decidable (isLogin obj) := inferInstanceAs (Decidable (_ = _))

def stopsTimer (obj : JsonObject) : Prop := ¬ isErrorLine obj ∧ obj.contains "id"

instance (obj : JsonObject) : Decidable (stopsTimer obj) := inferInstanceAs (Decidable (_ ∧ _))

def StillAwaited (c : JsonRpcClient) (obj : JsonObject) : Prop :=
  c.m_request_timer = true ∧ ¬ stopsTimer obj ∧
    ∃ p ∈ c.progress, isLogin p.2 ∧ (isErrorLine obj ∧ obj.contains "id" → p.1 ≠ idOf obj)

instance (c : JsonRpcClient) (obj : JsonObject) : Decidable (StillAwaited c obj) :=
  inferInstanceAs (Decidable (_ ∧ _ ∧ _))

structure LineEffect (c d : JsonRpcClient) (obj : JsonObject) : Prop where
  queue : d.queue = c.queue
  sock : d.m_sock = c.m_sock
  connect_timer : d.m_connect_timer = c.m_connect_timer
  inFlight : (d.m_request_timer = true ∧ ∃ p ∈ d.progress, isLogin p.2) ↔ StillAwaited c obj

theorem mem_takeRequest_progress {id : Nat} {p : Nat × JsonObject} {timer : Bool} :
    p ∈ ({ c with m_request_timer := timer }.takeRequest id).2.progress ↔
      p ∈ c.progress ∧ p.1 ≠ id := by
  simp [takeRequest, JsonRpcQueueHandler.removeRequest, progress]

theorem processError_effect (c : JsonRpcClient) (herror : isErrorLine obj) :
    LineEffect c (c.processError obj).1 obj := by
  have hstops : ¬ stopsTimer obj := fun h => h.1 herror
  rw [processError]
  by_cases hid : obj.contains "id" = true
  · rw [if_pos hid]
    refine ⟨rfl, rfl, rfl, ?_⟩
    simp only [StillAwaited, hstops, herror, hid, not_false_eq_true, true_and, forall_const]
    refine and_congr_right fun _ => exists_congr fun p => ?_
    exact (and_congr_left' mem_takeRequest_progress).trans (and_right_comm.trans and_assoc)
  · rw [if_neg hid]
    refine ⟨rfl, rfl, rfl, ?_⟩
    simp [StillAwaited, hstops, hid]

theorem processData_effect (c : JsonRpcClient) (adapter : JsonRpcAdapter) (obj : JsonObject) :
    LineEffect c (c.processData adapter obj).1 obj := by
  by_cases herror : isErrorLine obj
  · have heq : c.processData adapter obj = c.processError obj := if_pos herror
    rw [heq]
    exact processError_effect c herror
  · by_cases hid : obj.contains "id" = true
    · have hstops : stopsTimer obj := ⟨herror, hid⟩
      have heq : c.processData adapter obj = c.processResponse adapter obj :=
        (if_neg herror).trans (if_neg (not_not_intro hid))
      rw [heq, (c.processResponse_cases adapter obj).1]
      refine ⟨rfl, rfl, rfl, ?_⟩
      simp [StillAwaited, hstops, takeRequest]
    · have hstops : ¬ stopsTimer obj := fun h => hid h.2
      have heq : c.processData adapter obj = (c, processNotification adapter obj) :=
        (if_neg herror).trans (if_pos hid)
      rw [heq]
      refine ⟨rfl, rfl, rfl, ?_⟩
      simp [StillAwaited, hstops, hid]

theorem busy_iff : Busy c ↔ (c.m_sock.state = .hostLookup ∨ c.m_sock.state = .connecting) ∨
    c.m_connect_timer = true ∨ (∃ o ∈ c.queue, isLogin o) ∨
      c.m_request_timer = true ∧ ∃ p ∈ c.progress, isLogin p.2 := by
  constructor
  · rintro (h | h | h | ⟨ht, h⟩)
    · exact Or.inl h
    · exact Or.inr (Or.inl h)
    · exact Or.inr (Or.inr (Or.inl h))
    · exact Or.inr (Or.inr (Or.inr ⟨ht, h⟩))
  · rintro (h | h | h | ⟨ht, h⟩)
    · exact .connecting h
    · exact .connectTimer h
    · exact .queued h
    · exact .inFlight ht h

/-- What keeps the client busy after a line, whose signal may drop the requests that wait. -/
theorem LineEffect.busy_iff (h : LineEffect c d obj) (drop : Bool) :
    Busy (if drop then d.reset false else d) ↔
      (c.m_sock.state = .hostLookup ∨ c.m_sock.state = .connecting) ∨ c.m_connect_timer = true ∨
        (∃ o ∈ c.queue, isLogin o) ∧ drop = false ∨ c.StillAwaited obj := by
  rw [← h.sock, ← h.connect_timer, ← h.queue, ← h.inFlight, JsonRpcClient.busy_iff]
  cases drop with
  | false => simp
  | true =>
    have hqueue : (d.reset false).queue = [] := rfl
    have hprogress : (d.reset false).progress = d.progress := rfl
    have htimer : (d.reset false).m_request_timer = d.m_request_timer := rfl
    simp [hqueue, hprogress, htimer]

end MinerGate.JsonRpc.JsonRpcClient

namespace MinerGate.Pool.LoginRetry

set_option autoImplicit false

open JsonRpc Transition Client
open JsonRpcClient (Busy Tracked isLogin)
open StratumClient (protocol jobIdOf setNewJob login getjob submit error invoke submitShare)

/-- There will be another login attempt, or the client has a session. -/
inductive Retries (s : Client) : Prop where
  | session (h : s.session.isSome = true)
  | busy (h : Busy s.rpc)
  | called (h : ∃ call ∈ s.calls, call.method = "login")
  | loginTimer (h : s.m_login_timer = true)

/-- The errors of shares, after which the client asks for a job. -/
def isShareError (code : Int) : Bool :=
  match CryptonotePoolError.ofCode code with
  | some .InvalidShareData
  | some .InvalidJobId
  | some .UnknownJobShare
  | some .SlightlyStaleShare
  | some .ReallyStaleShare
  | some .DuplicateShare
  | some .InvalidShare => true
  | _ => false

/-- The client stops and tries the next login later. -/
def sleeps : Invocation → Bool
  | .error code _ _ _ => CryptonotePoolError.ofCode code ≠ some .NoError ∧ ¬ isShareError code
  | _ => false

def isLoginResponse : Invocation → Bool
  | .response "login" _ => true
  | _ => false

def statusOK (params : JsonObject) : Bool := (params.value "status").variantToString.getD "" = "OK"

def setsSession : Invocation → Bool
  | .response "login" (.obj params) => statusOK params
  | _ => false

def grantsSession : Invocation → Bool
  | .response "login" (.obj params) =>
    statusOK params && (JsonObject.value params "id").variantToString.isSome
  | _ => false

def hasJobId (jobMap : JsonObject) : Bool := !(jobIdOf jobMap).isEmpty

def dropsRequests : Invocation → Bool
  | .error code _ _ _ => isShareError code
  | .response "login" (.obj params) =>
    statusOK params && hasJobId (JsonObject.value params "job").toObject
  | .response "getjob" (.obj params) => hasJobId params
  | .notification "job" (.obj params) => hasJobId params
  | _ => false

structure InvokeEffect (s t : Client) (i : Invocation) : Prop where
  session : t.session.isSome = true ↔
    grantsSession i = true ∨ s.session.isSome = true ∧ setsSession i = false
  rpc : t.rpc = if dropsRequests i then s.rpc.reset false else s.rpc
  calls : (∃ call ∈ t.calls, call.method = "login") ↔ ∃ call ∈ s.calls, call.method = "login"
  login_timer : t.m_login_timer = true ↔ s.m_login_timer = true ∧ isLoginResponse i = false

variable {s t : Client}

theorem InvokeEffect.refl {i : Invocation} (s : Client) (hset : setsSession i = false)
    (hgrant : grantsSession i = false) (hdrop : dropsRequests i = false)
    (hlogin : isLoginResponse i = false) : InvokeEffect s s i := by
  constructor <;> simp [hset, hgrant, hdrop, hlogin]

theorem error_cases (s : Client) (code : Int) :
    CryptonotePoolError.ofCode code = some .NoError ∧ isShareError code = false ∧
        error s code = s ∨
      isShareError code = true ∧
        error s code = StratumClient.updateJob ((s.reset false).emit .shareError) ∨
      CryptonotePoolError.ofCode code ≠ some .NoError ∧ isShareError code = false ∧
        (error s code).m_login_timer = true := by
  cases hcode : CryptonotePoolError.ofCode code with
  | none => exact Or.inr (Or.inr ⟨by simp, by simp [isShareError, hcode], by simp [error, hcode]⟩)
  | some e =>
    cases e with
    | NoError => exact Or.inl ⟨rfl, by simp [isShareError, hcode], by simp [error, hcode]⟩
    | InvalidShareData | InvalidJobId | UnknownJobShare | SlightlyStaleShare | ReallyStaleShare
    | DuplicateShare | InvalidShare =>
      exact Or.inr (Or.inl ⟨by simp [isShareError, hcode], by simp [error, hcode]⟩)
    | _ => exact Or.inr (Or.inr ⟨by simp, by simp [isShareError, hcode], by simp [error, hcode]⟩)

theorem error_effect (s : Client) {code : Int} {message data : String} {request : JsonObject}
    (h : sleeps (.error code message data request) = false) :
    InvokeEffect s (error s code) (.error code message data request) := by
  rcases error_cases s code with ⟨-, hshare, heq⟩ | ⟨hshare, heq⟩ | ⟨hne, hshare, -⟩
  · rw [heq]
    exact .refl s rfl rfl hshare rfl
  · rw [heq]
    refine ⟨?_, ?_, ?_, ?_⟩
    · show s.session.isSome = true ↔ _
      simp [grantsSession, setsSession]
    · show s.rpc.reset false = _
      rw [dropsRequests, if_pos hshare]
    · show (∃ call ∈ s.calls ++ [_], call.method = "login") ↔ _
      simp
    · show s.m_login_timer = true ↔ _
      simp [isLoginResponse]
  · simp [sleeps, hshare, hne] at h

theorem setNewJob_effect {u : Client} {i : Invocation} (jobMap : JsonObject)
    (hsession : u.session.isSome = true ↔
      grantsSession i = true ∨ s.session.isSome = true ∧ setsSession i = false)
    (hrpc : u.rpc = s.rpc) (hcalls : u.calls = s.calls)
    (htimer : u.m_login_timer = true ↔ s.m_login_timer = true ∧ isLoginResponse i = false)
    (hdrop : dropsRequests i = hasJobId jobMap) : InvokeEffect s (setNewJob u jobMap) i := by
  rw [setNewJob]
  cases hid : (jobIdOf jobMap).isEmpty with
  | true =>
    have hdrop : dropsRequests i = false := by rw [hdrop, hasJobId, hid]; rfl
    rw [if_pos rfl]
    exact ⟨hsession, by simp [hdrop, hrpc], by rw [hcalls], htimer⟩
  | false =>
    have hdrop : dropsRequests i = true := by rw [hdrop, hasJobId, hid]; rfl
    rw [if_neg Bool.false_ne_true]
    refine ⟨hsession, ?_, ?_, htimer⟩
    · rw [if_pos hdrop, ← hrpc]
      rfl
    · rw [← hcalls]
      rfl

theorem login_effect (s : Client) (params : JsonObject) :
    InvokeEffect s (login s params) (.response "login" (.obj params)) := by
  rw [login]
  by_cases hok : (params.value "status").variantToString.getD "" = "OK"
  · have hstatus : statusOK params = true := decide_eq_true hok
    rw [if_neg (not_not_intro hok)]
    refine setNewJob_effect _ ?_ rfl rfl ?_ (by rw [dropsRequests, hstatus, Bool.true_and])
    · show ((params.value "id").variantToString).isSome = true ↔ _
      simp [grantsSession, setsSession, hstatus]
    · show false = true ↔ _
      simp [isLoginResponse]
  · have hstatus : statusOK params = false := decide_eq_false hok
    rw [if_pos hok]
    refine ⟨?_, ?_, Iff.rfl, ?_⟩
    · show s.session.isSome = true ↔ _
      simp [grantsSession, setsSession, hstatus]
    · show s.rpc = _
      simp [dropsRequests, hstatus]
    · show false = true ↔ _
      simp [isLoginResponse]

theorem getjob_effect (s : Client) (params : JsonObject) {i : Invocation}
    (hi : i = .response "getjob" (.obj params) ∨ i = .notification "job" (.obj params)) :
    InvokeEffect s (getjob s params) i := by
  rw [getjob]
  rcases hi with rfl | rfl <;>
    exact setNewJob_effect params (by simp [grantsSession, setsSession]) rfl rfl
      (by simp [isLoginResponse]) rfl

theorem submit_effect (s : Client) (params : JsonObject) :
    InvokeEffect s (submit s params) (.response "submit" (.obj params)) := by
  have hrefl : InvokeEffect s s (.response "submit" (.obj params)) := .refl s rfl rfl rfl rfl
  rw [submit]
  split
  · exact hrefl
  · exact ⟨hrefl.session, hrefl.rpc, hrefl.calls, hrefl.login_timer⟩

theorem invoke_effect {i : Invocation} (hsleeps : sleeps i = false) (h : invoke s i = some t) :
    InvokeEffect s t i := by
  rw [StratumClient.invoke.eq_def] at h
  split at h
  case h_1 code _ _ _ =>
    cases h
    exact error_effect s hsleeps
  case h_2 params =>
    cases h
    exact login_effect s params
  case h_3 params =>
    cases h
    exact getjob_effect s params (Or.inl rfl)
  case h_4 params =>
    cases h
    exact submit_effect s params
  case h_5 params =>
    cases h
    exact getjob_effect s params (Or.inr rfl)
  case h_6 => cases h

theorem invoke_sleeps {i : Invocation} (hsleeps : sleeps i = true) (h : invoke s i = some t) :
    t.m_login_timer = true := by
  cases i with
  | error code message data request =>
    cases h
    rcases error_cases s code with ⟨hno, -, -⟩ | ⟨hshare, -⟩ | ⟨-, -, htimer⟩
    · simp [sleeps, hno] at hsleeps
    · simp [sleeps, hshare] at hsleeps
    · exact htimer
  | notification method params | response method result => cases hsleeps

def signalIs (p : Invocation → Bool) (s : Client) (obj : JsonObject) : Bool :=
  (s.rpc.processData StratumAdapter obj).2.any p

/-- The line makes the client sleep and log in again, or grants a session, or there is an attempt
that it does not take away. -/
def KeepsTrying (s : Client) (obj : JsonObject) : Prop :=
  signalIs sleeps s obj = true ∨
  (signalIs grantsSession s obj = true ∨
    s.session.isSome = true ∧ signalIs setsSession s obj = false) ∨
  ((s.rpc.m_sock.state = .hostLookup ∨ s.rpc.m_sock.state = .connecting) ∨
    s.rpc.m_connect_timer = true ∨
    (∃ o ∈ s.rpc.queue, isLogin o) ∧ signalIs dropsRequests s obj = false ∨
    s.rpc.StillAwaited obj) ∨
  (∃ call ∈ s.calls, call.method = "login") ∨
  s.m_login_timer = true ∧ signalIs isLoginResponse s obj = false

instance (s : Client) (obj : JsonObject) : Decidable (KeepsTrying s obj) := by
  unfold KeepsTrying
  infer_instance

theorem retries_iff : Retries s ↔ s.session.isSome = true ∨ Busy s.rpc ∨
    (∃ call ∈ s.calls, call.method = "login") ∨ s.m_login_timer = true := by
  constructor
  · rintro (h | h | h | h)
    · exact Or.inl h
    · exact Or.inr (Or.inl h)
    · exact Or.inr (Or.inr (Or.inl h))
    · exact Or.inr (Or.inr (Or.inr h))
  · rintro (h | h | h | h)
    · exact .session h
    · exact .busy h
    · exact .called h
    · exact .loginTimer h

/-- After a line there will be another attempt exactly when the line keeps the client trying. -/
theorem processLine_retries_iff {obj : JsonObject}
    (h : Client.processLine protocol s obj = some t) : Retries t ↔ KeepsTrying s obj := by
  have hline := s.rpc.processData_effect StratumAdapter obj
  rw [retries_iff]
  rcases StratumClient.processLine_cases h with ⟨rpc, hdata, rfl⟩ | ⟨rpc, i, hdata, hinvoke⟩
  · simp only [KeepsTrying, signalIs, hdata]
    rw [hdata] at hline
    have hbusy := hline.busy_iff false
    simpa using or_congr_right (or_congr_left hbusy)
  · simp only [KeepsTrying, signalIs, hdata]
    rw [hdata] at hline
    cases hsleeps : sleeps i with
    | true => simp [invoke_sleeps hsleeps hinvoke, hsleeps]
    | false =>
      have heffect := invoke_effect hsleeps hinvoke
      have hbusy := hline.busy_iff (dropsRequests i)
      rw [← heffect.rpc] at hbusy
      simp only [Option.any_some, hsleeps, Bool.false_eq_true, false_or]
      exact or_congr heffect.session
        (or_congr hbusy (or_congr heffect.calls heffect.login_timer))

/-- Whether the client was started after it was last stopped from outside. -/
def noteStarted (s : Client) (e : Event) (started : Bool) : Bool :=
  match e with
  | .start => true
  | .stop => false
  | .switchToPool url => started || url ≠ s.rpc.m_url
  | _ => started

/-- No line takes the last attempt away, unless the client is stopped and its socket down; and the
64-bit id counter does not wrap. -/
def KeepsAttempt (p : Client × Bool) : Event → Prop
  | .proceed =>
    match p.1.handler with
    | .readyRead (obj :: _) =>
      p.2 = false ∧ p.1.rpc.m_sock.state = .unconnected ∨ KeepsTrying p.1 obj
    | _ => True
  | .deliver _ => p.1.rpc.m_id_counter + 1 < quint64Modulus
  | _ => True

instance (p : Client × Bool) (e : Event) : Decidable (KeepsAttempt p e) := by
  unfold KeepsAttempt
  split
  · split <;> infer_instance
  · infer_instance
  · infer_instance

/-- The slot for a socket error, which ends by starting the connect timer, is under way, or there
will be another attempt, or the client is stopped. -/
structure Inv (p : Client × Bool) : Prop where
  tracked : Tracked p.1.rpc
  retries : p.1.handler = .error ∨ Retries p.1 ∨ p.2 = false ∧ p.1.rpc.m_sock.state = .unconnected

variable {b : Bool} {rpc : JsonRpcClient}

theorem Retries.mono (h : Retries s) (hsession : t.session = s.session)
    (hrpc : Busy s.rpc → Busy t.rpc) (hcalls : s.calls ⊆ t.calls)
    (htimer : t.m_login_timer = s.m_login_timer) : Retries t := by
  cases h with
  | session h => exact .session (by rwa [hsession])
  | busy h => exact .busy (hrpc h)
  | called h =>
    obtain ⟨call, hcall, hlogin⟩ := h
    exact .called ⟨call, hcalls hcall, hlogin⟩
  | loginTimer h => exact .loginTimer (by rwa [htimer])

theorem Retries.setRpc (h : Retries s) (hrpc : Busy s.rpc → Busy rpc) :
    Retries { s with rpc := rpc } :=
  h.mono rfl hrpc (List.Subset.refl _) rfl

theorem Inv.of_retries (ht : Tracked t.rpc) (h : Retries t) : Inv (t, b) := ⟨ht, Or.inr (Or.inl h)⟩

theorem Inv.frame (h : Inv (s, b)) (ht : Tracked t.rpc) (hhandler : t.handler = s.handler)
    (hretries : Retries s → Retries t)
    (hdown : s.rpc.m_sock.state = .unconnected →
      Retries t ∨ t.rpc.m_sock.state = .unconnected) : Inv (t, b) := by
  refine ⟨ht, ?_⟩
  rcases h.retries with h | h | ⟨hb, hs⟩
  · exact Or.inl (hhandler.trans h)
  · exact Or.inr (Or.inl (hretries h))
  · rcases hdown hs with h | h
    · exact Or.inr (Or.inl h)
    · exact Or.inr (Or.inr ⟨hb, h⟩)

/-- The socket is down or on its way up, or was connected before. -/
theorem connectToHost_retries (tick : Bool) (h : s.rpc.m_sock.state ≠ .connected ∨ Retries s) :
    Retries { s with rpc := s.rpc.connectToHost tick } := by
  rcases h with h | h
  · exact .busy (JsonRpcClient.connectToHost_busy tick (Or.inl h))
  · exact h.setRpc fun hb => JsonRpcClient.connectToHost_busy tick (Or.inr hb)

theorem not_connected_of_down (h : s.rpc.m_sock.state = .unconnected) :
    s.rpc.m_sock.state ≠ .connected := by
  rw [h]
  decide

theorem Inv.start (h : Inv (s, b)) : Inv (s.start, true) := by
  rw [Client.start]
  split
  case isTrue hsession => exact .of_retries h.tracked (.session hsession)
  case isFalse =>
    refine ⟨h.tracked.connectToHost false, ?_⟩
    rcases h.retries with h | h | ⟨-, h⟩
    · exact Or.inl h
    · exact Or.inr (Or.inl (connectToHost_retries false (Or.inr h)))
    · exact Or.inr (Or.inl (connectToHost_retries false (Or.inl (not_connected_of_down h))))

theorem Inv.stop (h : Inv (s, b)) : Inv (s.stop, false) :=
  ⟨h.tracked.shrink (Correlation.disconnectFromHost_shrinks s.rpc), Or.inr (Or.inr ⟨rfl, rfl⟩)⟩

theorem Inv.setPool (h : Inv (s, b)) (url : Url) : Inv (s.setPool url, b) :=
  h.frame (h.tracked.congr rfl rfl rfl) rfl
    (fun hr => hr.setRpc fun hb => hb.congr rfl rfl rfl rfl) Or.inr

theorem Inv.switchToPool (h : Inv (s, b)) (url : Url) :
    Inv (s.switchToPool url, b || url ≠ s.rpc.m_url) := by
  rw [Client.switchToPool]
  split
  case isTrue hurl =>
    rw [decide_eq_true hurl, Bool.or_true]
    exact (h.stop.setPool url).start
  case isFalse hurl =>
    rw [decide_eq_false hurl, Bool.or_false]
    exact h

theorem Inv.request (h : Inv (s, b)) (method : String) (args : Json) :
    Inv (s.request method args, b) :=
  h.frame h.tracked rfl (fun hr => hr.mono rfl id (List.subset_append_left _ _) rfl) Or.inr

theorem Inv.sendRequest (h : Inv (s, b)) : Inv ({ s with rpc := s.rpc.sendRequest }, b) := by
  refine h.frame h.tracked.sendRequest rfl (fun hr => hr.setRpc fun hb => hb.sendRequest h.tracked)
    fun hdown => ?_
  rcases s.rpc.sendRequest_cases with heq | ⟨hs, -, heq⟩ | ⟨hs, -⟩
  · rw [heq]
    exact Or.inr hdown
  · rw [heq]
    exact Or.inl (connectToHost_retries false (Or.inl hs))
  · exact absurd hs (not_connected_of_down hdown)

theorem mem_of_getElem? {call other : QueuedCall} {calls : List QueuedCall} {k : Nat}
    (hk : calls[k]? = some call) (h : other ∈ calls) : other = call ∨ other ∈ calls.eraseIdx k := by
  obtain ⟨i, hi, rfl⟩ := List.mem_iff_getElem.mp h
  by_cases hik : i = k
  · subst hik
    rw [List.getElem?_eq_getElem hi, Option.some.injEq] at hk
    exact Or.inl hk
  · exact Or.inr (List.mem_eraseIdx_iff_getElem.mpr ⟨i, hi, hik, rfl⟩)

theorem Inv.deliver (h : Inv (s, b)) {k : Nat} (hwrap : s.rpc.m_id_counter + 1 < quint64Modulus)
    (hs : s.deliverWhenIdle k = some t) : Inv (t, b) := by
  obtain ⟨call, hcall, ⟨-, rfl⟩ | ⟨-, rfl⟩⟩ := deliverWhenIdle_eq_some hs
  · refine h.frame h.tracked rfl (fun hr => ?_) Or.inr
    cases hr with
    | session hr => exact .session hr
    | busy hr => exact .busy hr
    | loginTimer hr => exact .loginTimer hr
    | called hr =>
      obtain ⟨other, hother, hlogin⟩ := hr
      rcases mem_of_getElem? hcall hother with rfl | hmem
      · exact .called ⟨_, List.mem_append_right _ List.mem_cons_self, hlogin⟩
      · exact .called ⟨other, List.mem_append_left _ hmem, hlogin⟩
  · have hqueued : Inv ({ s with
        calls := s.calls.eraseIdx k
        rpc := s.rpc.enqueue call.method (some call.args) }, b) := by
      refine h.frame (h.tracked.enqueue _ _ hwrap) rfl (fun hr => ?_) Or.inr
      cases hr with
      | session hr => exact .session hr
      | busy hr => exact .busy (hr.enqueue _ _)
      | loginTimer hr => exact .loginTimer hr
      | called hr =>
        obtain ⟨other, hother, hlogin⟩ := hr
        rcases mem_of_getElem? hcall hother with rfl | hmem
        · refine .busy ?_
          rw [hlogin]
          exact JsonRpcClient.enqueue_login_busy _ _
        · exact .called ⟨other, hmem, hlogin⟩
    exact hqueued.sendRequest

theorem invoke_tracked {i : Invocation} (ht : Tracked s.rpc) (h : invoke s i = some t) :
    Tracked t.rpc := by
  have hreset : Tracked (s.rpc.reset false) := ht.shrink (Correlation.reset_shrinks s.rpc false)
  have hstop : Tracked s.rpc.disconnectFromHost :=
    ht.shrink (Correlation.disconnectFromHost_shrinks s.rpc)
  cases hsleeps : sleeps i with
  | false =>
    rw [(invoke_effect hsleeps h).rpc]
    split
    · exact hreset
    · exact ht
  | true =>
    cases i with
    | error code message data request =>
      cases h
      rw [error]
      split
      case h_1 => exact ht
      case h_9 => exact hstop
      case h_10 => exact hstop.shrink (Correlation.disconnectFromHost_shrinks _)
      all_goals exact hreset
    | notification method params | response method result => cases hsleeps

theorem processLine_tracked {obj : JsonObject} (ht : Tracked s.rpc)
    (h : Client.processLine protocol s obj = some t) : Tracked t.rpc := by
  have hline := ht.processData StratumAdapter obj
  rcases StratumClient.processLine_cases h with ⟨rpc, hdata, rfl⟩ | ⟨rpc, i, hdata, hinvoke⟩
  · rw [hdata] at hline
    exact hline
  · rw [hdata] at hline
    exact invoke_tracked (s := { s with rpc := rpc }) hline hinvoke

theorem processLine_sock {obj : JsonObject} (h : Client.processLine protocol s obj = some t) :
    t.m_login_timer = true ∨ t.rpc.m_sock = s.rpc.m_sock := by
  have hline := s.rpc.processData_effect StratumAdapter obj
  rcases StratumClient.processLine_cases h with ⟨rpc, hdata, rfl⟩ | ⟨rpc, i, hdata, hinvoke⟩
  · rw [hdata] at hline
    exact Or.inr hline.sock
  · rw [hdata] at hline
    cases hsleeps : sleeps i with
    | true => exact Or.inl (invoke_sleeps hsleeps hinvoke)
    | false =>
      rw [(invoke_effect hsleeps hinvoke).rpc]
      split <;> exact Or.inr hline.sock

theorem Inv.proceed (h : Inv (s, b)) (hk : KeepsAttempt (s, b) .proceed)
    (hs : Client.proceed protocol s = some t) : Inv (t, b) := by
  rw [Client.proceed] at hs
  split at hs
  case h_1 => cases hs
  case h_2 obj rest hhandler =>
    have hrest : Tracked { s with handler := Handler.readyRead rest }.rpc := h.tracked
    refine ⟨processLine_tracked hrest hs, ?_⟩
    simp only [KeepsAttempt, hhandler] at hk
    rcases hk with ⟨hb, hdown⟩ | hk
    · rcases processLine_sock hs with htimer | hsock
      · exact Or.inr (Or.inl (.loginTimer htimer))
      · exact Or.inr (Or.inr ⟨hb, by rw [hsock]; exact hdown⟩)
    · exact Or.inr (Or.inl ((processLine_retries_iff hs).mpr hk))
  case h_3 hhandler =>
    cases hs
    have hsent := h.sendRequest
    refine ⟨hsent.tracked, ?_⟩
    rcases hsent.retries with h' | h' | h'
    · rw [show s.handler = .error from h'] at hhandler
      cases hhandler
    · exact Or.inr (Or.inl (h'.mono rfl id (List.Subset.refl _) rfl))
    · exact Or.inr (Or.inr h')
  case h_4 =>
    cases hs
    have htimer : s.rpc.errorReconnect.m_connect_timer = true := by
      rw [JsonRpcClient.errorReconnect_eq]
    refine .of_retries ?_ (.busy (.connectTimer htimer))
    show Tracked s.rpc.errorReconnect
    rw [JsonRpcClient.errorReconnect_eq]
    exact h.tracked.congr rfl rfl rfl

theorem handler_of_whenIdle {enabled : Prop} [Decidable enabled] {u : Client}
    (h : s.whenIdle enabled u = some t) : s.handler = .none := by
  rw [whenIdle] at h
  split at h
  case h_1 hidle => exact hidle
  case h_2 => cases h

theorem new_inv (url : Url) (userAgent worker password : String) :
    Inv (Client.new url userAgent worker password, false) :=
  ⟨⟨[], Correlation.initial_inv url⟩, Or.inr (Or.inr ⟨rfl, rfl⟩)⟩

theorem step_keeps_attempt {e : Event} (h : Inv (s, b)) (hk : KeepsAttempt (s, b) e)
    (hs : step protocol s e = some t) : Inv (t, noteStarted s e b) := by
  cases e with
  | start =>
    cases hs
    exact h.start
  | stop =>
    cases hs
    exact h.stop
  | switchToPool url =>
    cases hs
    exact h.switchToPool url
  | setPool url =>
    cases hs
    exact h.setPool url
  | setWorkerName worker =>
    cases hs
    exact h.frame h.tracked rfl (fun hr => hr.mono rfl id (List.Subset.refl _) rfl) Or.inr
  | submitShare jobId nonce hash =>
    cases hs
    show Inv (submitShare s jobId nonce hash, b)
    rw [submitShare]
    split
    case isTrue => exact h
    case isFalse => exact h.request _ _
  | deliver k => exact h.deliver hk hs
  | proceed => exact h.proceed hk hs
  | loginTimeout =>
    obtain ⟨-, rfl⟩ := whenIdle_eq_some hs
    exact h.request _ _
  | connectTimeout =>
    obtain ⟨-, rfl⟩ := whenIdle_eq_some hs
    exact h.frame (h.tracked.connectToHost true) rfl
      (fun hr => connectToHost_retries true (Or.inr hr))
      fun hdown => Or.inl (connectToHost_retries true (Or.inl (not_connected_of_down hdown)))
  | requestTimeout =>
    obtain ⟨-, rfl⟩ := whenIdle_eq_some hs
    have hdown := h.tracked.shrink (Correlation.abort_reset_shrinks s.rpc false)
    refine .of_retries (hdown.connectToHost false) (.busy ?_)
    exact JsonRpcClient.connectToHost_busy false (Or.inl (by simp))
  | updateProxy =>
    obtain ⟨-, rfl⟩ := whenIdle_eq_some hs
    have hdown := h.tracked.shrink (Correlation.disconnectFromHost_shrinks s.rpc)
    refine .of_retries (hdown.connectToHost false) (.busy ?_)
    exact JsonRpcClient.connectToHost_busy false (Or.inl (not_connected_of_down (s := s.stop) rfl))
  | hostFound =>
    obtain ⟨hstate, rfl⟩ := whenIdle_eq_some hs
    refine .of_retries (h.tracked.setSock (by simp [hstate]) rfl) (.busy ?_)
    exact .connecting (Or.inr rfl)
  | connected =>
    obtain ⟨hstate, rfl⟩ := whenIdle_eq_some hs
    have hsock : Tracked { s.rpc with m_sock := s.rpc.m_sock.establish } :=
      h.tracked.setSock (by simp [hstate]) rfl
    exact .of_retries (hsock.sendRequest.congr rfl rfl rfl)
      (.called ⟨⟨.method, "login", _⟩, List.mem_append_right _ List.mem_cons_self, rfl⟩)
  | socketError =>
    obtain ⟨-, rfl⟩ := whenIdle_eq_some hs
    refine ⟨h.tracked.shrink ?_, Or.inl rfl⟩
    exact ⟨rfl, List.nil_sublist _, List.nil_sublist _, rfl, .inl rfl⟩
  | bytesWritten bytes =>
    obtain ⟨hstate, rfl⟩ := whenIdle_eq_some hs
    have hcount : Inv ({ s with rpc := { s.rpc with
        m_bytes_to_write := s.rpc.m_bytes_to_write - bytes } }, b) :=
      h.frame (h.tracked.congr rfl rfl rfl) rfl
        (fun hr => hr.setRpc fun hb => hb.congr rfl rfl rfl rfl) Or.inr
    simp only [JsonRpcClient.bytesWritten]
    split
    case isTrue => exact hcount.sendRequest
    case isFalse => exact hcount
  | readyRead objs =>
    have hidle := handler_of_whenIdle hs
    obtain ⟨hstate, rfl⟩ := whenIdle_eq_some hs
    refine ⟨h.tracked, ?_⟩
    rcases h.retries with h' | h' | ⟨-, h'⟩
    · rw [show s.handler = .error from h'] at hidle
      cases hidle
    · exact Or.inr (Or.inl (h'.mono rfl id (List.Subset.refl _) rfl))
    · exact absurd hstate (not_connected_of_down h')

/-- While the client is started, outside the slot for a socket error, there will be
another attempt to log in or there is a session, in every state of every run whose lines
take no last attempt away. -/
theorem started_retries {url : Url} {userAgent worker password : String} {es : List Event}
    (hrun : exec (watch (step protocol) noteStarted)
      (Client.new url userAgent worker password, false) es = some (s, true))
    (hkeeps : Along (watch (step protocol) noteStarted) KeepsAttempt
      (Client.new url userAgent worker password, false) es) (herror : s.handler ≠ .error) :
    Retries s := by
  have hinv : Inv (s, true) := by
    refine exec_invariant (I := Inv) ?_ (new_inv url userAgent worker password) hkeeps hrun
    rintro ⟨s, b⟩ e ⟨t, c⟩ hs hk ht
    obtain ⟨hstep, rfl⟩ := watch_eq_some.mp ht
    exact step_keeps_attempt hs hk hstep
  rcases hinv.retries with h | h | ⟨hb, -⟩
  · exact absurd h herror
  · exact h
  · cases hb

section Login

def answered (reply : JsonObject) : List Event :=
  connecting ++ [.deliver 0, .deliver 0, .readyRead [reply], .proceed, .proceed]

def refusal : JsonObject := [("id", .str "1"), ("result", .obj [("status", .str "ERROR")])]

def busyPool : JsonObject := [("id", .str "1"), ("error", .obj [("code", .int (-20))])]

def isIdle (s : Client) : Bool :=
  match s.handler with
  | .none => true
  | _ => false

theorem ne_error_of_isIdle (h : isIdle s = true) : s.handler ≠ .error := by
  intro herror
  simp [isIdle, herror] at h

theorem busy_pool_tried_again :
    ∃ s, exec (watch (step protocol) noteStarted) (newClient, false) (answered busyPool) =
        some (s, true) ∧ s.session = none ∧ Retries s := by
  have hmap : (exec (watch (step protocol) noteStarted) (newClient, false)
      (answered busyPool)).map (fun p => (p.2, p.1.session, isIdle p.1)) =
        some (true, none, true) := by decide +kernel
  obtain ⟨⟨s, b⟩, hrun, hp⟩ := Option.map_eq_some_iff.mp hmap
  simp only [Prod.mk.injEq] at hp
  obtain ⟨rfl, hsession, hidle⟩ := hp
  exact ⟨s, hrun, hsession, started_retries hrun (by decide +kernel) (ne_error_of_isIdle hidle)⟩

/-- The response stops the request timer, its handler the login timer, and nothing else is left. -/
theorem refused_login_not_retried :
    ¬ ∀ (es : List Event) (s : Client),
      exec (watch (step protocol) noteStarted) (newClient, false) es = some (s, true) →
        s.handler ≠ .error → Retries s := by
  intro h
  have hmap : (exec (watch (step protocol) noteStarted) (newClient, false)
      (answered refusal)).map (fun p => (p.2 && isIdle p.1, p.1.session, p.1.rpc.m_sock.state,
        p.1.rpc.m_connect_timer || p.1.rpc.m_request_timer || p.1.m_login_timer,
        p.1.rpc.queue.length + p.1.calls.length)) =
        some (true, none, .connected, false, 0) := by decide +kernel
  obtain ⟨⟨s, b⟩, hrun, hp⟩ := Option.map_eq_some_iff.mp hmap
  simp only [Prod.mk.injEq, Bool.and_eq_true, Bool.or_eq_false_iff, Nat.add_eq_zero_iff,
    List.length_eq_zero_iff] at hp
  obtain ⟨⟨rfl, hidle⟩, hsession, hstate, ⟨⟨hconnect, hrequest⟩, hlogin⟩, hqueue, hcalls⟩ := hp
  cases h _ s hrun (ne_error_of_isIdle hidle) with
  | session h => simp [hsession] at h
  | called h => simp [hcalls] at h
  | loginTimer h => simp [hlogin] at h
  | busy h =>
    cases h with
    | connecting h => simp [hstate] at h
    | connectTimer h => simp [hconnect] at h
    | queued h => simp [hqueue] at h
    | inFlight h => simp [hrequest] at h

end Login

end MinerGate.Pool.LoginRetry
