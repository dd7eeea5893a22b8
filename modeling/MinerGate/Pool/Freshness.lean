import MinerGate.Pool.Stop

/-!
# Freshness of the session

The session id, the socket and the queue of requests are reset by different functions. They
agree as long as the functions that leave the session alone find none, the request timer's
and the proxy's, and as long as nothing that belongs to the session is on its way when the
connection goes down.
-/

namespace MinerGate.Pool.StratumClient

set_option autoImplicit false

open JsonRpc Transition Client

/-- The id came with a login response on the connection that is there. -/
def Granted (s : Client) (id : String) : Prop :=
  s.rpc.m_sock.state = .connected ∧ (s.rpc.m_sock.connection, id) ∈ s.granted

instance (s : Client) (id : String) : Decidable (Granted s id) :=
  inferInstanceAs (Decidable (_ ∧ _))

def carriesId (method : String) : Prop := method = "submit" ∨ method = "getjob"

instance (method : String) : Decidable (carriesId method) := inferInstanceAs (Decidable (_ ∨ _))

def idOfParams (params : Json) : String := (params.toObject.value "id").toString

structure Fresh (s : Client) : Prop where
  session : ∀ id ∈ s.session, Granted s id
  written : ∀ p ∈ s.rpc.m_sock.written, carriesId (methodOf p.2) →
    (p.1, idOfParams (p.2.value "params")) ∈ s.granted
  signals : ∀ p ∈ s.emitted, ∀ job, p.2 = .newJob job → job.job_id ≠ [] → p.1 = .connected

/-- The object of a line that brings a new job without having been asked for. -/
def isJobNotification (obj : JsonObject) : Bool :=
  decide (¬ (obj.contains "error" ∧ ¬ (obj.value "error").isNull) ∧ ¬ obj.contains "id") &&
    match JsonRpcClient.processNotification StratumAdapter obj with
    | some (.notification "job" (.obj jobMap)) => !(jobIdOf jobMap).isEmpty
    | _ => false

/-- The lines that the loop of `readyRead` has still to read bring a new job. -/
def jobsLeft : Handler → Bool
  | .readyRead rest => rest.any isJobNotification
  | _ => false

/-- The code of a line that tells of an error. -/
def errorCode (obj : JsonObject) : Option Int :=
  if obj.contains "error" ∧ ¬ (obj.value "error").isNull then
    some ((obj.value "error").toObject.value "code").toInt
  else none

/-- The errors of a share, after which `error` asks for a job, and those after which it stops. -/
def isShareError (code : Int) : Bool :=
  match CryptonotePoolError.ofCode code with
  | some .InvalidShareData | some .InvalidJobId | some .UnknownJobShare
  | some .SlightlyStaleShare | some .ReallyStaleShare | some .DuplicateShare
  | some .InvalidShare => true
  | _ => false

def isStopError (code : Int) : Bool :=
  !isShareError code && CryptonotePoolError.ofCode code ≠ some .NoError

/-- The error that the loop of `readyRead` reads next. -/
def nextError (s : Client) : Option Int :=
  match s.handler with
  | .readyRead (obj :: _) => errorCode obj
  | _ => none

/-- The event aborts the connection. -/
def goesDown (s : Client) : Event → Bool
  | .stop | .socketError | .requestTimeout | .updateProxy => true
  | .switchToPool url => url ≠ s.rpc.m_url
  | .proceed => (nextError s).any isStopError
  | _ => false

/-- The request timer and the proxy find no session, and neither does the error of a share find
none. When the connection goes down no call that carries an id is queued, and no new job is left to
read. -/
def Undisturbed (s : Client) (e : Event) : Prop :=
  (goesDown s e = true → (∀ call ∈ s.calls, ¬ carriesId call.method) ∧ jobsLeft s.handler = false) ∧
  match e with
  | .requestTimeout | .updateProxy => s.session = none
  | .proceed => (nextError s).any isShareError = true → s.session.isSome
  | _ => True

instance (s : Client) (e : Event) : Decidable (Undisturbed s e) := by
  unfold Undisturbed
  refine @instDecidableAnd _ _ inferInstance ?_
  split <;> infer_instance

/-- `Fresh`, for the requests in the queue and the calls on their way to it as well. What is in
progress was written to the connection that is there, and a new job is read only from one. -/
structure Inv (s : Client) : Prop extends Fresh s where
  queued : ∀ obj ∈ s.rpc.queue, carriesId (methodOf obj) →
    Granted s (idOfParams (obj.value "params"))
  progress : ∀ p ∈ s.rpc.progress, s.rpc.m_sock.state = .connected
  calls : ∀ call ∈ s.calls, carriesId call.method → Granted s (idOfParams call.args)
  lines : jobsLeft s.handler = true → s.rpc.m_sock.state = .connected

variable {s t : Client} {e : Event} {rpc : JsonRpcClient}

theorem new_inv (url : Url) (userAgent worker password : String) :
    Inv (new url userAgent worker password) := by
  refine ⟨⟨?_, ?_, ?_⟩, ?_, ?_, ?_, ?_⟩ <;>
    simp [new, JsonRpcClient.new, JsonRpcClient.queue, JsonRpcClient.progress, jobsLeft]

theorem Inv.congr (h : Inv s) (hrpc : t.rpc = s.rpc) (hsession : t.session = s.session)
    (hemitted : t.emitted = s.emitted) (hgranted : t.granted = s.granted)
    (hcalls : t.calls = s.calls) (hhandler : t.handler = s.handler) : Inv t := by
  refine ⟨⟨?_, ?_, ?_⟩, ?_, ?_, ?_, ?_⟩
  · simp only [Granted, hrpc, hsession, hgranted]
    exact h.session
  · simp only [hrpc, hgranted]
    exact h.written
  · simp only [hemitted]
    exact h.signals
  · simp only [Granted, hrpc, hgranted]
    exact h.queued
  · simp only [hrpc]
    exact h.progress
  · simp only [Granted, hrpc, hgranted, hcalls]
    exact h.calls
  · simp only [hrpc, hhandler]
    exact h.lines

theorem Inv.withCalls (h : Inv s) {calls : List QueuedCall}
    (hcalls : ∀ call ∈ calls, carriesId call.method → Granted s (idOfParams call.args)) :
    Inv { s with calls := calls } :=
  ⟨⟨h.session, h.written, h.signals⟩, h.queued, h.progress, hcalls, h.lines⟩

theorem Inv.withHandler (h : Inv s) {handler : Handler}
    (hlines : jobsLeft handler = true → s.rpc.m_sock.state = .connected) :
    Inv { s with handler := handler } :=
  ⟨⟨h.session, h.written, h.signals⟩, h.queued, h.progress, h.calls, hlines⟩

theorem Inv.request (h : Inv s) (method : String) {args : Json}
    (hid : carriesId method → Granted s (idOfParams args)) : Inv (s.request method args) := by
  refine h.withCalls fun call hcall hcarries => ?_
  rcases List.mem_append.mp hcall with hcall | hcall
  · exact h.calls call hcall hcarries
  · rw [List.mem_singleton.mp hcall] at hcarries ⊢
    exact hid hcarries

theorem Inv.tryLogin (h : Inv s) : Inv s.tryLogin :=
  h.request "login" fun hcarries => absurd hcarries (by decide)

theorem Inv.setRpc (h : Inv s) (hq : rpc.queue ⊆ s.rpc.queue)
    (hp : rpc.progress ⊆ s.rpc.progress) (hw : rpc.m_sock.written = s.rpc.m_sock.written)
    (hconn : s.rpc.m_sock.state = .connected →
      rpc.m_sock.state = .connected ∧ rpc.m_sock.connection = s.rpc.m_sock.connection) :
    Inv { s with rpc := rpc } := by
  have hgranted : ∀ id, Granted s id → Granted { s with rpc := rpc } id := by
    intro id hid
    obtain ⟨hstate, hconnection⟩ := hconn hid.1
    refine ⟨hstate, ?_⟩
    rw [hconnection]
    exact hid.2
  refine ⟨⟨fun id hid => hgranted id (h.session id hid), ?_, h.signals⟩, ?_, ?_, ?_, ?_⟩
  · simp only [hw]
    exact h.written
  · exact fun obj ho hc => hgranted _ (h.queued obj (hq ho) hc)
  · exact fun p hp' => (hconn (h.progress p (hp hp'))).1
  · exact fun call hcall hc => hgranted _ (h.calls call hcall hc)
  · exact fun hlines => (hconn (h.lines hlines)).1

/-- Nothing of the session is on its way. -/
structure Quiet (s : Client) : Prop where
  calls : ∀ call ∈ s.calls, ¬ carriesId call.method
  lines : jobsLeft s.handler = false

theorem Inv.dropRpc (h : Inv s) (hs : s.session = none) (hquiet : Quiet s) (hq : rpc.queue = [])
    (hp : rpc.progress = []) (hw : rpc.m_sock.written = s.rpc.m_sock.written) :
    Inv { s with rpc := rpc } := by
  refine ⟨⟨?_, ?_, h.signals⟩, ?_, ?_, ?_, ?_⟩
  · simp only [hs]
    intro id hid
    cases hid
  · simp only [hw]
    exact h.written
  · simp only [hq]
    intro obj ho
    cases ho
  · simp only [hp]
    intro p hp'
    cases hp'
  · exact fun call hcall hc => absurd hc (hquiet.calls call hcall)
  · intro hlines
    rw [hquiet.lines] at hlines
    cases hlines

theorem Inv.dropSession (h : Inv s) : Inv { s with session := none } :=
  ⟨⟨fun _ hid => (Option.not_mem_none _ hid).elim, h.written, h.signals⟩, h.queued, h.progress,
    h.calls, h.lines⟩

theorem Inv.emit (h : Inv s) (signal : Signal)
    (hjob : ∀ job, signal = .newJob job → job.job_id ≠ [] → s.rpc.m_sock.state = .connected) :
    Inv (s.emit signal) := by
  refine ⟨⟨h.session, h.written, fun p hp => ?_⟩, h.queued, h.progress, h.calls, h.lines⟩
  rcases List.mem_cons.mp hp with rfl | hp
  · exact hjob
  · exact h.signals p hp

theorem Inv.connectToHost (h : Inv s) (tick : Bool) :
    Inv { s with rpc := s.rpc.connectToHost tick } :=
  h.setRpc (by simp [JsonRpcClient.queue]) (by simp [JsonRpcClient.progress]) (by simp)
    fun hs => ⟨(s.rpc.connectToHost_state_connected tick).mpr hs, by simp⟩

theorem Inv.reset (h : Inv s) (full : Bool) : Inv (s.reset full) := by
  refine h.setRpc (List.nil_subset _) ?_ rfl fun hs => ⟨hs, rfl⟩
  intro p hp
  cases full with
  | true => cases hp
  | false => exact hp

theorem Inv.sendRequest (h : Inv s) : Inv { s with rpc := s.rpc.sendRequest } := by
  rcases s.rpc.sendRequest_cases with hc | ⟨-, -, hc⟩ | ⟨hs, -, -, obj, rest, hq, hc⟩
  · rw [hc]
    exact h
  · rw [hc]
    exact h.connectToHost false
  · have hrest : s.rpc.dequeue.queue ⊆ s.rpc.queue := by
      rw [JsonRpcClient.dequeue_queue hq, hq]
      exact List.subset_cons_self obj rest
    have hdequeue : Inv { s with rpc := s.rpc.dequeue } :=
      ⟨⟨h.session, h.written, h.signals⟩, fun o ho => h.queued o (hrest ho), fun _ _ => hs,
        h.calls, h.lines⟩
    rcases hc with ⟨-, hc⟩ | ⟨-, hc⟩
    · rw [hc]
      exact hdequeue
    · rw [hc]
      refine ⟨⟨hdequeue.session, fun p hp hcarries => ?_, h.signals⟩, hdequeue.queued,
        hdequeue.progress, hdequeue.calls, hdequeue.lines⟩
      rcases List.mem_cons.mp hp with rfl | hp
      · exact (h.queued obj (hq ▸ List.mem_cons_self) hcarries).2
      · exact h.written p hp hcarries

theorem Inv.enqueue (h : Inv s) (method : String) (args : Json)
    (hid : carriesId method → Granted s (idOfParams args)) :
    Inv { s with rpc := s.rpc.enqueue method (some args) } := by
  refine ⟨⟨h.session, h.written, h.signals⟩, fun obj ho hcarries => ?_, h.progress, h.calls,
    h.lines⟩
  have ho : obj ∈ s.rpc.queue ++ [s.rpc.newRequest method (some args)] := ho
  rcases List.mem_append.mp ho with ho | ho
  · exact h.queued obj ho hcarries
  · rw [List.mem_singleton.mp ho, JsonRpcClient.methodOf_newRequest] at hcarries
    rw [List.mem_singleton.mp ho, JsonRpcClient.params_newRequest]
    exact hid hcarries

theorem Inv.stop (h : Inv s) (hquiet : Quiet s) : Inv s.stop := by
  have hdrop : Inv { s with session := none, rpc := s.rpc.disconnectFromHost } :=
    h.dropSession.dropRpc rfl ⟨hquiet.calls, hquiet.lines⟩ rfl rfl rfl
  have hstop : Inv { s with
      m_login_timer := false, rpc := s.rpc.disconnectFromHost, session := none } :=
    hdrop.congr rfl rfl rfl rfl rfl rfl
  exact hstop.emit _ fun job hjob => by cases hjob

theorem Inv.start (h : Inv s) : Inv s.start := by
  rw [Client.start]
  split
  case isTrue => exact h
  case isFalse => exact h.connectToHost false

theorem Inv.setPool (h : Inv s) (url : Url) : Inv (s.setPool url) :=
  h.setRpc (List.Subset.refl _) (List.Subset.refl _) rfl fun hs => ⟨hs, rfl⟩

theorem Inv.socketError (h : Inv s) : Inv (Client.socketError s) :=
  (h.reset true).dropSession.emit _ fun job hjob => by cases hjob

theorem Inv.setNewJob (h : Inv s) (jobMap : JsonObject)
    (hs : (jobIdOf jobMap).isEmpty = false → s.rpc.m_sock.state = .connected) :
    Inv (setNewJob s jobMap) := by
  rw [StratumClient.setNewJob]
  split
  case isTrue => exact h
  case isFalse hid =>
    rw [Bool.not_eq_true] at hid
    refine ((h.reset false).emit _ fun _ _ _ => hs hid).emit _ fun job hjob => ?_
    cases hjob

theorem Inv.login (h : Inv s) (hs : s.rpc.m_sock.state = .connected) (params : JsonObject) :
    Inv (login s params) := by
  have hconnected : Inv (s.emit (.stateChanged .Connected)) :=
    h.emit _ fun job hjob => by cases hjob
  have htimer : Inv { s.emit (.stateChanged .Connected) with m_login_timer := false } :=
    hconnected.congr rfl rfl rfl rfl rfl rfl
  rw [StratumClient.login]
  split
  case isTrue => exact htimer
  case isFalse =>
    have hagain := htimer.emit (.stateChanged .Connected) fun job hjob => by cases hjob
    have hgrant : ∀ id, Inv (({ s.emit (.stateChanged .Connected) with
        m_login_timer := false }.emit (.stateChanged .Connected)).grant id) := by
      intro id
      refine ⟨⟨fun i hi => ⟨hs, ?_⟩, fun p hp hc => ?_, hagain.signals⟩, fun obj ho hc => ?_,
        hagain.progress, fun call hcall hc => ?_, hagain.lines⟩
      · obtain rfl : id = some i := hi
        exact List.mem_append_left _ (List.mem_singleton.mpr rfl)
      · exact List.mem_append_right _ (h.written p hp hc)
      · exact ⟨hs, List.mem_append_right _ (h.queued obj ho hc).2⟩
      · exact ⟨hs, List.mem_append_right _ (h.calls call hcall hc).2⟩
    exact (hgrant _).setNewJob _ fun _ => hs

/-- The request for a job carries the session's id. -/
theorem Inv.updateJob (h : Inv s) (hs : s.session.isSome) : Inv (updateJob s) := by
  obtain ⟨id, hid⟩ := Option.isSome_iff_exists.mp hs
  refine h.request "getjob" fun _ => ?_
  have hparams : idOfParams (.obj [("id", .str (s.session.getD ""))]) = id := by rw [hid]; rfl
  rw [hparams]
  exact h.session id hid

/-- `error` does nothing, asks for a job, or stops the client. -/
theorem error_cases (s : Client) (code : Int) :
    error s code = s ∨
    isShareError code = true ∧ error s code = updateJob ((s.reset false).emit .shareError) ∨
    isStopError code = true ∧ (error s code = { stop s with m_login_timer := true } ∨
      error s code = { stop ((stop s).emit (.newJob .empty)) with m_login_timer := true }) := by
  rw [error, isStopError, isShareError]
  cases CryptonotePoolError.ofCode code with
  | none => exact Or.inr (Or.inr ⟨rfl, Or.inr rfl⟩)
  | some e =>
    cases e with
    | NoError => exact Or.inl rfl
    | InvalidShareData | InvalidJobId | UnknownJobShare | SlightlyStaleShare | ReallyStaleShare
    | DuplicateShare | InvalidShare => exact Or.inr (Or.inl ⟨rfl, rfl⟩)
    | CanGetJob => exact Or.inr (Or.inr ⟨rfl, Or.inl rfl⟩)
    | _ => exact Or.inr (Or.inr ⟨rfl, Or.inr rfl⟩)

theorem Inv.error (h : Inv s) {code : Int} (hstop : isStopError code = true → Quiet s)
    (hshare : isShareError code = true → s.session.isSome) : Inv (error s code) := by
  rcases error_cases s code with heq | ⟨hcode, heq⟩ | ⟨hcode, heq | heq⟩
  · rw [heq]
    exact h
  · rw [heq]
    exact ((h.reset false).emit .shareError fun job hjob => by cases hjob).updateJob (hshare hcode)
  · rw [heq]
    exact (h.stop (hstop hcode)).congr rfl rfl rfl rfl rfl rfl
  · have hquiet := hstop hcode
    have hempty : Inv ((StratumClient.stop s).emit (.newJob .empty)) := by
      refine (h.stop hquiet).emit _ fun job hjob hne => ?_
      obtain rfl : MiningJob.empty = job := Signal.newJob.inj hjob
      exact absurd rfl hne
    rw [heq]
    exact (hempty.stop ⟨hquiet.calls, hquiet.lines⟩).congr rfl rfl rfl rfl rfl rfl

theorem Inv.submit (h : Inv s) (params : JsonObject) : Inv (submit s params) := by
  rw [StratumClient.submit]
  split
  case isTrue => exact h
  case isFalse => exact h.emit _ fun job hjob => by cases hjob

/-- A response comes to a client that is connected, and so does a job notification with an id. -/
theorem Inv.invoke (h : Inv s) {i : Invocation}
    (hresponse : ∀ method v, i = .response method v → s.rpc.m_sock.state = .connected)
    (hjob : ∀ jobMap, i = .notification "job" (.obj jobMap) → (jobIdOf jobMap).isEmpty = false →
      s.rpc.m_sock.state = .connected)
    (herror : ∀ code message data request, i = .error code message data request →
      (isStopError code = true → Quiet s) ∧ (isShareError code = true → s.session.isSome))
    (hi : invoke s i = some t) : Inv t := by
  rw [StratumClient.invoke.eq_def] at hi
  split at hi
  case h_1 code message data request =>
    cases hi
    obtain ⟨hstop, hshare⟩ := herror code message data request rfl
    exact h.error hstop hshare
  case h_2 params =>
    cases hi
    exact h.login (hresponse _ _ rfl) params
  case h_3 params =>
    cases hi
    exact h.setNewJob params fun _ => hresponse _ _ rfl
  case h_4 params =>
    cases hi
    exact h.submit params
  case h_5 params =>
    cases hi
    exact h.setNewJob params (hjob params rfl)
  case h_6 => cases hi

theorem Inv.take (h : Inv s) (id : Nat) (timer : Bool) :
    Inv { s with rpc := ({ s.rpc with m_request_timer := timer }.takeRequest id).2 } :=
  h.setRpc (List.Subset.refl _) List.filter_sublist.subset rfl fun hs => ⟨hs, rfl⟩

theorem isJobNotification_of {obj jobMap : JsonObject}
    (herror : ¬ (obj.contains "error" ∧ ¬ (obj.value "error").isNull)) (hid : ¬ obj.contains "id")
    (hn : JsonRpcClient.processNotification StratumAdapter obj =
      some (.notification "job" (.obj jobMap)))
    (hjob : (jobIdOf jobMap).isEmpty = false) : isJobNotification obj = true := by
  rw [isJobNotification, hn, decide_eq_true ⟨herror, hid⟩]
  simp [hjob]

theorem processError_code (c : JsonRpcClient) {obj : JsonObject} {code : Int}
    {message data : String} {request : JsonObject}
    (h : (c.processError obj).2 = some (.error code message data request)) :
    code = ((obj.value "error").toObject.value "code").toInt := by
  rw [JsonRpcClient.processError] at h
  split at h <;> cases h <;> rfl

theorem Inv.processLine (h : Inv s) {obj : JsonObject}
    (hjob : isJobNotification obj = true → s.rpc.m_sock.state = .connected)
    (hstop : (errorCode obj).any isStopError = true → Quiet s)
    (hshare : (errorCode obj).any isShareError = true → s.session.isSome)
    (hs : Client.processLine protocol s obj = some t) : Inv t := by
  rw [processLine_eq] at hs
  rcases s.rpc.processData_cases StratumAdapter obj with ⟨herror, hc⟩ | ⟨herror, hid, hc⟩ | hc
  · obtain ⟨hclient, code, message, data, request, hinv⟩ := s.rpc.processError_cases obj
    have hpair : s.rpc.processError obj =
        ((s.rpc.processError obj).1, some (.error code message data request)) := by rw [← hinv]
    have hcode : errorCode obj = some code := by
      rw [errorCode, if_pos herror, processError_code s.rpc hinv]
    rw [hcode] at hstop hshare
    rw [hc, hpair] at hs
    have htaken : Inv { s with rpc := (s.rpc.processError obj).1 } := by
      rcases hclient with hclient | hclient
      · rw [hclient]
        exact h
      · rw [hclient]
        exact h.take _ s.rpc.m_request_timer
    refine htaken.invoke (fun _ _ hi => by cases hi) (fun _ hi => by cases hi)
      (fun _ _ _ _ hi => ?_) hs
    cases hi
    exact ⟨fun hc => ⟨(hstop hc).calls, (hstop hc).lines⟩, hshare⟩
  · rw [hc] at hs
    cases hn : JsonRpcClient.processNotification StratumAdapter obj with
    | none =>
      rw [hn] at hs
      cases hs
      exact h
    | some i =>
      rw [hn] at hs
      have hnotified : ∀ {j : Invocation}, i = j → ∃ params,
          j = .notification (methodOf obj) params := by
        rintro j rfl
        rcases JsonRpcClient.processNotification_cases StratumAdapter obj with h' | ⟨params, h'⟩
        · rw [h'] at hn
          cases hn
        · rw [h'] at hn
          exact ⟨params, (Option.some.inj hn).symm⟩
      refine h.invoke (fun method v hi => ?_) (fun jobMap hi hne => ?_) (fun _ _ _ _ hi => ?_) hs
      · obtain ⟨params, hparams⟩ := hnotified hi
        cases hparams
      · exact hjob (isJobNotification_of herror hid (hi ▸ hn) hne)
      · obtain ⟨params, hparams⟩ := hnotified hi
        cases hparams
  · obtain ⟨hclient, hinv⟩ := s.rpc.processResponse_cases StratumAdapter obj
    have htaken : Inv { s with rpc := (s.rpc.processResponse StratumAdapter obj).1 } := by
      rw [hclient]
      exact h.take _ false
    have hsock : (s.rpc.processResponse StratumAdapter obj).1.m_sock = s.rpc.m_sock := by
      rw [hclient]
      rfl
    rw [hc] at hs
    rcases hinv with hinv | ⟨hmethod, v, hinv⟩
    · have hpair : s.rpc.processResponse StratumAdapter obj =
          ((s.rpc.processResponse StratumAdapter obj).1, none) := by rw [← hinv]
      rw [hpair] at hs
      cases hs
      exact htaken
    · have hpair : s.rpc.processResponse StratumAdapter obj =
          ((s.rpc.processResponse StratumAdapter obj).1,
            some (.response (methodOf (s.rpc.takeRequest (idOf obj)).1) v)) := by rw [← hinv]
      obtain ⟨request, hp, -⟩ := s.rpc.exists_request_of_response StratumAdapter hmethod
      have hconnected := h.progress _ hp
      rw [hpair] at hs
      refine htaken.invoke (fun _ _ _ => ?_) (fun _ hi => by cases hi)
        (fun _ _ _ _ hi => by cases hi) hs
      rw [← hconnected, hsock]

theorem Inv.tune (h : Inv s) (hq : rpc.m_request_queue = s.rpc.m_request_queue)
    (hsock : rpc.m_sock = s.rpc.m_sock) : Inv { s with rpc := rpc } := by
  refine h.setRpc ?_ ?_ (by rw [hsock]) fun hs => by rw [hsock]; exact ⟨hs, rfl⟩
  · rw [JsonRpcClient.queue, hq]
    exact List.Subset.refl _
  · rw [JsonRpcClient.progress, hq]
    exact List.Subset.refl _

theorem Inv.setSock (h : Inv s) {sock : Socket} (hs : s.rpc.m_sock.state ≠ .connected)
    (hw : sock.written = s.rpc.m_sock.written) :
    Inv { s with rpc := { s.rpc with m_sock := sock } } :=
  h.setRpc (List.Subset.refl _) (List.Subset.refl _) hw fun h => absurd h hs

theorem Inv.deliver (h : Inv s) {k : Nat} (hs : s.deliverWhenIdle k = some t) : Inv t := by
  obtain ⟨call, hcall, hslot⟩ := deliverWhenIdle_eq_some hs
  have hid := h.calls call (List.mem_of_getElem? hcall)
  have hrest : Inv { s with calls := s.calls.eraseIdx k } :=
    h.withCalls fun c hc => h.calls c (List.mem_of_mem_eraseIdx hc)
  rcases hslot with ⟨-, rfl⟩ | ⟨-, rfl⟩
  · refine hrest.withCalls fun c hc hcarries => ?_
    rcases List.mem_append.mp hc with hc | hc
    · exact hrest.calls c hc hcarries
    · rw [List.mem_singleton.mp hc] at hcarries ⊢
      exact hid hcarries
  · exact (hrest.enqueue call.method call.args hid).sendRequest.congr rfl rfl rfl rfl rfl rfl

theorem Inv.proceed (h : Inv s) (hu : Undisturbed s .proceed)
    (hs : Client.proceed protocol s = some t) : Inv t := by
  rw [Client.proceed] at hs
  split at hs
  case h_1 => cases hs
  case h_2 obj rest hhandler =>
    have herror : nextError s = errorCode obj := by rw [nextError, hhandler]
    have hleft : jobsLeft s.handler = (isJobNotification obj || rest.any isJobNotification) := by
      rw [hhandler]
      rfl
    have hrest : Inv { s with handler := .readyRead rest } := by
      refine h.withHandler fun hlines => h.lines ?_
      rw [hleft, show rest.any isJobNotification = true from hlines, Bool.or_true]
    refine hrest.processLine (fun hjob => h.lines ?_) (fun hstop => ?_) (fun hshare => ?_) hs
    · rw [hleft, hjob, Bool.true_or]
    · rw [← herror] at hstop
      obtain ⟨hcalls, hlines⟩ := hu.1 hstop
      rw [hleft, Bool.or_eq_false_iff] at hlines
      exact ⟨hcalls, hlines.2⟩
    · rw [← herror] at hshare
      exact hu.2 hshare
  case h_3 =>
    cases hs
    exact (h.sendRequest.withHandler fun hlines => by cases hlines).congr rfl rfl rfl rfl rfl rfl
  case h_4 =>
    cases hs
    have hrpc : Inv { s with rpc := s.rpc.errorReconnect } := by
      rw [JsonRpcClient.errorReconnect_eq]
      exact h.tune rfl rfl
    exact (hrpc.withHandler fun hlines => by cases hlines).congr rfl rfl rfl rfl rfl rfl

theorem Inv.submitShare (h : Inv s) (jobId : QByteArray) (nonce : Nat) (hash : QByteArray) :
    Inv (submitShare s jobId nonce hash) := by
  rw [StratumClient.submitShare]
  split
  case isTrue => exact h
  case isFalse hempty =>
    refine h.request "submit" fun _ => ?_
    cases hsession : s.session with
    | none =>
      rw [hsession] at hempty
      exact absurd rfl hempty
    | some id => exact h.session id hsession

theorem step_inv (h : Inv s) (hu : Undisturbed s e) (hs : step protocol s e = some t) : Inv t := by
  have hquiet : goesDown s e = true → Quiet s := fun hdown => ⟨(hu.1 hdown).1, (hu.1 hdown).2⟩
  cases e with
  | start =>
    cases hs
    exact h.start
  | stop =>
    cases hs
    exact h.stop (hquiet rfl)
  | switchToPool url =>
    cases hs
    rw [Client.switchToPool]
    split
    case isTrue hurl => exact ((h.stop (hquiet (decide_eq_true hurl))).setPool url).start
    case isFalse => exact h
  | setPool url =>
    cases hs
    exact h.setPool url
  | setWorkerName worker =>
    cases hs
    exact h.congr rfl rfl rfl rfl rfl rfl
  | submitShare jobId nonce hash =>
    cases hs
    exact h.submitShare jobId nonce hash
  | deliver k => exact h.deliver hs
  | loginTimeout =>
    obtain ⟨-, rfl⟩ := whenIdle_eq_some hs
    exact h.tryLogin
  | connectTimeout =>
    obtain ⟨-, rfl⟩ := whenIdle_eq_some hs
    exact h.connectToHost true
  | requestTimeout =>
    obtain ⟨-, rfl⟩ := whenIdle_eq_some hs
    have hdown : Inv { s with
        rpc := { s.rpc with m_request_timer := false }.abort.reset true } :=
      h.dropRpc hu.2 (hquiet rfl) rfl rfl rfl
    exact hdown.connectToHost false
  | updateProxy =>
    obtain ⟨-, rfl⟩ := whenIdle_eq_some hs
    have hdown : Inv { s with rpc := s.rpc.disconnectFromHost } :=
      h.dropRpc hu.2 (hquiet rfl) rfl rfl rfl
    exact hdown.connectToHost false
  | hostFound =>
    obtain ⟨hstate, rfl⟩ := whenIdle_eq_some hs
    exact h.setSock (by simp [hstate]) rfl
  | connected =>
    obtain ⟨hstate, rfl⟩ := whenIdle_eq_some hs
    have hsock := @Inv.setSock s h s.rpc.m_sock.establish (by simp [hstate]) rfl
    have hsent : Inv { s with rpc := s.rpc.connected } := hsock.sendRequest.tune rfl rfl
    exact hsent.tryLogin.congr rfl rfl rfl rfl rfl rfl
  | socketError =>
    obtain ⟨-, rfl⟩ := whenIdle_eq_some hs
    have hdown : Inv { s with session := none, rpc := s.rpc.abort.errorReset } := by
      refine h.dropSession.dropRpc rfl ?_ rfl rfl rfl
      exact ⟨(hquiet rfl).calls, (hquiet rfl).lines⟩
    refine (hdown.socketError.withHandler ?_).congr rfl rfl rfl rfl rfl rfl
    exact fun hlines => by cases hlines
  | bytesWritten bytes =>
    obtain ⟨-, rfl⟩ := whenIdle_eq_some hs
    have hcount : Inv { s with rpc := { s.rpc with
        m_bytes_to_write := s.rpc.m_bytes_to_write - bytes } } := h.tune rfl rfl
    simp only [JsonRpcClient.bytesWritten]
    split
    case isTrue => exact hcount.sendRequest
    case isFalse => exact hcount
  | readyRead objs =>
    obtain ⟨hstate, rfl⟩ := whenIdle_eq_some hs
    exact h.withHandler fun _ => hstate
  | proceed => exact h.proceed hu hs

/-- In every run that leaves the session undisturbed it is fresh in every state. -/
theorem session_fresh_of_undisturbed {url : Url} {userAgent worker password : String}
    {es : List Event} (hrun : exec (step protocol) (new url userAgent worker password) es = some s)
    (hu : Along (step protocol) Undisturbed (new url userAgent worker password) es) : Fresh s :=
  (exec_invariant (I := Inv) (fun _ _ _ hI hC hs => step_inv hI hC hs)
    (new_inv url userAgent worker password) hu hrun).toFresh

section Login

def loginResponse : JsonObject :=
  [("id", .str "1"), ("result", .obj [("status", .str "OK"), ("id", .str "session"),
    ("job", .obj [("job_id", .str "job"), ("blob", .str "00"), ("target", .str "01000000")])])]

def loggedIn : List Event :=
  connecting ++ [.deliver 0, .deliver 0, .readyRead [loginResponse], .proceed, .proceed]

def share : List Event := [.submitShare [106, 111, 98] 7 [], .deliver 0, .deliver 0]

theorem share_submitted_fresh :
    ∃ s, exec (step protocol) newClient (loggedIn ++ .bytesWritten 112 :: share) = some s ∧
      s.session = some "session" ∧ s.rpc.m_sock.written.length = 2 ∧ Fresh s := by
  have hrun : (exec (step protocol) newClient (loggedIn ++ .bytesWritten 112 :: share)).map
      (fun s => (s.session, s.rpc.m_sock.written.length)) = some (some "session", 2) := by
    decide +kernel
  obtain ⟨s, hs, hlen⟩ := Option.map_eq_some_iff.mp hrun
  rw [Prod.mk.injEq] at hlen
  exact ⟨s, hs, hlen.1, hlen.2, session_fresh_of_undisturbed hs (by decide +kernel)⟩

/-- The share's request is not answered in time: the socket goes down, the session stays. -/
theorem request_timeout_keeps_session :
    ¬ ∀ (s : Client) (es : List Event),
      exec (step protocol) newClient es = some s → Fresh s := by
  intro h
  have hrun : (exec (step protocol) newClient
      (loggedIn ++ .bytesWritten 112 :: share ++ [.requestTimeout])).map
      (fun s => (s.session, s.rpc.m_sock.state)) = some (some "session", .hostLookup) := by
    decide +kernel
  obtain ⟨s, hs, hstate⟩ := Option.map_eq_some_iff.mp hrun
  rw [Prod.mk.injEq] at hstate
  have hfresh := (h s _ hs).session "session" hstate.1
  have := hfresh.1
  rw [hstate.2] at this
  cases this

end Login

end MinerGate.Pool.StratumClient
