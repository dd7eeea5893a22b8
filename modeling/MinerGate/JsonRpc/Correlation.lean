import MinerGate.JsonRpc.Client
import MinerGate.Lib.Transition

/-!
# Requests and responses

The server may send any object at any time; the client resets, aborts and reconnects in any
order. An id still finds at most its own request, on the connection that it was written to.
-/

namespace MinerGate.JsonRpc.Correlation

set_option autoImplicit false

open Transition

structure Dispatch where
  id : Nat
  method : String
  connection : Option Nat
deriving DecidableEq, Repr

/-- `created` and `dispatched` record what happened, newest first. -/
structure Run where
  client : JsonRpcClient
  created : List JsonObject
  dispatched : List Dispatch

inductive Event where
  | jsonRpcMethod (method : String) (args : Option Json)
  | sendRequest
  | processData (obj : JsonObject)
  | reset (full : Bool)
  | connectToHost
  | disconnectFromHost
  | setUrl (url : Url)
  | setProxy
  | connectTimeout
  | requestTimeout
  | hostFound
  | connected
  | error
  | bytesWritten (bytes : Nat)

def currentConnection (s : Socket) : Option Nat :=
  if s.state = .connected then some s.connection else none

variable (adapter : JsonRpcAdapter)

def dispatches (c : JsonRpcClient) (obj : JsonObject) : List Dispatch :=
  match (c.processData adapter obj).2 with
  | some (.response method _) => [⟨idOf obj, method, currentConnection c.m_sock⟩]
  | _ => []

def step (r : Run) : Event → Option Run
  | .jsonRpcMethod method args =>
    some { r with
      client := r.client.jsonRpcMethod method args
      created := r.client.newRequest method args :: r.created }
  | .sendRequest => some { r with client := r.client.sendRequest }
  | .processData obj =>
    some { r with
      client := (r.client.processData adapter obj).1
      dispatched := dispatches adapter r.client obj ++ r.dispatched }
  | .reset full => some { r with client := r.client.reset full }
  | .connectToHost => some { r with client := r.client.connectToHost false }
  | .disconnectFromHost => some { r with client := r.client.disconnectFromHost }
  | .setUrl url => some { r with client := r.client.setUrl url }
  | .setProxy => some { r with client := r.client.setProxy }
  | .connectTimeout =>
    if r.client.m_connect_timer then some { r with client := r.client.connectToHost true } else none
  | .requestTimeout =>
    if r.client.m_request_timer then some { r with client := r.client.resetRequest } else none
  | .hostFound =>
    if r.client.m_sock.state = .hostLookup then
      some { r with client := { r.client with m_sock := r.client.m_sock.hostFound } }
    else none
  | .connected =>
    if r.client.m_sock.state = .connecting then some { r with client := r.client.connected }
    else none
  | .error =>
    if r.client.m_sock.state ≠ .unconnected then some { r with client := r.client.abort.error }
    else none
  | .bytesWritten bytes =>
    if r.client.m_sock.state = .connected then
      some { r with client := r.client.bytesWritten bytes }
    else none

def initial (url : Url) : Run := ⟨.new url, [], []⟩

/-- The 64-bit id counter does not wrap. -/
def NoWrap (r : Run) : Event → Prop
  | .jsonRpcMethod _ _ => r.client.m_id_counter + 1 < quint64Modulus
  | _ => True

instance (r : Run) (e : Event) : Decidable (NoWrap r e) := by
  cases e <;> unfold NoWrap <;> infer_instance

structure Correlated (r : Run) : Prop where
  ids : r.created.Pairwise fun o p => idOf o ≠ idOf p
  queued_once : r.client.queue.Pairwise fun o p => idOf o ≠ idOf p
  apart : ∀ o ∈ r.client.queue, ∀ p ∈ r.client.progress, idOf o ≠ idOf p.2
  written : ∀ p ∈ r.client.progress, ∃ n, (n, p.2) ∈ r.client.m_sock.written
  once : r.dispatched.Pairwise fun d e => d.id ≠ e.id
  right : ∀ d ∈ r.dispatched, ∃ o ∈ r.created, idOf o = d.id ∧ methodOf o = d.method ∧
    ∃ n, d.connection = some n ∧ (n, o) ∈ r.client.m_sock.written

/-- `Correlated`, and what it rests on: ids grow with the counter, what is in progress belongs
to the connection that is there, and no dispatched id is waiting any more. -/
structure Inv (r : Run) : Prop where
  created_ne : ∀ o ∈ r.created, o.isEmpty = false
  created_le : ∀ o ∈ r.created, idOf o ≤ r.client.m_id_counter
  created_ids : r.created.Pairwise fun o p => idOf o ≠ idOf p
  queue_created : ∀ o ∈ r.client.queue, o ∈ r.created
  queue_ids : r.client.queue.Pairwise fun o p => idOf o ≠ idOf p
  progress_created : ∀ p ∈ r.client.progress, p.2 ∈ r.created ∧ p.1 = idOf p.2
  apart : ∀ o ∈ r.client.queue, ∀ p ∈ r.client.progress, idOf o ≠ p.1
  written : ∀ p ∈ r.client.progress, r.client.m_sock.state = .connected ∧
    (r.client.m_sock.connection, p.2) ∈ r.client.m_sock.written
  done : ∀ d ∈ r.dispatched, (∀ o ∈ r.client.queue, idOf o ≠ d.id) ∧
    ∀ p ∈ r.client.progress, p.1 ≠ d.id
  once : r.dispatched.Pairwise fun d e => d.id ≠ e.id
  right : ∀ d ∈ r.dispatched, ∃ o ∈ r.created, idOf o = d.id ∧ methodOf o = d.method ∧
    ∃ n, d.connection = some n ∧ (n, o) ∈ r.client.m_sock.written

variable {adapter} {r t : Run} {e : Event} {c : JsonRpcClient}

theorem initial_inv (url : Url) : Inv (initial url) := by
  constructor <;> simp [initial, JsonRpcClient.new, JsonRpcClient.queue, JsonRpcClient.progress]

theorem Inv.correlated (h : Inv r) : Correlated r where
  ids := h.created_ids
  queued_once := h.queue_ids
  apart o ho p hp := by
    rw [← (h.progress_created p hp).2]
    exact h.apart o ho p hp
  written p hp := ⟨_, (h.written p hp).2⟩
  once := h.once
  right := h.right

theorem Inv.progress_nil (h : Inv r) (hs : r.client.m_sock.state ≠ .connected) :
    r.client.progress = [] := by
  apply List.eq_nil_iff_forall_not_mem.mpr
  intro p hp
  exact hs (h.written p hp).1

structure Shrinks (c c' : JsonRpcClient) : Prop where
  counter : c'.m_id_counter = c.m_id_counter
  queued : c'.queue.Sublist c.queue
  inProgress : c'.progress.Sublist c.progress
  written : c'.m_sock.written = c.m_sock.written
  connection : c'.progress = [] ∨
    c'.m_sock.state = c.m_sock.state ∧ c'.m_sock.connection = c.m_sock.connection

theorem Inv.shrink (h : Inv r) (hc : Shrinks r.client c) : Inv { r with client := c } where
  created_ne := h.created_ne
  created_le o ho := by
    show idOf o ≤ c.m_id_counter
    rw [hc.counter]
    exact h.created_le o ho
  created_ids := h.created_ids
  queue_created o ho := h.queue_created o (hc.queued.subset ho)
  queue_ids := h.queue_ids.sublist hc.queued
  progress_created p hp := h.progress_created p (hc.inProgress.subset hp)
  apart o ho p hp := h.apart o (hc.queued.subset ho) p (hc.inProgress.subset hp)
  written p hp := by
    rcases hc.connection with hnil | ⟨hstate, hconn⟩
    · rw [hnil] at hp
      cases hp
    · show c.m_sock.state = .connected ∧ (c.m_sock.connection, p.2) ∈ c.m_sock.written
      rw [hstate, hconn, hc.written]
      exact h.written p (hc.inProgress.subset hp)
  done d hd := ⟨fun o ho => (h.done d hd).1 o (hc.queued.subset ho),
    fun p hp => (h.done d hd).2 p (hc.inProgress.subset hp)⟩
  once := h.once
  right d hd := by
    show ∃ o ∈ r.created, idOf o = d.id ∧ methodOf o = d.method ∧
      ∃ n, d.connection = some n ∧ (n, o) ∈ c.m_sock.written
    rw [hc.written]
    exact h.right d hd

theorem connectToHost_shrinks (h : Inv r) (tick : Bool) :
    Shrinks r.client (r.client.connectToHost tick) where
  counter := by simp
  queued := by simp [JsonRpcClient.queue]
  inProgress := by simp [JsonRpcClient.progress]
  written := by simp
  connection := by
    by_cases hs : r.client.m_sock.state = .connected
    · right
      rw [r.client.connectToHost_of_connected tick hs]
      exact ⟨rfl, rfl⟩
    · left
      simpa [JsonRpcClient.progress] using h.progress_nil hs

theorem Inv.write (h : Inv r) (hs : r.client.m_sock.state = .connected) {obj : JsonObject}
    {rest : List JsonObject} (hq : r.client.queue = obj :: rest) (hc : c = r.client.dequeue) :
    Inv { r with client := c.write obj } := by
  have hqueue : (c.write obj).queue = rest := by
    rw [hc]
    exact JsonRpcClient.dequeue_queue hq
  have hprogress : ∀ p ∈ (c.write obj).progress, p ∈ r.client.progress ∨ p = (idOf obj, obj) := by
    intro p hp
    rw [hc] at hp
    exact JsonRpcClient.mem_dequeue_progress hq hp
  have hwritten : (c.write obj).m_sock.written =
      (r.client.m_sock.connection, obj) :: r.client.m_sock.written := by
    rw [hc]; rfl
  have hobj : obj ∈ r.client.queue := hq ▸ List.mem_cons_self
  have hrest : ∀ o ∈ rest, o ∈ r.client.queue := fun o ho => hq ▸ List.mem_cons_of_mem obj ho
  have hids := List.pairwise_cons.mp (hq ▸ h.queue_ids)
  refine ⟨h.created_ne, ?_, h.created_ids, ?_, ?_, ?_, ?_, ?_, ?_, h.once, ?_⟩
  · intro o ho
    rw [hc]
    exact h.created_le o ho
  · intro o ho
    exact h.queue_created o (hrest o (hqueue ▸ ho))
  · show (c.write obj).queue.Pairwise _
    rw [hqueue]
    exact hids.2
  · intro p hp
    rcases hprogress p hp with hp | rfl
    · exact h.progress_created p hp
    · exact ⟨h.queue_created obj hobj, rfl⟩
  · intro o ho p hp
    rw [hqueue] at ho
    rcases hprogress p hp with hp | rfl
    · exact h.apart o (hrest o ho) p hp
    · exact (hids.1 o ho).symm
  · intro p hp
    show (c.write obj).m_sock.state = .connected ∧ _ ∈ (c.write obj).m_sock.written
    rw [hwritten, hc]
    refine ⟨hs, ?_⟩
    rcases hprogress p hp with hp | rfl
    · exact List.mem_cons_of_mem _ (h.written p hp).2
    · exact List.mem_cons_self
  · intro d hd
    refine ⟨fun o ho => (h.done d hd).1 o (hrest o (hqueue ▸ ho)), fun p hp => ?_⟩
    rcases hprogress p hp with hp | rfl
    · exact (h.done d hd).2 p hp
    · exact (h.done d hd).1 obj hobj
  · intro d hd
    obtain ⟨o, ho, hid, hmethod, n, hconn, hn⟩ := h.right d hd
    refine ⟨o, ho, hid, hmethod, n, hconn, ?_⟩
    rw [hwritten]
    exact List.mem_cons_of_mem _ hn

theorem Inv.sendRequest (h : Inv r) : Inv { r with client := r.client.sendRequest } := by
  rcases r.client.sendRequest_cases with hc | ⟨hs, ht, hc⟩ | ⟨hs, ht, hb, obj, rest, hq, hc⟩
  · rw [hc]
    exact h
  · rw [hc]
    exact h.shrink (connectToHost_shrinks h false)
  · rcases hc with ⟨ho, hc⟩ | ⟨ho, hc⟩
    · have hobj : obj ∈ r.client.queue := hq ▸ List.mem_cons_self
      have := h.created_ne obj (h.queue_created obj hobj)
      rw [ho] at this
      cases this
    · rw [hc]
      exact h.write hs hq rfl

theorem Inv.enqueue (h : Inv r) (method : String) (args : Option Json)
    (hwrap : r.client.m_id_counter + 1 < quint64Modulus) :
    Inv { r with
      client := r.client.enqueue method args
      created := r.client.newRequest method args :: r.created } := by
  have hnext : r.client.nextId = r.client.m_id_counter + 1 := Nat.mod_eq_of_lt hwrap
  have hid := r.client.idOf_newRequest method args
  have hfresh : ∀ o ∈ r.created, idOf o ≠ idOf (r.client.newRequest method args) := by
    intro o ho
    have := h.created_le o ho
    rw [hid, hnext]
    omega
  have hqueue : (r.client.enqueue method args).queue =
      r.client.queue ++ [r.client.newRequest method args] := rfl
  have hmem : ∀ o ∈ (r.client.enqueue method args).queue,
      o ∈ r.client.queue ∨ o = r.client.newRequest method args := by
    intro o ho
    rw [hqueue, List.mem_append, List.mem_singleton] at ho
    exact ho
  refine ⟨?_, ?_, ?_, ?_, ?_, ?_, ?_, h.written, ?_, h.once, ?_⟩
  · intro o ho
    rcases List.mem_cons.mp ho with rfl | ho
    · exact r.client.newRequest_ne_nil method args
    · exact h.created_ne o ho
  · intro o ho
    show idOf o ≤ r.client.nextId
    rcases List.mem_cons.mp ho with rfl | ho
    · exact Nat.le_of_eq hid
    · have := h.created_le o ho
      omega
  · exact List.pairwise_cons.mpr ⟨fun o ho => (hfresh o ho).symm, h.created_ids⟩
  · intro o ho
    rcases hmem o ho with ho | rfl
    · exact List.mem_cons_of_mem _ (h.queue_created o ho)
    · exact List.mem_cons_self
  · show (r.client.enqueue method args).queue.Pairwise _
    rw [hqueue, List.pairwise_append]
    refine ⟨h.queue_ids, List.pairwise_singleton _ _, fun o ho p hp => ?_⟩
    rw [List.mem_singleton.mp hp]
    exact hfresh o (h.queue_created o ho)
  · intro p hp
    obtain ⟨hp, hkey⟩ := h.progress_created p hp
    exact ⟨List.mem_cons_of_mem _ hp, hkey⟩
  · intro o ho p hp
    rcases hmem o ho with ho | rfl
    · exact h.apart o ho p hp
    · obtain ⟨hp, hkey⟩ := h.progress_created p hp
      rw [hkey]
      exact (hfresh p.2 hp).symm
  · intro d hd
    refine ⟨fun o ho => ?_, (h.done d hd).2⟩
    rcases hmem o ho with ho | rfl
    · exact (h.done d hd).1 o ho
    · obtain ⟨o, ho, hod, -⟩ := h.right d hd
      rw [← hod]
      exact (hfresh o ho).symm
  · intro d hd
    obtain ⟨o, ho, hright⟩ := h.right d hd
    exact ⟨o, List.mem_cons_of_mem _ ho, hright⟩

theorem takeRequest_shrinks (c : JsonRpcClient) (id : Nat) (timer : Bool) :
    Shrinks c ({ c with m_request_timer := timer }.takeRequest id).2 where
  counter := rfl
  queued := List.Sublist.refl _
  inProgress := List.filter_sublist
  written := rfl
  connection := .inr ⟨rfl, rfl⟩

theorem Inv.dispatch (h : Inv r) {id : Nat} {request : JsonObject} {timer : Bool}
    (hp : (id, request) ∈ r.client.progress)
    (hc : c = ({ r.client with m_request_timer := timer }.takeRequest id).2) :
    Inv { r with
      client := c
      dispatched := ⟨id, methodOf request, currentConnection r.client.m_sock⟩ :: r.dispatched } := by
  have h' : Inv { r with client := c } := h.shrink (hc ▸ takeRequest_shrinks r.client id timer)
  have hqueue : c.queue = r.client.queue := by rw [hc]; rfl
  have hsock : c.m_sock = r.client.m_sock := by rw [hc]; rfl
  obtain ⟨hcreated, hkey⟩ := h.progress_created _ hp
  obtain ⟨hstate, hwritten⟩ := h.written _ hp
  refine ⟨h'.created_ne, h'.created_le, h'.created_ids, h'.queue_created, h'.queue_ids,
    h'.progress_created, h'.apart, h'.written, ?_, ?_, ?_⟩
  · intro d hd
    rcases List.mem_cons.mp hd with rfl | hd
    · refine ⟨fun o ho => ?_, fun p hp' => ?_⟩
      · rw [hqueue] at ho
        exact h.apart o ho _ hp
      · rw [hc] at hp'
        simpa using (List.mem_filter.mp hp').2
    · exact h'.done d hd
  · exact List.pairwise_cons.mpr ⟨fun d hd => (h.done d hd).2 _ hp, h.once⟩
  · intro d hd
    rcases List.mem_cons.mp hd with rfl | hd
    · refine ⟨request, hcreated, hkey.symm, rfl, r.client.m_sock.connection, if_pos hstate, ?_⟩
      rw [hsock]
      exact hwritten
    · exact h'.right d hd

theorem Inv.processData (h : Inv r) (obj : JsonObject) :
    Inv { r with
      client := (r.client.processData adapter obj).1
      dispatched := dispatches adapter r.client obj ++ r.dispatched } := by
  rcases r.client.processData_cases adapter obj with ⟨-, hc⟩ | ⟨-, -, hc⟩ | hc
  · obtain ⟨hclient, _, _, _, _, hinv⟩ := r.client.processError_cases obj
    rw [dispatches, hc, hinv]
    rcases hclient with hclient | hclient
    · rw [hclient]
      exact h
    · rw [hclient]
      exact h.shrink (takeRequest_shrinks r.client _ r.client.m_request_timer)
  · rw [dispatches, hc]
    rcases JsonRpcClient.processNotification_cases adapter obj with hn | ⟨params, hn⟩ <;>
    · rw [hn]
      exact h
  · obtain ⟨hclient, hinv⟩ := r.client.processResponse_cases adapter obj
    rw [dispatches, hc]
    rcases hinv with hinv | ⟨hmethod, v, hinv⟩
    · rw [hinv, hclient]
      exact h.shrink (takeRequest_shrinks r.client _ false)
    · obtain ⟨request, hp, hreq⟩ := r.client.exists_request_of_response adapter hmethod
      rw [hinv, hreq]
      exact h.dispatch hp hclient

theorem disconnectFromHost_shrinks (c : JsonRpcClient) : Shrinks c c.disconnectFromHost where
  counter := rfl
  queued := List.nil_sublist _
  inProgress := List.nil_sublist _
  written := rfl
  connection := .inl rfl

theorem abort_reset_shrinks (c : JsonRpcClient) (timer : Bool) :
    Shrinks c ({ c with m_request_timer := timer }.abort.reset true) where
  counter := rfl
  queued := List.nil_sublist _
  inProgress := List.nil_sublist _
  written := rfl
  connection := .inl rfl

theorem reset_shrinks (c : JsonRpcClient) (full : Bool) : Shrinks c (c.reset full) where
  counter := rfl
  queued := List.nil_sublist _
  inProgress := by cases full <;> simp [JsonRpcClient.progress, JsonRpcQueueHandler.clear]
  written := rfl
  connection := .inr ⟨rfl, rfl⟩

theorem error_shrinks (c : JsonRpcClient) : Shrinks c c.abort.error := by
  rw [JsonRpcClient.error, JsonRpcClient.errorReconnect_eq]
  exact ⟨rfl, List.nil_sublist _, List.nil_sublist _, rfl, .inl rfl⟩

theorem Inv.setSock (h : Inv r) {s : Socket} (hs : r.client.m_sock.state ≠ .connected)
    (hw : s.written = r.client.m_sock.written) :
    Inv { r with client := { r.client with m_sock := s } } :=
  h.shrink ⟨rfl, List.Sublist.refl _, List.Sublist.refl _, hw, .inl (h.progress_nil hs)⟩

theorem step_inv (h : Inv r) (hw : NoWrap r e) (hs : step adapter r e = some t) : Inv t := by
  cases e with
  | jsonRpcMethod method args =>
    cases hs
    exact (h.enqueue method args hw).sendRequest
  | sendRequest =>
    cases hs
    exact h.sendRequest
  | processData obj =>
    cases hs
    exact h.processData obj
  | reset full =>
    cases hs
    exact h.shrink (reset_shrinks r.client full)
  | connectToHost =>
    cases hs
    exact h.shrink (connectToHost_shrinks h false)
  | disconnectFromHost =>
    cases hs
    exact h.shrink (disconnectFromHost_shrinks r.client)
  | setUrl url =>
    cases hs
    exact h.shrink ⟨rfl, List.Sublist.refl _, List.Sublist.refl _, rfl, .inr ⟨rfl, rfl⟩⟩
  | setProxy =>
    cases hs
    have h' := h.shrink (disconnectFromHost_shrinks r.client)
    exact h'.shrink (connectToHost_shrinks h' false)
  | connectTimeout =>
    obtain ⟨-, hs⟩ := Option.ite_none_right_eq_some.mp hs
    cases hs
    exact h.shrink (connectToHost_shrinks h true)
  | requestTimeout =>
    obtain ⟨-, hs⟩ := Option.ite_none_right_eq_some.mp hs
    cases hs
    have h' := h.shrink (abort_reset_shrinks r.client false)
    exact h'.shrink (connectToHost_shrinks h' false)
  | hostFound =>
    obtain ⟨hstate, hs⟩ := Option.ite_none_right_eq_some.mp hs
    cases hs
    exact h.setSock (by simp [hstate]) rfl
  | connected =>
    obtain ⟨hstate, hs⟩ := Option.ite_none_right_eq_some.mp hs
    cases hs
    have h' := (@Inv.setSock r h r.client.m_sock.establish (by simp [hstate]) rfl).sendRequest
    exact h'.shrink ⟨rfl, List.Sublist.refl _, List.Sublist.refl _, rfl, .inr ⟨rfl, rfl⟩⟩
  | error =>
    obtain ⟨-, hs⟩ := Option.ite_none_right_eq_some.mp hs
    cases hs
    exact h.shrink (error_shrinks r.client)
  | bytesWritten bytes =>
    obtain ⟨hstate, hs⟩ := Option.ite_none_right_eq_some.mp hs
    cases hs
    have h' : Inv { r with client := { r.client with
        m_bytes_to_write := r.client.m_bytes_to_write - bytes } } :=
      h.shrink ⟨rfl, List.Sublist.refl _, List.Sublist.refl _, rfl, .inr ⟨rfl, rfl⟩⟩
    rw [JsonRpcClient.bytesWritten]
    split
    case isTrue => exact h'.sendRequest
    case isFalse => exact h'

/-- In every run, whatever the server sends and in whatever order the client resets and
reconnects, requests and responses belong together. -/
theorem run_correlated {url : Url} {es : List Event}
    (hrun : exec (step adapter) (initial url) es = some r)
    (hwrap : Along (step adapter) NoWrap (initial url) es) : Correlated r :=
  (exec_invariant (I := Inv) (fun _ _ _ hI hw hs => step_inv hI hw hs) (initial_inv url)
    hwrap hrun).correlated

section Login

def loginAdapter : JsonRpcAdapter := ⟨["login"], ["login"], [], by decide⟩

def loginTwiceAnswered : List Event :=
  [.connectToHost, .hostFound, .connected, .jsonRpcMethod "login" none,
    .processData [("id", .str "1"), ("result", .obj [])],
    .processData [("id", .str "1"), ("result", .obj [])]]

theorem login_dispatched_once :
    ∃ r, exec (step loginAdapter) (initial ⟨"pool", 3333⟩) loginTwiceAnswered = some r ∧
      r.dispatched = [⟨1, "login", some 1⟩] ∧ Correlated r := by
  have h : (exec (step loginAdapter) (initial ⟨"pool", 3333⟩) loginTwiceAnswered).map
      Run.dispatched = some [⟨1, "login", some 1⟩] := by decide +kernel
  obtain ⟨r, hr, hd⟩ := Option.map_eq_some_iff.mp h
  exact ⟨r, hr, hd, run_correlated hr (by decide +kernel)⟩

end Login

end MinerGate.JsonRpc.Correlation
