import Mathlib.Algebra.BigOperators.Group.List.Basic
import Mathlib.Algebra.Ring.Int.Defs
import MinerGate.JsonRpc.Correlation

/-!
# The bytes to write

`m_bytes_to_write` is set to the size of the request that is written, lowered by the bytes that the
socket reports, and set to zero where `connectToHost` begins.
-/

namespace MinerGate.JsonRpc

set_option autoImplicit false

open Transition Correlation

/-- The size of what has been written to the current connection. -/
def Socket.writtenBytes (s : Socket) : Int :=
  ((s.written.filter fun p => p.1 = s.connection).map fun p => JsonRpcClient.messageSize p.2).sum

/-- The bytes that the socket has not reported yet, of `reported` ones. -/
def JsonRpcClient.unflushed (c : JsonRpcClient) (reported : Int) : Int :=
  c.m_sock.writtenBytes - reported

/-- A run, and the number of bytes that the socket has reported for its current connection. -/
structure Accounted where
  run : Run
  reported : Int

namespace Accounted

/-- The socket reports bytes that it was given, and has not reported yet. -/
def Offered (a : Accounted) : Event → Prop
  | .bytesWritten bytes => 0 < bytes ∧ bytes ≤ a.run.client.unflushed a.reported
  | _ => True

instance (a : Accounted) : (e : Event) → Decidable (a.Offered e)
  | .bytesWritten _ => inferInstanceAs (Decidable (_ ∧ _))
  | .jsonRpcMethod _ _ | .sendRequest | .processData _ | .reset _ | .connectToHost
  | .disconnectFromHost | .setUrl _ | .setProxy | .connectTimeout | .requestTimeout | .hostFound
  | .connected | .error => inferInstanceAs (Decidable True)

def note (a : Accounted) : Event → Int
  | .bytesWritten bytes => a.reported + bytes
  | .connected => 0
  | _ => a.reported

def step (adapter : JsonRpcAdapter) (a : Accounted) (e : Event) : Option Accounted :=
  if a.Offered e then (Correlation.step adapter a.run e).map fun run => ⟨run, a.note e⟩ else none

def initial (url : Url) : Accounted := ⟨Correlation.initial url, 0⟩

end Accounted

namespace JsonRpcClient
variable {c c' : JsonRpcClient} {reported : Int}

/-- On a connection the counter is what is not reported; before there is one it is zero. -/
structure Balanced (c : JsonRpcClient) (reported : Int) : Prop where
  connected : c.m_sock.state = .connected → c.m_bytes_to_write = c.unflushed reported
  waiting : c.m_sock.state ≠ .connected → c.m_sock.state ≠ .unconnected → c.m_bytes_to_write = 0
  nonneg : 0 ≤ c.m_bytes_to_write
  past : ∀ p ∈ c.m_sock.written, p.1 ≤ c.m_sock.connection

theorem balanced_new (url : Url) : Balanced (.new url) 0 where
  connected h := by cases h
  waiting _ h := absurd rfl h
  nonneg := Int.le_refl 0
  past p hp := by cases hp

theorem Balanced.congr (h : Balanced c reported) (hsock : c'.m_sock = c.m_sock)
    (hbytes : c'.m_bytes_to_write = c.m_bytes_to_write) : Balanced c' reported := by
  obtain ⟨hconnected, hwaiting, hnonneg, hpast⟩ := h
  unfold unflushed at hconnected
  constructor
  · unfold unflushed
    rw [hsock, hbytes]
    exact hconnected
  · rw [hsock, hbytes]
    exact hwaiting
  · rw [hbytes]
    exact hnonneg
  · rw [hsock]
    exact hpast

theorem Balanced.abort (h : Balanced c reported) : Balanced c.abort reported where
  connected hs := by cases hs
  waiting _ hs := absurd rfl hs
  nonneg := h.nonneg
  past := h.past

theorem Balanced.connectToHost (h : Balanced c reported)
    (hflushed : c.m_sock.state = .connected → c.unflushed reported = 0) (tick : Bool) :
    Balanced (c.connectToHost tick) reported := by
  rcases c.connectToHost_cases tick with ⟨-, hc⟩ | ⟨-, -, b, hb, hconnecting, hconnected, hc⟩
  · rw [hc]
    exact ⟨fun hs => (hflushed hs).symm, fun _ _ => rfl, Int.le_refl 0, h.past⟩
  · have hdial := dial_state b ⟨hconnecting, hconnected⟩
    have hzero : b.dial.m_bytes_to_write = 0 := by
      rcases hb with rfl | rfl
      · rfl
      · rfl
    rw [hc]
    refine ⟨fun hs => ?_, fun _ _ => hzero, Int.le_of_eq hzero.symm, ?_⟩
    · rw [hdial] at hs
      cases hs
    · rcases hb with rfl | rfl
      · exact h.past
      · exact h.past

theorem writtenBytes_write (s : Socket) (obj : JsonObject) :
    (s.write obj).writtenBytes = messageSize obj + s.writtenBytes := by
  unfold Socket.writtenBytes
  rw [Socket.write, List.filter_cons_of_pos (by simp), List.map_cons, List.sum_cons]

theorem Balanced.write (h : Balanced c reported) (hs : c.m_sock.state = .connected)
    (hbytes : c.m_bytes_to_write ≤ 0) (obj : JsonObject) :
    Balanced (c.dequeue.write obj) reported := by
  have hflushed : c.unflushed reported = 0 := by
    have := h.nonneg
    rw [← h.connected hs]
    omega
  refine ⟨fun _ => ?_, fun hnot => absurd hs hnot, Int.natCast_nonneg _, fun p hp => ?_⟩
  · show messageSize obj = (c.m_sock.write obj).writtenBytes - reported
    rw [writtenBytes_write]
    unfold unflushed at hflushed
    omega
  · rcases List.mem_cons.mp hp with rfl | hp
    · exact Nat.le_refl _
    · exact h.past p hp

theorem Balanced.sendRequest (h : Balanced c reported) : Balanced c.sendRequest reported := by
  rcases c.sendRequest_cases with hc | ⟨hs, -, hc⟩ | ⟨hs, -, hbytes, obj, rest, -, hc⟩
  · rw [hc]
    exact h
  · rw [hc]
    exact h.connectToHost (fun hconnected => absurd hconnected hs) false
  · rcases hc with ⟨-, hc⟩ | ⟨-, hc⟩
    · rw [hc]
      exact h.congr rfl rfl
    · rw [hc]
      exact h.write hs hbytes obj

/-- Nothing has been written to a new connection. -/
theorem writtenBytes_establish (h : Balanced c reported) : c.m_sock.establish.writtenBytes = 0 := by
  have hnone : c.m_sock.establish.written.filter
      (fun p => p.1 = c.m_sock.establish.connection) = [] := by
    apply List.filter_eq_nil_iff.mpr
    intro p hp
    have hpast : p.1 ≤ c.m_sock.connection := h.past p hp
    have hne : p.1 ≠ c.m_sock.connection + 1 := by omega
    exact mt of_decide_eq_true hne
  unfold Socket.writtenBytes
  rw [hnone]
  rfl

theorem Balanced.establish (h : Balanced c reported) (hs : c.m_sock.state = .connecting) :
    Balanced c.connected 0 := by
  have hzero := h.waiting (by simp [hs]) (by simp [hs])
  have hestablish : Balanced { c with m_sock := c.m_sock.establish } 0 := by
    refine ⟨fun _ => ?_, fun hnot => absurd rfl hnot, h.nonneg, fun p hp => ?_⟩
    · show c.m_bytes_to_write = c.m_sock.establish.writtenBytes - 0
      rw [writtenBytes_establish h, hzero]
      rfl
    · exact Nat.le_succ_of_le (h.past p hp)
  exact hestablish.sendRequest.congr rfl rfl

theorem Balanced.bytesWritten (h : Balanced c reported) (hs : c.m_sock.state = .connected)
    {bytes : Nat} (hbytes : bytes ≤ c.unflushed reported) :
    Balanced (c.bytesWritten bytes) (reported + bytes) := by
  have hbalance := h.connected hs
  have hless : Balanced { c with m_bytes_to_write := c.m_bytes_to_write - bytes }
      (reported + bytes) := by
    refine ⟨fun _ => ?_, fun hnot => absurd hs hnot, ?_, h.past⟩
    · show c.m_bytes_to_write - bytes = c.m_sock.writtenBytes - (reported + bytes)
      unfold unflushed at hbalance
      omega
    · show 0 ≤ c.m_bytes_to_write - bytes
      omega
  rw [JsonRpcClient.bytesWritten]
  split
  case isTrue => exact hless.sendRequest
  case isFalse => exact hless

/-- The connect timer does not run on a connection. -/
def Stopped (c : JsonRpcClient) : Prop :=
  c.m_sock.state = .connected → c.m_connect_timer = false

theorem Stopped.connectToHost (h : Stopped c) (tick : Bool) : Stopped (c.connectToHost tick) := by
  intro hs
  rw [connectToHost_connect_timer]
  exact h ((c.connectToHost_state_connected tick).mp hs)

theorem Stopped.sendRequest (h : Stopped c) : Stopped c.sendRequest := by
  rcases c.sendRequest_cases with hc | ⟨-, -, hc⟩ | ⟨-, -, -, obj, rest, -, ⟨-, hc⟩ | ⟨-, hc⟩⟩
  · rw [hc]
    exact h
  · rw [hc]
    exact h.connectToHost false
  · rw [hc]
    exact h
  · rw [hc]
    exact h

theorem Stopped.of_unconnected (h : c.m_sock.state = .unconnected) : Stopped c := by
  intro hs
  rw [h] at hs
  cases hs

end JsonRpcClient

namespace Accounted
variable {adapter : JsonRpcAdapter} {a b : Accounted} {e : Event}

structure Inv (a : Accounted) : Prop where
  balanced : a.run.client.Balanced a.reported
  stopped : a.run.client.Stopped

/-- `connectToHost` is called on a connection only when nothing waits to be reported. -/
def Flushed (a : Accounted) : Event → Prop
  | .connectToHost =>
    a.run.client.m_sock.state = .connected → a.run.client.unflushed a.reported = 0
  | _ => True

theorem initial_inv (url : Url) : Inv (initial url) :=
  ⟨JsonRpcClient.balanced_new url, fun hs => by cases hs⟩

theorem step_cases (h : step adapter a e = some b) :
    a.Offered e ∧ Correlation.step adapter a.run e = some b.run ∧ b.reported = a.note e := by
  obtain ⟨hoffered, h⟩ := Option.ite_none_right_eq_some.mp h
  obtain ⟨run, hrun, rfl⟩ := Option.map_eq_some_iff.mp h
  exact ⟨hoffered, hrun, rfl⟩

theorem step_inv (h : Inv a) (hflushed : a.Flushed e) (hstep : step adapter a e = some b) :
    Inv b := by
  obtain ⟨hoffered, hs, hreported⟩ := step_cases hstep
  obtain ⟨run, reported⟩ := b
  obtain ⟨hbalanced, hstopped⟩ := h
  subst hreported
  cases e with
  | jsonRpcMethod method args =>
    cases hs
    have hadded : (a.run.client.enqueue method args).Balanced a.reported := hbalanced.congr rfl rfl
    exact ⟨hadded.sendRequest, JsonRpcClient.Stopped.sendRequest hstopped⟩
  | sendRequest =>
    cases hs
    exact ⟨hbalanced.sendRequest, hstopped.sendRequest⟩
  | processData obj =>
    cases hs
    have hsock := a.run.client.processData_sock adapter obj
    refine ⟨hbalanced.congr hsock (a.run.client.processData_bytes_to_write adapter obj),
      fun hconnected => ?_⟩
    change (a.run.client.processData adapter obj).1.m_sock.state = .connected at hconnected
    rw [hsock] at hconnected
    exact (a.run.client.processData_connect_timer adapter obj).trans (hstopped hconnected)
  | reset full =>
    cases hs
    exact ⟨hbalanced.congr rfl rfl, hstopped⟩
  | connectToHost =>
    cases hs
    exact ⟨hbalanced.connectToHost hflushed false, hstopped.connectToHost false⟩
  | disconnectFromHost =>
    cases hs
    exact ⟨hbalanced.abort.congr rfl rfl, .of_unconnected rfl⟩
  | setUrl url =>
    cases hs
    exact ⟨hbalanced.congr rfl rfl, hstopped⟩
  | setProxy =>
    cases hs
    have hdown : a.run.client.disconnectFromHost.Balanced a.reported :=
      hbalanced.abort.congr rfl rfl
    exact ⟨hdown.connectToHost (fun hconnected => by cases hconnected) false,
      JsonRpcClient.Stopped.connectToHost (.of_unconnected rfl) false⟩
  | connectTimeout =>
    obtain ⟨htimer, hs⟩ := Option.ite_none_right_eq_some.mp hs
    cases hs
    refine ⟨hbalanced.connectToHost (fun hconnected => ?_) true, hstopped.connectToHost true⟩
    rw [hstopped hconnected] at htimer
    cases htimer
  | requestTimeout =>
    obtain ⟨-, hs⟩ := Option.ite_none_right_eq_some.mp hs
    cases hs
    have hdown : (({ a.run.client with m_request_timer := false }.abort).reset true).Balanced
        a.reported := hbalanced.abort.congr rfl rfl
    exact ⟨hdown.connectToHost (fun hconnected => by cases hconnected) false,
      JsonRpcClient.Stopped.connectToHost (.of_unconnected rfl) false⟩
  | hostFound =>
    obtain ⟨hstate, hs⟩ := Option.ite_none_right_eq_some.mp hs
    cases hs
    have hzero := hbalanced.waiting (by simp [hstate]) (by simp [hstate])
    exact ⟨⟨fun hconnected => (by cases hconnected), fun _ _ => hzero, hbalanced.nonneg,
      hbalanced.past⟩, fun hconnected => by cases hconnected⟩
  | connected =>
    obtain ⟨hstate, hs⟩ := Option.ite_none_right_eq_some.mp hs
    cases hs
    exact ⟨hbalanced.establish hstate, fun _ => rfl⟩
  | error =>
    obtain ⟨-, hs⟩ := Option.ite_none_right_eq_some.mp hs
    cases hs
    have hdown : a.run.client.abort.error.m_sock = a.run.client.abort.m_sock := by
      rw [JsonRpcClient.error, JsonRpcClient.errorReconnect_eq]
      rfl
    have hbytes : a.run.client.abort.error.m_bytes_to_write = a.run.client.m_bytes_to_write := by
      rw [JsonRpcClient.error, JsonRpcClient.errorReconnect_eq]
      rfl
    refine ⟨hbalanced.abort.congr hdown hbytes, .of_unconnected ?_⟩
    rw [hdown]
    rfl
  | bytesWritten bytes =>
    obtain ⟨hstate, hs⟩ := Option.ite_none_right_eq_some.mp hs
    cases hs
    refine ⟨hbalanced.bytesWritten hstate hoffered.2, ?_⟩
    have hless : JsonRpcClient.Stopped { a.run.client with
        m_bytes_to_write := a.run.client.m_bytes_to_write - bytes } := hstopped
    show (a.run.client.bytesWritten bytes).Stopped
    rw [JsonRpcClient.bytesWritten]
    split
    case isTrue => exact hless.sendRequest
    case isFalse => exact hless

/-- The counter is right, no request is written behind one that is not flushed, and the report that
completes a flush sends the next one. -/
structure Accurate (adapter : JsonRpcAdapter) (a : Accounted) : Prop where
  balance : a.run.client.m_sock.state = .connected →
    a.run.client.m_bytes_to_write = a.run.client.unflushed a.reported
  nonneg : 0 ≤ a.run.client.m_bytes_to_write
  busy : a.run.client.m_sock.state = .connected → 0 < a.run.client.unflushed a.reported →
    a.run.client.sendRequest = a.run.client
  flush : ∀ (bytes : Nat) (b : Accounted), step adapter a (.bytesWritten bytes) = some b →
    bytes = a.run.client.unflushed a.reported →
      b.run.client = { a.run.client with m_bytes_to_write := 0 }.sendRequest

theorem Inv.accurate (h : Inv a) : Accurate adapter a where
  balance := h.balanced.connected
  nonneg := h.balanced.nonneg
  busy hs hpos := by
    have hbytes := h.balanced.connected hs
    rcases a.run.client.sendRequest_cases with hc | ⟨hnot, -⟩ | ⟨-, -, hle, -⟩
    · exact hc
    · exact absurd hs hnot
    · omega
  flush bytes b hstep hall := by
    obtain ⟨-, hs, -⟩ := step_cases hstep
    obtain ⟨hstate, hs⟩ := Option.ite_none_right_eq_some.mp hs
    have hzero : a.run.client.m_bytes_to_write - bytes = 0 := by
      rw [h.balanced.connected hstate]
      omega
    obtain ⟨run, reported⟩ := b
    cases hs
    show a.run.client.bytesWritten bytes = _
    rw [JsonRpcClient.bytesWritten]
    simp only [hzero, if_true]

/-- In every state of a run the written bytes are accounted for, exactly when no `connectToHost`
comes while bytes wait to be reported. -/
theorem accurate_iff (adapter : JsonRpcAdapter) (url : Url) (es : List Event) :
    (∀ fs a, fs <+: es → exec (step adapter) (initial url) fs = some a → Accurate adapter a) ↔
      Along (step adapter) Flushed (initial url) es := by
  refine along_iff_reached (I := Inv) (fun a e b hI hC he => step_inv hI hC he)
    (fun a hI => hI.accurate) (fun a e hI hC => ?_) (initial_inv url)
  cases e with
  | connectToHost =>
    obtain ⟨hs, hwaits⟩ := Classical.not_imp.mp hC
    refine ⟨⟨{ a.run with client := a.run.client.connectToHost false }, a.reported⟩, rfl,
      fun haccurate => ?_⟩
    have hbalance := haccurate.balance
    rw [a.run.client.connectToHost_of_connected false hs] at hbalance
    exact hwaits (hbalance hs).symm
  | _ => exact absurd trivial hC

/-- `connectToHost` on a connection forgets the request that is not flushed. -/
theorem connect_again_forgets :
    ¬ ∀ (adapter : JsonRpcAdapter) (url : Url) (es : List Event) (a : Accounted),
      exec (step adapter) (initial url) es = some a → Accurate adapter a := by
  intro h
  have hrun : (exec (step loginAdapter) (initial ⟨"pool", 3333⟩)
      [.connectToHost, .hostFound, .connected, .jsonRpcMethod "login" none, .connectToHost]).map
        (fun a => (a.run.client.m_sock.state,
          decide (a.run.client.m_bytes_to_write = a.run.client.unflushed a.reported))) =
        some (.connected, false) := by
    decide +kernel
  obtain ⟨a, ha, hstate⟩ := Option.map_eq_some_iff.mp hrun
  obtain ⟨hs, hne⟩ := Prod.mk.injEq _ _ _ _ ▸ hstate
  exact of_decide_eq_false hne ((h _ _ _ a ha).balance hs)

end Accounted
end MinerGate.JsonRpc
