import MinerGate.Pool.StratumClient
import MinerGate.Pool.PoolClient

/-!
# After stop

`stop` takes the socket down and stops two of the three timers. What can still come are the
calls already queued, the timers that run and the proxy's signal. The request timer and the
queue are left as they are, and every request that reaches the client dials when the socket
is down.
-/

namespace MinerGate.Pool

set_option autoImplicit false

open JsonRpc Transition Client

/-- What can come after the last call from outside. -/
def Residual : Event → Prop
  | .deliver _ | .loginTimeout | .connectTimeout | .requestTimeout | .updateProxy => True
  | _ => False

instance (e : Event) : Decidable (Residual e) :=
  match e with
  | .deliver _ | .loginTimeout | .connectTimeout | .requestTimeout | .updateProxy => isTrue trivial
  | .start | .stop | .switchToPool _ | .setPool _ | .setWorkerName _ | .submitShare _ _ _
  | .hostFound | .connected | .socketError | .bytesWritten _ | .readyRead _ | .proceed => isFalse id

/-- No proxy signal, no request that timed out, and no queued call that reaches the client. -/
def Harmless (s : Client) : Event → Prop
  | .updateProxy | .requestTimeout => False
  | .deliver k => ∀ call ∈ s.calls[k]?, call.slot = .method
  | _ => True

instance (s : Client) (e : Event) : Decidable (Harmless s e) :=
  match e with
  | .updateProxy | .requestTimeout => isFalse id
  | .deliver k => inferInstanceAs (Decidable (∀ call ∈ s.calls[k]?, call.slot = .method))
  | .start | .stop | .switchToPool _ | .setPool _ | .setWorkerName _ | .submitShare _ _ _
  | .loginTimeout | .connectTimeout | .hostFound | .connected | .socketError | .bytesWritten _
  | .readyRead _ | .proceed => isTrue trivial

structure Down (s : Client) : Prop where
  sock : s.rpc.m_sock.state = .unconnected
  connect_timer : s.rpc.m_connect_timer = false
  login_timer : s.m_login_timer = false

theorem stop_down (s : Client) : Down s.stop := ⟨rfl, rfl, rfl⟩

variable {P : Protocol} {s t : Client} {e : Event}

theorem whenIdle_eq_some {enabled : Prop} [Decidable enabled] {u : Client}
    (h : s.whenIdle enabled u = some t) : enabled ∧ t = u := by
  rw [whenIdle] at h
  split at h
  case h_1 =>
    obtain ⟨he, h⟩ := Option.ite_none_right_eq_some.mp h
    exact ⟨he, (Option.some.inj h).symm⟩
  case h_2 => cases h

theorem deliverWhenIdle_eq_some {k : Nat} (h : s.deliverWhenIdle k = some t) :
    ∃ call, s.calls[k]? = some call ∧
      (call.slot = .method ∧ t = { s with
          calls := s.calls.eraseIdx k ++ [{ call with slot := .jsonRpcMethod }] } ∨
        call.slot = .jsonRpcMethod ∧ t = { s with
          calls := s.calls.eraseIdx k
          rpc := s.rpc.jsonRpcMethod call.method (some call.args) }) := by
  rw [deliverWhenIdle] at h
  split at h
  case h_2 => cases h
  case h_1 =>
    rw [deliver] at h
    split at h
    case h_1 => cases h
    case h_2 call hcall =>
      refine ⟨call, hcall, ?_⟩
      cases hslot : call.slot with
      | method =>
        simp only [hslot] at h
        exact .inl ⟨rfl, (Option.some.inj h).symm⟩
      | jsonRpcMethod =>
        simp only [hslot] at h
        exact .inr ⟨rfl, (Option.some.inj h).symm⟩

/-- A harmless event leaves a stopped client as it is. -/
theorem step_down (hd : Down s) (he : Residual e) (hh : Harmless s e)
    (hs : step P s e = some t) : Down t ∧ t.rpc.m_sock.dials = s.rpc.m_sock.dials := by
  cases e with
  | deliver k =>
    obtain ⟨call, hcall, ⟨-, rfl⟩ | ⟨hslot, -⟩⟩ := deliverWhenIdle_eq_some hs
    · exact ⟨⟨hd.sock, hd.connect_timer, hd.login_timer⟩, rfl⟩
    · have := hh call hcall
      rw [hslot] at this
      cases this
  | loginTimeout =>
    have := (whenIdle_eq_some hs).1
    rw [hd.login_timer] at this
    cases this
  | connectTimeout =>
    have := (whenIdle_eq_some hs).1
    rw [hd.connect_timer] at this
    cases this
  | requestTimeout | updateProxy => exact hh.elim
  | _ => exact he.elim

/-- Any other one makes a stopped client dial. -/
theorem step_dials (hd : Down s) (he : Residual e) (hh : ¬ Harmless s e)
    (hs : step P s e = some t) : s.rpc.m_sock.dials.length < t.rpc.m_sock.dials.length := by
  cases e with
  | deliver k =>
    obtain ⟨call, hcall, ⟨hslot, -⟩ | ⟨-, rfl⟩⟩ := deliverWhenIdle_eq_some hs
    · refine absurd (fun call' hcall' => ?_) hh
      rw [hcall, Option.mem_some_iff] at hcall'
      exact hcall' ▸ hslot
    · simp only [s.rpc.jsonRpcMethod_dials_of_down _ _ hd.connect_timer hd.sock]
      exact Nat.lt_succ_self _
  | requestTimeout =>
    obtain ⟨-, rfl⟩ := whenIdle_eq_some hs
    simp only [s.rpc.resetRequest_dials hd.connect_timer]
    exact Nat.lt_succ_self _
  | updateProxy =>
    obtain ⟨-, rfl⟩ := whenIdle_eq_some hs
    simp only [updateProxy, s.rpc.setProxy_dials]
    exact Nat.lt_succ_self _
  | loginTimeout | connectTimeout => exact absurd trivial hh
  | _ => exact he.elim

theorem step_dials_le (he : Residual e) (hs : step P s e = some t) :
    s.rpc.m_sock.dials.length ≤ t.rpc.m_sock.dials.length := by
  cases e with
  | deliver k =>
    obtain ⟨call, -, ⟨-, rfl⟩ | ⟨-, rfl⟩⟩ := deliverWhenIdle_eq_some hs
    · exact Nat.le_refl _
    · exact s.rpc.jsonRpcMethod_dials_le _ _
  | loginTimeout =>
    obtain ⟨-, rfl⟩ := whenIdle_eq_some hs
    exact Nat.le_refl _
  | connectTimeout =>
    obtain ⟨-, rfl⟩ := whenIdle_eq_some hs
    exact s.rpc.connectToHost_dials_le true
  | requestTimeout =>
    obtain ⟨-, rfl⟩ := whenIdle_eq_some hs
    exact s.rpc.resetRequest_dials_le
  | updateProxy =>
    obtain ⟨-, rfl⟩ := whenIdle_eq_some hs
    simp only [updateProxy, s.rpc.setProxy_dials]
    exact Nat.le_succ _
  | _ => exact he.elim

/-- A stopped client stays down exactly while every event is harmless. -/
theorem dials_eq_iff_harmless {es : List Event} (hd : Down s) (hes : ∀ e ∈ es, Residual e)
    (hrun : exec (step P) s es = some t) :
    t.rpc.m_sock.dials = s.rpc.m_sock.dials ↔ Along (step P) Harmless s es := by
  induction es generalizing s with
  | nil =>
    rw [exec_nil, Option.some.injEq] at hrun
    subst hrun
    exact ⟨fun _ => trivial, fun _ => rfl⟩
  | cons e es ih =>
    obtain ⟨u, he, hu⟩ := exec_cons.mp hrun
    have hres := hes e List.mem_cons_self
    have hrest : ∀ e' ∈ es, Residual e' := fun e' h => hes e' (List.mem_cons_of_mem e h)
    rw [along_cons he]
    by_cases hh : Harmless s e
    · obtain ⟨hdown, hdials⟩ := step_down hd hres hh he
      rw [← hdials, ih hdown hrest hu]
      exact (and_iff_right hh).symm
    · have hlt := step_dials hd hres hh he
      have hle : u.rpc.m_sock.dials.length ≤ t.rpc.m_sock.dials.length :=
        exec_invariant (I := fun v => u.rpc.m_sock.dials.length ≤ v.rpc.m_sock.dials.length)
          (C := fun _ e => Residual e)
          (fun _ _ _ hI hC hs => Nat.le_trans hI (step_dials_le hC hs)) (Nat.le_refl _)
          (along_of_events fun e' he' _ => hrest e' he') hu
      refine ⟨fun h => ?_, fun h => absurd h.1 hh⟩
      rw [h] at hle
      omega

/-- For both clients: once stopped, nothing is dialled exactly when no proxy signal comes, no
request times out and no queued call gets past its first slot. -/
theorem stop_final_iff {es : List Event} (hes : ∀ e ∈ es, Residual e) :
    (exec (step StratumClient.protocol) (StratumClient.stop s) es = some t →
      (t.rpc.m_sock.dials = s.rpc.m_sock.dials ↔
        Along (step StratumClient.protocol) Harmless (StratumClient.stop s) es)) ∧
    (exec (step PoolClient.protocol) (PoolClient.stop s) es = some t →
      (t.rpc.m_sock.dials = s.rpc.m_sock.dials ↔
        Along (step PoolClient.protocol) Harmless (PoolClient.stop s) es)) :=
  ⟨fun hrun => dials_eq_iff_harmless (stop_down s) hes hrun,
    fun hrun => dials_eq_iff_harmless (stop_down s) hes hrun⟩

def Reachable (P : Protocol) (s : Client) : Prop :=
  ∃ url userAgent worker password es, exec (step P) (new url userAgent worker password) es = some s

section Login

def newClient : Client := new ⟨"pool", 3333⟩ "MinerGateDeb-cli/1" "worker" ""

def connecting : List Event := [.start, .hostFound, .connected]

def dialsAround (P : Protocol) (before after : List Event) : Option (Nat × Nat) :=
  (exec (step P) newClient before).bind fun s =>
    (exec (step P) s.stop after).map fun t =>
      (s.rpc.m_sock.dials.length, t.rpc.m_sock.dials.length)

theorem dialsAround_eq_some {P : Protocol} {before after : List Event} {m n : Nat}
    (h : dialsAround P before after = some (m, n)) : ∃ s t, Reachable P s ∧
      exec (step P) newClient before = some s ∧ exec (step P) s.stop after = some t ∧
      s.rpc.m_sock.dials.length = m ∧ t.rpc.m_sock.dials.length = n := by
  obtain ⟨s, hs, h⟩ := Option.bind_eq_some_iff.mp h
  obtain ⟨t, ht, hlen⟩ := Option.map_eq_some_iff.mp h
  rw [Prod.mk.injEq] at hlen
  exact ⟨s, t, ⟨_, _, _, _, _, hs⟩, hs, ht, hlen⟩

theorem queued_login_stays_down : ∃ s t u v : Client,
    exec (step StratumClient.protocol) newClient connecting = some s ∧
    exec (step StratumClient.protocol) (StratumClient.stop s) [.deliver 0] = some t ∧
    t.rpc.m_sock.dials = s.rpc.m_sock.dials ∧
    exec (step PoolClient.protocol) newClient connecting = some u ∧
    exec (step PoolClient.protocol) (PoolClient.stop u) [.deliver 0] = some v ∧
    v.rpc.m_sock.dials = u.rpc.m_sock.dials := by
  obtain ⟨s, t, -, hs, ht, -⟩ := dialsAround_eq_some
    (show dialsAround StratumClient.protocol connecting [.deliver 0] = some (1, 1) by
      decide +kernel)
  obtain ⟨u, v, -, hu, hv, -⟩ := dialsAround_eq_some
    (show dialsAround PoolClient.protocol connecting [.deliver 0] = some (1, 1) by
      decide +kernel)
  have hsafe : ∀ s ∈ exec (step StratumClient.protocol) newClient connecting,
      Along (step StratumClient.protocol) Harmless (StratumClient.stop s) [.deliver 0] := by
    decide +kernel
  have husafe : ∀ u ∈ exec (step PoolClient.protocol) newClient connecting,
      Along (step PoolClient.protocol) Harmless (PoolClient.stop u) [.deliver 0] := by
    decide +kernel
  have hres : ∀ e ∈ [Event.deliver 0], Residual e := by decide
  exact ⟨s, t, u, v, hs, ht, ((stop_final_iff hres).1 ht).mpr (hsafe s hs),
    hu, hv, ((stop_final_iff hres).2 hv).mpr (husafe u hu)⟩

/-- The login request is written and its response awaited when the client is stopped. -/
theorem request_timer_dials_after_stop :
    ¬ ∀ (s t : Client) (es : List Event), Reachable StratumClient.protocol s →
      (∀ e ∈ es, Residual e) →
      exec (step StratumClient.protocol) (StratumClient.stop s) es = some t →
      t.rpc.m_sock.dials = s.rpc.m_sock.dials := by
  intro h
  obtain ⟨s, t, hreach, -, ht, hm, hn⟩ := dialsAround_eq_some
    (show dialsAround StratumClient.protocol (connecting ++ [.deliver 0, .deliver 0])
      [.requestTimeout] = some (1, 2) by decide +kernel)
  have hdials := h s t [.requestTimeout] hreach (by decide) ht
  rw [hdials, hm] at hn
  cases hn

end Login

end MinerGate.Pool
