import MinerGate.Miner.Impl
import MinerGate.Miner.NonceRanges

/-!
# Nonces across a job switch

`updateJob` invalidates the counter, delivers the new job to one worker after the other and
restarts the counter. The CPU loop and the Ethereum CUDA loop do not ask whether the counter
is valid, so they can reserve for the new job before the restart, and every loop can reserve
for the old job after it.
-/

namespace MinerGate

set_option autoImplicit false

open Transition Reservation

/-- The 64-bit counter takes the amounts that the loops reserve. -/
def Action.Fits : Action → Prop
  | .reserve _ amount => amount < nonceModulus
  | _ => True

section Fits
variable {sh : Shared} {inp : Input}

theorem Action.Of.fits {amounts : Nat → Prop} {reports : Bool → Option MiningJob}
    {check : MiningJob → Nat → Option QByteArray} {action : Action}
    (h : action.Of amounts reports check) (hamounts : ∀ n, amounts n → n < nonceModulus) :
    action.Fits := by
  cases h with
  | reserve fee hamount => exact hamounts _ hamount
  | _ => trivial

theorem CpuLoop.step_fits {l : CpuLoop} {search : Search} {r : Result CpuLoop}
    (h : l.step search sh inp = some r) : r.action.Fits := by
  refine (step_action h).fits fun n hn => ?_
  subst hn
  decide

theorem GpuMiner.step_fits {m : GpuMiner} {hashing : Hashing} {r : Result GpuMiner}
    (h : m.step hashing sh inp = some r) : r.action.Fits := by
  have hthreads : ∀ n, n = inp.threads.toNat → n < nonceModulus := by
    intro n hn
    subst hn
    exact Nat.lt_trans inp.threads.toNat_lt (by decide)
  have hinterval : ∀ n, n = ETH_CUDA_NONCE_INTERVAL → n < nonceModulus := by
    intro n hn
    subst hn
    decide
  cases m <;> obtain ⟨q, hq, rfl⟩ := Option.map_eq_some_iff.mp h
  · exact (CryptonoteCuda.step_action hq).fits hthreads
  · exact (EthCuda.step_action hq).fits hinterval
  · exact (CryptonoteOcl.step_action hq).fits hthreads
  · exact (EthOcl.step_action hq).fits hthreads

theorem GpuLoop.step_fits {l : GpuLoop} {hashing : Hashing} {r : Result GpuLoop}
    (h : l.step hashing sh inp = some r) : r.action.Fits := by
  rcases step_cases h with ⟨-, s, hs, rfl⟩ | ⟨-, rfl⟩ | ⟨pc, -, rfl | rfl⟩
  · exact GpuMiner.step_fits hs
  · trivial
  · trivial
  · trivial

theorem Loop.step_fits {backend : Backend} {l : Loop} {r : Result Loop}
    (h : l.step backend sh inp = some r) : r.action.Fits := by
  cases l <;> obtain ⟨q, hq, rfl⟩ := Option.map_eq_some_iff.mp h
  · exact CpuLoop.step_fits hq
  · exact GpuLoop.step_fits hq

end Fits

namespace JobSwitch

open AbstractMinerImpl

structure Handed where
  job_id : QByteArray
  reserve : Nat
  last : Nat
deriving DecidableEq, Repr

def Handed.nonces (size : Nat) (r : Handed) : Set Nat :=
  (· % size) '' Set.Ico (r.last - r.reserve) r.last

/-- `restarts` are the ids of the jobs the counter was restarted for, `travelled` is how far
the counter has come since the last restart, `handed` are the ranges given to searches. Both
lists are newest first. -/
structure Ledger where
  restarts : List QByteArray
  space : NonceSpace
  travelled : Nat
  handed : List Handed
deriving DecidableEq

def Ledger.new : Ledger := ⟨[], .cryptonote, 0, []⟩

def action (cfg : MinerConfig) (s : AbstractMinerImpl) (id : WorkerId) (inp : Input) : Action :=
  match (s.loop id).step cfg.backend (s.shared cfg id) inp with
  | some r => r.action
  | none => .none

def pendingRestart (s : AbstractMinerImpl) : Option Nat :=
  match s.ops, s.tasks with
  | [], .restart random :: _ => some random
  | _, _ => none

def noteNonces (cfg : MinerConfig) (s : AbstractMinerImpl) (e : Event) (g : Ledger) : Ledger :=
  match e with
  | .main =>
    match pendingRestart s with
    | some random =>
      { g with
        restarts := s.m_currentJob.job_id :: g.restarts
        space := if cfg.m_startNonceIsRandom then .ethereum random else .cryptonote
        travelled := 0 }
    | none => g
  | .loop id inp =>
    match action cfg s id inp with
    | .reserve false amount =>
      { g with
        travelled := g.travelled + NonceCtl.advance s.nonceCtl.m_nonce amount
        handed := ⟨(s.loop id).job.job_id, amount, (s.nonceCtl.nextNonce amount).2⟩ :: g.handed }
    | .unreserved false amount finishNonce =>
      { g with handed := ⟨(s.loop id).job.job_id, amount, finishNonce⟩ :: g.handed }
    | _ => g
  | _ => g

def nonceRange (cfg : MinerConfig) : Nat :=
  if cfg.m_startNonceIsRandom then nonceModulus else quint32Modulus

/-- No two searches of one job are given a common nonce. -/
def NeverTwice (cfg : MinerConfig) (g : Ledger) : Prop :=
  g.handed.Pairwise fun a b => a.job_id = b.job_id → a.job_id ≠ [] →
    Disjoint (a.nonces (nonceRange cfg)) (b.nonces (nonceRange cfg))

/-- A reservation is made with the job the counter was last restarted for and stays within the
nonces that follow the restart; no search starts without one; and the counter is restarted once for
a job. -/
def InEpoch (cfg : MinerConfig) (s : AbstractMinerImpl) (g : Ledger) : Event → Prop
  | .main =>
    (pendingRestart s).isSome → s.m_currentJob.job_id = [] ∨ s.m_currentJob.job_id ∉ g.restarts
  | .loop id inp =>
    match action cfg s id inp with
    | .reserve false amount =>
      g.restarts.head? = some (s.loop id).job.job_id ∧
        g.travelled + NonceCtl.advance s.nonceCtl.m_nonce amount ≤ nonceRange cfg
    | .unreserved false _ _ => False
    | _ => True
  | _ => True

instance (cfg : MinerConfig) (s : AbstractMinerImpl) (g : Ledger) (e : Event) :
    Decidable (InEpoch cfg s g e) := by
  unfold InEpoch
  split
  · infer_instance
  · split <;> infer_instance
  · infer_instance

def AtPlaces (size : Nat) (space : NonceSpace) (place : Nat) (r : Handed) : Prop :=
  r.nonces size = nonceAt space '' Set.Ico place (place + r.reserve)

structure Inv (cfg : MinerConfig) (s : AbstractMinerImpl) (g : Ledger) : Prop where
  counter : s.nonceCtl.m_nonce = (g.space.start + g.travelled) % nonceModulus
  space : g.restarts ≠ [] → g.space.size = nonceRange cfg
  travelled : g.travelled ≤ nonceRange cfg
  known : ∀ r ∈ g.handed, r.job_id ∈ g.restarts
  epoch : ∀ r ∈ g.handed, r.job_id ≠ [] → g.restarts.head? = some r.job_id →
    ∃ place, place + r.reserve ≤ g.travelled ∧ AtPlaces (nonceRange cfg) g.space place r
  once : NeverTwice cfg g

theorem disjoint_of_places {size p q : Nat} {space : NonceSpace} {a b : Handed}
    (hsize : space.size = size) (ha : AtPlaces size space p a) (hb : AtPlaces size space q b)
    (hpq : q + b.reserve ≤ p) (hp : p + a.reserve ≤ size) :
    Disjoint (a.nonces size) (b.nonces size) := by
  rw [ha, hb, disjoint_image_iff (nonceAt_injOn space)]
  · rw [Set.Ico_disjoint_Ico]
    omega
  · intro x hx
    rw [Set.mem_Ico] at hx
    rw [Set.mem_Iio, hsize]
    omega
  · intro x hx
    rw [Set.mem_Ico] at hx
    rw [Set.mem_Iio, hsize]
    omega

theorem atPlaces_nextNonce {size travelled amount : Nat} {space : NonceSpace} {ctl : NonceCtl}
    (job_id : QByteArray) (hsize : space.size = size) (hamount : amount < nonceModulus)
    (hctl : ctl.m_nonce = (space.start + travelled) % nonceModulus) :
    AtPlaces size space (travelled + (NonceCtl.advance ctl.m_nonce amount - amount))
      ⟨job_id, amount, (ctl.nextNonce amount).2⟩ := by
  have hlt : ctl.m_nonce < nonceModulus := hctl ▸ Nat.mod_lt _ (by decide)
  have hle := NonceCtl.le_newNonce hlt hamount
  have hfirst := NonceCtl.newNonce_sub hlt hamount
  have hnew := NonceCtl.newNonce_lt hlt hamount
  rw [hctl, Nat.mod_add_mod, ← hctl, Nat.add_assoc] at hfirst
  have hnonce : ∀ k < amount, nonceAt space
      (travelled + (NonceCtl.advance ctl.m_nonce amount - amount) + k) =
        (NonceCtl.newNonce ctl.m_nonce amount - amount + k) % size := by
    intro k hk
    rw [nonceAt, hsize, ← Nat.add_assoc, ← Nat.mod_add_mod, ← hfirst,
      Nat.mod_eq_of_lt (a := _ + k) (by omega)]
  ext x
  simp only [Handed.nonces, NonceCtl.nextNonce, Set.mem_image, Set.mem_Ico]
  constructor
  · rintro ⟨n, hn, rfl⟩
    refine ⟨travelled + (NonceCtl.advance ctl.m_nonce amount - amount) +
      (n - (NonceCtl.newNonce ctl.m_nonce amount - amount)), by omega, ?_⟩
    rw [hnonce _ (by omega), Nat.add_sub_cancel' hn.1]
  · rintro ⟨place, hplace, rfl⟩
    refine ⟨NonceCtl.newNonce ctl.m_nonce amount - amount +
      (place - (travelled + (NonceCtl.advance ctl.m_nonce amount - amount))), by omega, ?_⟩
    rw [← hnonce _ (by omega), Nat.add_sub_cancel' hplace.1]

section Steps
variable {cfg : MinerConfig} {s t : AbstractMinerImpl} {g : Ledger}

theorem Inv.keep (hs : Inv cfg s g) (hctl : t.nonceCtl.m_nonce = s.nonceCtl.m_nonce) :
    Inv cfg t g :=
  ⟨hctl.trans hs.counter, hs.space, hs.travelled, hs.known, hs.epoch, hs.once⟩

theorem restart_inv {random : Nat} (hs : Inv cfg s g)
    (hfresh : s.m_currentJob.job_id = [] ∨ s.m_currentJob.job_id ∉ g.restarts)
    (hctl : t.nonceCtl =
      s.nonceCtl.restart (if cfg.m_startNonceIsRandom then some random else none)) :
    Inv cfg t { g with
      restarts := s.m_currentJob.job_id :: g.restarts
      space := if cfg.m_startNonceIsRandom then .ethereum random else .cryptonote
      travelled := 0 } := by
  refine ⟨?_, fun _ => ?_, Nat.zero_le _, ?_, ?_, hs.once⟩
  · rw [hctl]
    cases cfg.m_startNonceIsRandom <;> simp [NonceCtl.restart, NonceSpace.start]
  · unfold nonceRange
    cases cfg.m_startNonceIsRandom <;> rfl
  · intro r hr
    exact List.mem_cons_of_mem _ (hs.known r hr)
  · intro r hr hne hid
    have hid : s.m_currentJob.job_id = r.job_id := Option.some.inj hid
    rcases hfresh with h | h
    · exact absurd (hid ▸ h) hne
    · exact absurd (hid ▸ hs.known r hr) h

theorem reserve_inv {amount : Nat} {job_id : QByteArray} (hs : Inv cfg s g)
    (hamount : amount < nonceModulus) (hid : g.restarts.head? = some job_id)
    (hrange : g.travelled + NonceCtl.advance s.nonceCtl.m_nonce amount ≤ nonceRange cfg)
    (hctl : t.nonceCtl = (s.nonceCtl.nextNonce amount).1) :
    Inv cfg t { g with
      travelled := g.travelled + NonceCtl.advance s.nonceCtl.m_nonce amount
      handed := ⟨job_id, amount, (s.nonceCtl.nextNonce amount).2⟩ :: g.handed } := by
  have hne : g.restarts ≠ [] := by
    rintro h
    simp [h] at hid
  have hadv := NonceCtl.le_advance s.nonceCtl.m_nonce amount
  have hlt : s.nonceCtl.m_nonce < nonceModulus := hs.counter ▸ Nat.mod_lt _ (by decide)
  have hplaces := atPlaces_nextNonce job_id (hs.space hne) hamount hs.counter
  refine ⟨?_, hs.space, hrange, ?_, ?_, ?_⟩
  · rw [hctl]
    show NonceCtl.newNonce s.nonceCtl.m_nonce amount = _
    rw [NonceCtl.newNonce_eq hlt hamount, hs.counter, Nat.mod_add_mod, Nat.add_assoc]
  · intro r hr
    rcases List.mem_cons.mp hr with rfl | hr
    · exact List.mem_of_mem_head? hid
    · exact hs.known r hr
  · intro r hr hrne hrid
    rcases List.mem_cons.mp hr with rfl | hr
    · exact ⟨_, by simp only; omega, hplaces⟩
    · obtain ⟨place, hle, hat⟩ := hs.epoch r hr hrne hrid
      exact ⟨place, by simp only; omega, hat⟩
  · refine List.pairwise_cons.mpr ⟨fun r hr heq hjob => ?_, hs.once⟩
    simp only at heq hjob
    obtain ⟨place, hle, hat⟩ := hs.epoch r hr (heq ▸ hjob) (heq ▸ hid)
    exact disjoint_of_places (hs.space hne) hplaces hat (by omega) (by simp only; omega)

theorem runOp_nonceCtl {op : Op} : (s.runOp op).nonceCtl = s.nonceCtl := by
  cases op with
  | checkMining id | checkUpdateJob id | checkFeeJob id | checkStopping id =>
    simp only [runOp]
    split <;> rfl
  | _ => rfl

theorem runTask_nonce {task : Task} (htask : ∀ random, task ≠ .restart random)
    (ht : s.runTask cfg task = some t) : t.nonceCtl.m_nonce = s.nonceCtl.m_nonce := by
  have hthread : ∀ id, (s.restartThread id).nonceCtl = s.nonceCtl := by
    intro id
    rw [restartThread]
    split <;> rfl
  cases task with
  | restart random => exact absurd rfl (htask random)
  | startCpu j =>
    cases ht
    exact congrArg NonceCtl.m_nonce (hthread _)
  | startGpu j =>
    simp only [runTask] at ht
    split at ht <;> cases ht
    · rfl
    · exact congrArg NonceCtl.m_nonce (hthread _)
  | checkRunning id =>
    cases id <;> simp only [runTask] at ht <;> split at ht <;> cases ht <;> rfl
  | setThread j | stopGpu j | wait j | checkGpuThread j | updateJob id =>
    simp only [runTask] at ht
    split at ht <;> cases ht <;> rfl
  | _ =>
    cases ht
    rfl

theorem runMain_nonce (ht : s.runMain cfg = some t) :
    match pendingRestart s with
    | some random => t.nonceCtl =
        s.nonceCtl.restart (if cfg.m_startNonceIsRandom then some random else none)
    | none => t.nonceCtl.m_nonce = s.nonceCtl.m_nonce := by
  rcases runMain_eq_some ht with ⟨op, ops, hops, rfl⟩ | ⟨task, tasks, hops, htasks, ht⟩
  · simp only [pendingRestart, hops]
    exact congrArg NonceCtl.m_nonce runOp_nonceCtl
  · simp only [pendingRestart, hops, htasks]
    split
    case h_1 heq =>
      split at heq
      case h_1 hcons =>
        cases hcons
        cases heq
        cases ht
        rfl
      case h_2 => cases heq
    case h_2 heq =>
      have htask : ∀ random, task ≠ .restart random := by
        rintro random rfl
        cases heq
      exact (runTask_nonce htask ht).trans rfl

theorem runMain_inv (hs : Inv cfg s g) (he : InEpoch cfg s g .main)
    (ht : s.runMain cfg = some t) : Inv cfg t (noteNonces cfg s .main g) := by
  have hctl := runMain_nonce ht
  simp only [noteNonces]
  cases hr : pendingRestart s with
  | some random =>
    simp only [hr] at hctl
    exact restart_inv hs (he (by rw [hr]; rfl)) hctl
  | none =>
    simp only [hr] at hctl
    exact hs.keep hctl

theorem runLoop_inv {id : WorkerId} {inp : Input} (hs : Inv cfg s g)
    (he : InEpoch cfg s g (.loop id inp)) (ht : s.runLoop cfg inp id = some t) :
    Inv cfg t (noteNonces cfg s (.loop id inp) g) := by
  obtain ⟨r, hr, hstep⟩ := runLoop_cases ht
  have haction : action cfg s id inp = r.action := by rw [action, hr]
  have hfits := Loop.step_fits hr
  simp only [InEpoch, noteNonces, haction] at he ⊢
  cases hact : r.action with
  | reserve fee amount =>
    cases fee with
    | false =>
      simp only [hact] at he
      refine reserve_inv hs ?_ he.1 he.2 ?_
      · rwa [hact] at hfits
      · rw [hstep.nonceCtl, hact]
        rfl
    | true =>
      apply hs.keep
      rw [hstep.nonceCtl, hact]
      rfl
  | unreserved fee amount finishNonce =>
    cases fee with
    | false => simp only [hact] at he
    | true =>
      apply hs.keep
      rw [hstep.nonceCtl, hact]
      rfl
  | none | postEvent share =>
    apply hs.keep
    rw [hstep.nonceCtl, hact]
    rfl

theorem step_inv {e : Event} (hs : Inv cfg s g) (he : InEpoch cfg s g e)
    (ht : s.step cfg e = some t) : Inv cfg t (noteNonces cfg s e g) := by
  cases e with
  | main => exact runMain_inv hs he ht
  | loop id inp => exact runLoop_inv hs he ht
  | call c | share =>
    obtain ⟨-, ht⟩ := Option.ite_none_right_eq_some.mp ht
    cases ht
    exact hs.keep rfl
  | exitThread id =>
    obtain ⟨-, ht⟩ := Option.ite_none_right_eq_some.mp ht
    cases ht
    exact hs.keep rfl
  | deliverStart id =>
    obtain ⟨-, ht⟩ := Option.ite_none_left_eq_some.mp ht
    cases id with
    | cpu i =>
      obtain ⟨-, ht⟩ := Option.ite_none_right_eq_some.mp ht
      cases ht
      exact hs.keep rfl
    | gpu i =>
      simp only at ht
      split at ht <;> cases ht <;> exact hs.keep rfl

end Steps

theorem new_inv (cfg : MinerConfig) (gpuMiners : Nat → GpuMiner) :
    Inv cfg (new gpuMiners) .new :=
  ⟨rfl, fun h => absurd rfl h, Nat.zero_le _, by simp [Ledger.new], by simp [Ledger.new], .nil⟩

/-- In every run that reserves only for the job the counter was last restarted for, no nonce is
given to two searches of one job. -/
theorem never_twice_in_epoch {cfg : MinerConfig} {gpuMiners : Nat → GpuMiner} {es : List Event}
    {s : AbstractMinerImpl} {g : Ledger}
    (hrun : exec (watch (step cfg) (noteNonces cfg)) (new gpuMiners, .new) es = some (s, g))
    (hepoch : Along (watch (step cfg) (noteNonces cfg)) (fun p e => InEpoch cfg p.1 p.2 e)
      (new gpuMiners, .new) es) : NeverTwice cfg g := by
  refine (exec_invariant (I := fun p => Inv cfg p.1 p.2) ?_ (new_inv cfg gpuMiners) hepoch hrun).once
  rintro ⟨s, g⟩ e ⟨t, g'⟩ hs he ht
  obtain ⟨hstep, rfl⟩ := watch_eq_some.mp ht
  exact step_inv hs he hstep

def twoWorkers : MinerConfig where
  cpus := 2
  gpus := 0
  backend := ⟨false, cryptonoteSearch id, ⟨id, id, fun _ _ => none, fun _ _ => none⟩⟩
  m_startNonceIsRandom := false

def call (c : Call) (accesses : Nat) : List Event := .call c :: List.replicate accesses .main

def loopSteps (i k : Nat) : List Event := List.replicate k (.loop (.cpu i) ⟨false, .ok, 1, none, 0⟩)

def jobThenWorkers (job : MiningJob) : List Event :=
  call (.updateJob job 0) 5 ++ call (.startCpu 2) 10 ++
    .deliverStart (.cpu 0) :: .deliverStart (.cpu 1) :: (loopSteps 0 7 ++ loopSteps 1 7)

theorem started_workers_never_twice :
    ∃ s g, exec (watch (step twoWorkers) (noteNonces twoWorkers))
        (new fun _ => .ethOcl .new, .new) (jobThenWorkers ⟨[1], [], []⟩) = some (s, g) ∧
      g.handed = [⟨[1], 1000000, 2000000⟩, ⟨[1], 1000000, 1000000⟩] ∧ NeverTwice twoWorkers g := by
  have hmap : (exec (watch (step twoWorkers) (noteNonces twoWorkers))
      (new fun _ => .ethOcl .new, .new) (jobThenWorkers ⟨[1], [], []⟩)).map (fun p => p.2.handed) =
        some [⟨[1], 1000000, 2000000⟩, ⟨[1], 1000000, 1000000⟩] := by decide +kernel
  obtain ⟨⟨s, g⟩, hrun, hp⟩ := Option.map_eq_some_iff.mp hmap
  exact ⟨s, g, hrun, hp, never_twice_in_epoch hrun (by decide +kernel)⟩

/-- The first worker takes the job while it is being delivered to the second one, and reserves
before the counter restarts; the second worker reserves after. -/
def earlyPickup (job : MiningJob) : List Event :=
  call (.startCpu 2) 10 ++ .deliverStart (.cpu 0) :: .deliverStart (.cpu 1) ::
    (loopSteps 0 1 ++ loopSteps 1 1) ++ call (.updateJob job 0) 5 ++ loopSteps 0 6 ++
      List.replicate 4 .main ++ loopSteps 1 6

/-- A worker that picks the job up before the restart gets the range that the next one gets after
it, however few nonces are reserved. -/
theorem early_pickup_handed_twice :
    ¬ ∀ (cfg : MinerConfig) (gpuMiners : Nat → GpuMiner) (es : List Event) (s : AbstractMinerImpl)
      (g : Ledger),
      exec (watch (step cfg) (noteNonces cfg)) (new gpuMiners, .new) es = some (s, g) →
        (g.handed.map Handed.reserve).sum < nonceRange cfg → NeverTwice cfg g := by
  intro h
  have hmap : (exec (watch (step twoWorkers) (noteNonces twoWorkers))
      (new fun _ => .ethOcl .new, .new) (earlyPickup ⟨[1], [], []⟩)).map (fun p => p.2.handed) =
        some [⟨[1], 1000000, 1000000⟩, ⟨[1], 1000000, 1000000⟩] := by decide +kernel
  obtain ⟨⟨s, g⟩, hrun, hp⟩ := Option.map_eq_some_iff.mp hmap
  have hhanded : g.handed = [⟨[1], 1000000, 1000000⟩, ⟨[1], 1000000, 1000000⟩] := hp
  have hnever := h _ _ _ s g hrun (by rw [hhanded]; decide)
  rw [NeverTwice, hhanded] at hnever
  have hdisj := (List.pairwise_cons.mp hnever).1 _ List.mem_cons_self rfl (by decide)
  have hzero : 0 ∈ Handed.nonces (nonceRange twoWorkers) ⟨[1], 1000000, 1000000⟩ :=
    ⟨0, by decide, by decide⟩
  exact Set.disjoint_left.mp hdisj hzero hzero

end JobSwitch
end MinerGate
