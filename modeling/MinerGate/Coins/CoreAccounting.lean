import Mathlib.Algebra.Order.BigOperators.Group.Finset
import MinerGate.Coins.MergedMining
import MinerGate.Lib.Transition

/-!
# The cores in use

`msUsedCores` follows the CPU states of the coins through the states that `setCpuState` tells apart.
The check for merged mining takes a coin out of the state `Running` without subtracting its
cores, when the coin has been told to stop and the signal of its engine is still on its way.
-/

namespace MinerGate

set_option autoImplicit false

open Transition Settling

namespace CoinManager

inductive Op where
  | startCpu (key : QString)
  | stopCpu (key : QString) (sync : Bool)
  | setCpuCores (key : QString) (cores : UInt32)
  | cpuStateChanged (key : QString) (state : MinerImplState)
  | setPreparingError (key : QString)
  | stateChanged (key : QString)
  | setMergedMining (key target : QString)
  | setGpuRunning (key : QString) (on : Bool)
deriving DecidableEq, Repr

def Op.key : Op → QString
  | .startCpu key | .stopCpu key _ | .setCpuCores key _ | .cpuStateChanged key _
  | .setPreparingError key | .stateChanged key | .setMergedMining key _ | .setGpuRunning key _ => key

def check (s : CoinManager) : Option CoinManager :=
  checkMergeMiningInProgress (s.m_miners.length + 1) s

def call (s : CoinManager) (check : CoinManager → Option CoinManager) : Op → Option CoinManager
  | .startCpu key => some (s.startCpu key)
  | .stopCpu key sync => some (s.stopCpu key sync)
  | .setCpuCores key cores => setCpuCores check s key cores
  | .cpuStateChanged key state => cpuStateChanged check s key state
  | .setPreparingError key => setPreparingError check s key
  | .stateChanged key => stateChangedSignal check s key
  | .setMergedMining key target => some (s.set key { s.coin key with mergedMining := target })
  | .setGpuRunning key on => some (s.set key { s.coin key with gpuRunning := on })

/-- A call on one of the coins, a signal that an engine has queued, or a tick of a coin's timer. -/
def step (s : CoinManager) (op : Op) : Option CoinManager :=
  if op.key ∈ s.m_miners then s.call check op else none

def share (c : Coin) : Nat := if c.m_cpuState = .Running then c.cpuCores.toNat else 0

def total (s : CoinManager) : Nat := (s.m_miners.map fun key => share (s.coin key)).sum

structure Initial (s : CoinManager) : Prop where
  stopped : ∀ key ∈ s.m_miners, (s.coin key).m_cpuState = .Stopped
  used : s.msUsedCores = 0
  underflowed : s.underflowed = false

structure Accounted (s : CoinManager) : Prop where
  used : s.msUsedCores.toNat = s.total
  underflowed : s.underflowed = false

/-- What the call writes itself, without the check that follows it. -/
def written (s : CoinManager) (op : Op) : Option CoinManager := s.call some op

/-- The call makes the manager check the coins: it does not come to its end when the check
does not. -/
def Signals (s : CoinManager) (op : Op) : Prop := s.call (fun _ => none) op = none

/-- A coin in the state `Running` that a miner carries mines itself, as its settings say. -/
def Spared (s : CoinManager) : Prop :=
  ∀ key ∈ s.m_miners, (s.coin key).m_cpuState = .Running → s.MergedBy s.m_miners key → s.Mining key

/-- The call has the coins checked only while no coin that is told to stop is still in the state
`Running` and carried by a miner, and the cores in use are as few as the counter can hold. -/
def Guard (s : CoinManager) (op : Op) : Prop :=
  ∀ u ∈ s.written op, (s.Signals op → u.Spared) ∧ u.total < 4294967296

instance (s : CoinManager) (op : Op) : Decidable (s.Signals op) :=
  inferInstanceAs (Decidable (s.call (fun _ => none) op = none))

instance (s : CoinManager) : Decidable s.Spared :=
  inferInstanceAs (Decidable (∀ key ∈ s.m_miners, _ → _ → _))

instance (s : CoinManager) (op : Op) : Decidable (s.Guard op) :=
  inferInstanceAs (Decidable (∀ u ∈ s.written op, _))

variable {s t u : CoinManager} {key : QString} {c : Coin} {cores : UInt32} {state : CpuMinerState}
  {op : Op} {ops : List Op}

theorem total_eq_sum : s.total = ∑ key ∈ s.m_miners.toFinset, share (s.coin key) :=
  (List.sum_toFinset _ s.nodup).symm

theorem total_congr (hminers : t.m_miners = s.m_miners)
    (h : ∀ key ∈ s.m_miners, share (t.coin key) = share (s.coin key)) : t.total = s.total := by
  rw [total, total, hminers]
  exact congrArg List.sum (List.map_congr_left h)

theorem total_set (hkey : key ∈ s.m_miners) :
    (s.set key c).total + share (s.coin key) = s.total + share c := by
  have hmem : key ∈ s.m_miners.toFinset := List.mem_toFinset.mpr hkey
  have hothers : ∀ k ∈ s.m_miners.toFinset.erase key,
      share ((s.set key c).coin k) = share (s.coin k) :=
    fun k hk => congrArg share (set_coin_of_ne s c (Finset.ne_of_mem_erase hk))
  rw [total_eq_sum, total_eq_sum, show (s.set key c).m_miners = s.m_miners from rfl,
    ← Finset.add_sum_erase _ _ hmem, ← Finset.add_sum_erase _ (fun k => share (s.coin k)) hmem,
    Finset.sum_congr rfl hothers, set_coin_self]
  omega

theorem Accounted.exchange {old new : UInt32} (hs : s.Accounted) (hkey : key ∈ s.m_miners)
    (hold : share (s.coin key) = old.toNat) (hnew : share c = new.toNat)
    (hbound : (((s.subtractCores old).addCores new).set key c).total < 4294967296) :
    (((s.subtractCores old).addCores new).set key c).Accounted := by
  have htotal := total_set (c := c) hkey
  have hsame : (((s.subtractCores old).addCores new).set key c).total = (s.set key c).total := rfl
  rw [hold, hnew] at htotal
  rw [hsame] at hbound
  have hle : old ≤ s.msUsedCores := by
    have hzero := total_set (c := { s.coin key with m_cpuState := .Stopped }) hkey
    have hshare : share { s.coin key with m_cpuState := .Stopped } = 0 := rfl
    rw [hold, hshare, ← hs.used] at hzero
    rw [UInt32.le_iff_toNat_le]
    omega
  constructor
  · have hused : (((s.subtractCores old).addCores new).set key c).msUsedCores =
        s.msUsedCores - old + new := rfl
    rw [hused, hsame, UInt32.toNat_add, UInt32.toNat_sub_of_le _ _ hle, hs.used]
    rw [UInt32.le_iff_toNat_le, hs.used] at hle
    omega
  · have hnot : ¬ s.msUsedCores < old := UInt32.not_lt.mpr hle
    simp [set, addCores, subtractCores, hs.underflowed, hnot]

theorem addCores_zero : s.addCores 0 = s := by simp [addCores]

theorem subtractCores_zero : s.subtractCores 0 = s := by
  have hnot : ¬ s.msUsedCores < 0 := UInt32.not_lt_zero
  simp [subtractCores, hnot]

theorem Accounted.release {old : UInt32} (hs : s.Accounted) (hkey : key ∈ s.m_miners)
    (hold : share (s.coin key) = old.toNat) (hnew : share c = 0)
    (hbound : ((s.subtractCores old).set key c).total < 4294967296) :
    ((s.subtractCores old).set key c).Accounted := by
  have h : (((s.subtractCores old).addCores 0).set key c).total < 4294967296 →
      (((s.subtractCores old).addCores 0).set key c).Accounted := hs.exchange hkey hold hnew
  rw [addCores_zero] at h
  exact h hbound

theorem Accounted.take {new : UInt32} (hs : s.Accounted) (hkey : key ∈ s.m_miners)
    (hold : share (s.coin key) = 0) (hnew : share c = new.toNat)
    (hbound : ((s.addCores new).set key c).total < 4294967296) :
    ((s.addCores new).set key c).Accounted := by
  have h : (((s.subtractCores 0).addCores new).set key c).total < 4294967296 →
      (((s.subtractCores 0).addCores new).set key c).Accounted := hs.exchange hkey hold hnew
  rw [subtractCores_zero] at h
  exact h hbound

theorem Accounted.keep (hs : s.Accounted) (hkey : key ∈ s.m_miners)
    (hshare : share c = share (s.coin key)) : (s.set key c).Accounted := by
  have htotal := total_set (c := c) hkey
  refine ⟨?_, hs.underflowed⟩
  rw [show (s.set key c).msUsedCores = s.msUsedCores from rfl, hs.used]
  omega

theorem share_running (h : c.m_cpuState = .Running) : share c = c.cpuCores.toNat := if_pos h

theorem share_not_running (h : c.m_cpuState ≠ .Running) : share c = 0 := if_neg h

theorem Accounted.writeCpuState (hs : s.Accounted) (hkey : key ∈ s.m_miners)
    (hstate : state = .Running ∨ state = .Stopped ∨ state = .Error)
    (hbound : (s.writeCpuState key state).total < 4294967296) :
    (s.writeCpuState key state).Accounted := by
  have hdown : ∀ down, down ≠ .Running →
      ((if (s.coin key).m_cpuState = .Running then s.subtractCores (s.coin key).cpuCores else s).set
        key { s.coin key with m_cpuState := down }).total < 4294967296 →
      ((if (s.coin key).m_cpuState = .Running then s.subtractCores (s.coin key).cpuCores else s).set
        key { s.coin key with m_cpuState := down }).Accounted := by
    intro down hdown hbound
    split at hbound
    case isTrue hrun =>
      rw [if_pos hrun]
      exact hs.release hkey (share_running hrun) (share_not_running hdown) hbound
    case isFalse hrun =>
      rw [if_neg hrun]
      exact hs.keep hkey ((share_not_running hdown).trans (share_not_running hrun).symm)
  rcases hstate with rfl | rfl | rfl
  · rw [CoinManager.writeCpuState] at hbound ⊢
    split at hbound
    case isTrue hrun =>
      rw [if_pos hrun]
      exact hs.take hkey (share_not_running hrun) rfl hbound
    case isFalse hrun =>
      rw [if_neg hrun]
      exact hs.keep hkey (by rw [share_running (not_not.mp hrun)]; rfl)
  · exact hdown .Stopped (by decide) hbound
  · exact hdown .Error (by decide) hbound

theorem Accounted.writeCpuCores (hs : s.Accounted) (hkey : key ∈ s.m_miners)
    (hbound : (s.writeCpuCores key cores).total < 4294967296) :
    (s.writeCpuCores key cores).Accounted := by
  rw [CoinManager.writeCpuCores] at hbound ⊢
  split at hbound
  case isTrue hrun =>
    rw [if_pos hrun]
    exact hs.exchange hkey (share_running hrun) (share_running hrun) hbound
  case isFalse hrun =>
    rw [if_neg hrun]
    have hshare : share { s.coin key with cpuCores := cores } = 0 := share_not_running hrun
    exact hs.keep hkey (hshare.trans (share_not_running hrun).symm)

theorem goalCpu_running (h : s.goalCpu key = .Running) : (s.coin key).m_cpuState = .Running := by
  have hcpu : s.cpu key = (s.coin key).m_cpuState := rfl
  rw [goalCpu] at h
  split_ifs at h <;> simp_all

theorem share_settle (hspared : s.Spared) (hkey : key ∈ s.m_miners) :
    share (s.settle.coin key) = share (s.coin key) := by
  have hcores : (s.settle.coin key).cpuCores = (s.coin key).cpuCores := rfl
  have hstate : (s.settle.coin key).m_cpuState = .Running ↔ (s.coin key).m_cpuState = .Running := by
    rw [show (s.settle.coin key).m_cpuState = s.goalCpu key from rfl, goalCpu, if_pos hkey, cpu]
    by_cases hrun : (s.coin key).m_cpuState = .Running
    · by_cases hby : s.MergedBy s.m_miners key
      · rw [if_pos hby, if_pos (hspared key hkey hrun hby)]
      · simp [hby, hrun]
    · split_ifs <;> simp [hrun]
  simp only [share, hstate, hcores]

/-- The check leaves the cores in use as they are counted when it takes no coin out of `Running`. -/
theorem Accounted.settle (hs : s.Accounted) (hspared : s.Spared) : s.settle.Accounted := by
  refine ⟨?_, hs.underflowed⟩
  rw [total_congr (s := s) (t := s.settle) rfl fun key hkey => share_settle hspared hkey]
  exact hs.used

/-- A check that takes a coin out of `Running` loses its cores. -/
theorem settle_accounted_iff (hs : s.Accounted)
    (hcores : ∀ key ∈ s.m_miners, 0 < (s.coin key).cpuCores) :
    s.settle.Accounted ↔ s.Spared := by
  refine ⟨fun hsettle => ?_, hs.settle⟩
  intro key hkey hrun hby
  by_contra hmines
  have hle : ∀ k ∈ s.m_miners.toFinset, share (s.settle.coin k) ≤ share (s.coin k) := by
    intro k hk
    rw [share]
    split
    case isTrue hgoal =>
      rw [share_running (goalCpu_running hgoal)]
      exact le_rfl
    case isFalse => exact Nat.zero_le _
  have hlt : share (s.settle.coin key) < share (s.coin key) := by
    rw [share_running hrun, share_not_running]
    · exact UInt32.lt_iff_toNat_lt.mp (hcores key hkey)
    · rw [show (s.settle.coin key).m_cpuState = s.goalCpu key from rfl,
        goalCpu_merged hkey hby hmines]
      decide
  have htotal : s.settle.total < s.total := by
    rw [total_eq_sum, total_eq_sum]
    exact Finset.sum_lt_sum hle ⟨key, List.mem_toFinset.mpr hkey, hlt⟩
  rw [← hs.used, ← hsettle.used] at htotal
  exact Nat.lt_irrefl _ htotal

theorem Accounted.stateChangedSignal (hs : s.Accounted)
    (hspared : CoinManager.stateChangedSignal (fun _ => none) s key = none → s.Spared)
    (h : CoinManager.stateChangedSignal check s key = some t) : t.Accounted := by
  rw [CoinManager.stateChangedSignal] at h hspared
  split at h
  case isTrue hconnected =>
    rw [if_pos hconnected] at hspared
    rw [eq_settle_of_check (Nat.lt_succ_self _) h]
    exact hs.settle (hspared rfl)
  case isFalse =>
    cases h
    exact hs

theorem Accounted.setCpuState (hs : s.Accounted) (hkey : key ∈ s.m_miners)
    (hstate : state = .Running ∨ state = .Stopped ∨ state = .Error ∨ state = (s.coin key).m_cpuState)
    (hguard : ∀ u, CoinManager.setCpuState some s key state = some u →
      (CoinManager.setCpuState (fun _ => none) s key state = none → u.Spared) ∧
        u.total < 4294967296)
    (h : CoinManager.setCpuState check s key state = some t) : t.Accounted := by
  rw [CoinManager.setCpuState] at h
  simp only [CoinManager.setCpuState] at hguard
  split at h
  case isFalse =>
    cases h
    exact hs
  case isTrue hne =>
    have hstate : state = .Running ∨ state = .Stopped ∨ state = .Error := by
      rcases hstate with h | h | h | h
      · exact Or.inl h
      · exact Or.inr (Or.inl h)
      · exact Or.inr (Or.inr h)
      · exact absurd h.symm hne
    simp only [if_pos hne] at hguard
    have hwritten : CoinManager.stateChangedSignal some (s.writeCpuState key state) key =
        some (s.writeCpuState key state) := by
      rw [CoinManager.stateChangedSignal, ite_self]
    obtain ⟨hspared, hbound⟩ := hguard _ hwritten
    exact (hs.writeCpuState hkey hstate hbound).stateChangedSignal hspared h

theorem failGpus_coin (k : QString) : (s.set key (s.coin key).failGpus).coin k =
    { s.coin k with m_gpuStates := ((s.set key (s.coin key).failGpus).coin k).m_gpuStates } := by
  exact related_set (P := fun c c' => c' = { c with m_gpuStates := c'.m_gpuStates })
    rfl (fun _ => rfl) rfl k

theorem total_failGpus : (s.set key (s.coin key).failGpus).total = s.total := by
  apply total_congr (s := s) (t := s.set key (s.coin key).failGpus) rfl
  intro k _
  rw [failGpus_coin]
  rfl

theorem spared_failGpus (h : (s.set key (s.coin key).failGpus).Spared) : s.Spared := by
  have hcpu : ∀ k, ((s.set key (s.coin key).failGpus).coin k).m_cpuState = (s.coin k).m_cpuState :=
    fun k => by rw [failGpus_coin]
  have hmines : ∀ k, (s.set key (s.coin key).failGpus).Mining k ↔ s.Mining k :=
    fun k => by rw [Mining, Mining, failGpus_coin]
  have htarget : ∀ k, ((s.set key (s.coin key).failGpus).coin k).mergedMining =
      (s.coin k).mergedMining := fun k => by rw [failGpus_coin]
  intro k hk hrun hby
  rw [← hmines]
  refine h k hk (by rw [hcpu, hrun]) ?_
  simp only [MergedBy, hmines, htarget]
  exact hby

theorem Accounted.step (hs : s.Accounted) (hguard : s.Guard op)
    (h : CoinManager.step s op = some t) :
    t.Accounted := by
  obtain ⟨hkey, h⟩ := Option.ite_none_right_eq_some.mp h
  cases op with
  | startCpu key =>
    cases h
    exact hs.keep hkey rfl
  | stopCpu key sync =>
    cases h
    rw [stopCpu]
    split
    · exact hs
    · exact hs.keep hkey rfl
  | setMergedMining key target =>
    cases h
    exact hs.keep hkey rfl
  | setGpuRunning key on =>
    cases h
    exact hs.keep hkey rfl
  | stateChanged key =>
    have hwritten : s.written (.stateChanged key) = some s := by
      rw [written, call, CoinManager.stateChangedSignal, ite_self]
    exact hs.stateChangedSignal (hguard s hwritten).1 h
  | cpuStateChanged key state =>
    refine hs.setCpuState hkey ?_ hguard h
    cases state <;> simp [Op.key]
  | setPreparingError key =>
    have hkey : key ∈ s.m_miners := hkey
    obtain ⟨u, hu, rfl⟩ := Option.map_eq_some_iff.mp h
    have hfailed : u.Accounted := by
      split at hu
      case isFalse =>
        cases hu
        exact hs
      case isTrue hrun =>
        refine hs.setCpuState hkey (by simp) (fun v hv => ?_) hu
        have hwritten : s.written (.setPreparingError key) =
            some (v.set key (v.coin key).failGpus) := by
          rw [written, call, CoinManager.setPreparingError]
          simp only [if_pos hrun, hv, Option.map_some]
        obtain ⟨hspared, hbound⟩ := hguard _ hwritten
        rw [total_failGpus] at hbound
        refine ⟨fun hnone => spared_failGpus (hspared ?_), hbound⟩
        rw [Signals, call, CoinManager.setPreparingError]
        simp only [if_pos hrun, hnone, Option.map_none]
    refine ⟨?_, hfailed.underflowed⟩
    rw [total_failGpus]
    exact hfailed.used
  | setCpuCores key cores =>
    simp only [Guard, written, Signals, call, CoinManager.setCpuCores] at h hguard
    split at h
    case isFalse =>
      cases h
      exact hs
    case isTrue hne =>
      simp only [if_pos hne] at hguard
      have hwritten : CoinManager.stateChangedSignal some (s.writeCpuCores key cores) key =
          some (s.writeCpuCores key cores) := by
        rw [CoinManager.stateChangedSignal, ite_self]
      obtain ⟨hspared, hbound⟩ := hguard _ hwritten
      exact (hs.writeCpuCores hkey hbound).stateChangedSignal hspared h

theorem Initial.accounted (h : s.Initial) : s.Accounted := by
  refine ⟨?_, h.underflowed⟩
  have hzero : s.total = 0 := by
    rw [total_eq_sum]
    apply Finset.sum_eq_zero
    intro key hkey
    apply share_not_running
    rw [h.stopped key (List.mem_toFinset.mp hkey)]
    decide
  rw [h.used, hzero]
  rfl

/-- In a run whose steps all meet the guard the counter is the number of cores in use in every
state. -/
theorem cores_accounted (h0 : s.Initial) (hguard : Along CoinManager.step Guard s ops)
    (hrun : exec CoinManager.step s ops = some t) : t.Accounted :=
  exec_invariant (fun _ _ _ hI hC h => hI.step hC h) h0.accounted hguard hrun

/-- The second coin is told to stop and still runs when the first one ticks. -/
def stoppedTooEarly : List Op :=
  [.startCpu ['a'], .cpuStateChanged ['a'] .Running, .startCpu ['b'],
    .cpuStateChanged ['b'] .Running,
    .stopCpu ['b'] false, .stateChanged ['a']]

def idle : CoinManager :=
  { carrying with
    coin := fun key => ⟨.Stopped, [], 1, false, false, if key = ['a'] then ['b'] else [], true⟩ }

theorem idle_initial : idle.Initial := ⟨by decide, rfl, rfl⟩

theorem cores_accounted_started :
    ∃ t, exec CoinManager.step idle (stoppedTooEarly.take 4) = some t ∧ t.Accounted := by
  have hrun : (exec CoinManager.step idle (stoppedTooEarly.take 4)).isSome = true := by
    decide +kernel
  obtain ⟨t, ht⟩ := Option.isSome_iff_exists.mp hrun
  exact ⟨t, ht, cores_accounted idle_initial (by decide +kernel) ht⟩

theorem cores_lost :
    ¬ ∀ (s : CoinManager) (ops : List Op) (t : CoinManager), s.Initial →
      exec CoinManager.step s ops = some t → t.Accounted := by
  intro h
  have hrun : (exec CoinManager.step idle stoppedTooEarly).map
      (fun t => (t.msUsedCores.toNat, t.total)) = some (2, 1) := by decide +kernel
  obtain ⟨t, ht, heq⟩ := Option.map_eq_some_iff.mp hrun
  have hused := (h idle stoppedTooEarly t idle_initial ht).used
  simp only [Prod.mk.injEq] at heq
  rw [heq.1, heq.2] at hused
  cases hused

end CoinManager
end MinerGate
