import MinerGate.Coins.CoinManager

/-!
# The check for merged mining

The check brings every coin to a state that only depends on which coins mine and whose merged mining
they carry, which it does not change itself. Each CPU state that it sets brings one coin there, so
that the runs inside each other end; a run inside another one leaves nothing to do for it.
-/

namespace MinerGate

set_option autoImplicit false

open Settling

namespace CoinManager

def cpu (s : CoinManager) (key : QString) : CpuMinerState := (s.coin key).m_cpuState

def gpu (s : CoinManager) (key : QString) : List (QString × GpuState) := (s.coin key).m_gpuStates

/-- The CPU state that the check leaves the coin with. -/
def goalCpu (s : CoinManager) (key : QString) : CpuMinerState :=
  if key ∈ s.m_miners then
    if s.MergedBy s.m_miners key then
      if s.Mining key then s.cpu key else .MergedMining
    else if s.cpu key = .MergedMining then .Stopped else s.cpu key
  else s.cpu key

def goalGpu (s : CoinManager) (key : QString) : List (QString × GpuState) :=
  if key ∈ s.m_miners then
    if s.MergedBy s.m_miners key then
      if s.Mining key then s.gpu key else Coin.mergeGpus (s.gpu key)
    else Coin.unmergeGpus (s.gpu key)
  else s.gpu key

def settle (s : CoinManager) : CoinManager :=
  { s with coin := fun key =>
      { s.coin key with m_cpuState := s.goalCpu key, m_gpuStates := s.goalGpu key } }

/-- The state is one on the way to what the check makes of `s`. -/
structure Between (s t : CoinManager) : Prop where
  miners : t.m_miners = s.m_miners
  used : t.msUsedCores = s.msUsedCores
  underflowed : t.underflowed = s.underflowed
  settings : ∀ key, t.coin key =
    { s.coin key with m_cpuState := t.cpu key, m_gpuStates := t.gpu key }
  cpu : Toward s.goalCpu s.cpu t.cpu
  gpu : Toward s.goalGpu s.gpu t.gpu

variable {s t u : CoinManager} {key miner : QString} {miners : List QString}
  {state : CpuMinerState} {check : CoinManager → Option CoinManager} {n : Nat}

theorem Between.refl : s.Between s := ⟨rfl, rfl, rfl, fun _ => rfl, Toward.refl, Toward.refl⟩

theorem Between.cpuRunning (h : s.Between t) :
    (t.coin key).cpuRunning = (s.coin key).cpuRunning := by
  rw [h.settings]

theorem Between.gpuRunning (h : s.Between t) :
    (t.coin key).gpuRunning = (s.coin key).gpuRunning := by
  rw [h.settings]

theorem Between.mergedMining (h : s.Between t) :
    (t.coin key).mergedMining = (s.coin key).mergedMining := by
  rw [h.settings]

theorem Between.mining_iff (h : s.Between t) : t.Mining key ↔ s.Mining key := by
  rw [Mining, Mining, h.cpuRunning, h.gpuRunning]

theorem Between.mergedBy_iff (h : s.Between t) : t.MergedBy miners key ↔ s.MergedBy miners key := by
  simp only [MergedBy, h.mining_iff, h.mergedMining]

theorem Between.mem_iff (h : s.Between t) : key ∈ t.m_miners ↔ key ∈ s.m_miners := by
  rw [h.miners]

theorem Between.carried_iff (h : s.Between t) :
    t.MergedBy t.m_miners key ↔ s.MergedBy s.m_miners key := by
  rw [h.mergedBy_iff, h.miners]

theorem Between.targetsExist (h : s.Between t) (hs : s.TargetsExist) : t.TargetsExist := by
  intro key hkey
  rw [h.mergedMining, h.miners, h.mining_iff]
  rw [h.miners] at hkey
  exact hs key hkey

theorem mergeGpus_mergeGpus (states : List (QString × GpuState)) :
    Coin.mergeGpus (Coin.mergeGpus states) = Coin.mergeGpus states := by
  rw [Coin.mergeGpus, Coin.mergeGpus, List.map_map]
  apply List.map_congr_left
  rintro ⟨device, state⟩ -
  cases state <;> rfl

theorem unmergeGpus_unmergeGpus (states : List (QString × GpuState)) :
    Coin.unmergeGpus (Coin.unmergeGpus states) = Coin.unmergeGpus states := by
  rw [Coin.unmergeGpus, Coin.unmergeGpus, List.map_map]
  apply List.map_congr_left
  rintro ⟨device, state⟩ -
  cases state <;> rfl

theorem Between.goalCpu_eq (h : s.Between t) : t.goalCpu = s.goalCpu := by
  funext key
  have hcpu := h.cpu key
  simp only [goalCpu, h.miners, h.mergedBy_iff, h.mining_iff] at hcpu ⊢
  rcases hcpu with hcpu | hcpu
  · rw [hcpu]
  · rw [hcpu]
    split_ifs <;> simp_all

theorem Between.goalGpu_eq (h : s.Between t) : t.goalGpu = s.goalGpu := by
  funext key
  have hgpu := h.gpu key
  simp only [goalGpu, h.miners, h.mergedBy_iff, h.mining_iff] at hgpu ⊢
  rcases hgpu with hgpu | hgpu
  · rw [hgpu]
  · rw [hgpu]
    split_ifs <;> simp [mergeGpus_mergeGpus, unmergeGpus_unmergeGpus]

theorem Between.trans (hst : s.Between t) (htu : t.Between u) : s.Between u where
  miners := htu.miners.trans hst.miners
  used := htu.used.trans hst.used
  underflowed := htu.underflowed.trans hst.underflowed
  settings key := by rw [htu.settings, hst.settings]
  cpu := hst.cpu.trans (hst.goalCpu_eq ▸ htu.cpu)
  gpu := hst.gpu.trans (hst.goalGpu_eq ▸ htu.gpu)

theorem between_settle : s.Between s.settle :=
  ⟨rfl, rfl, rfl, fun _ => rfl, toward_goal, toward_goal⟩

theorem Between.eq_settle (h : s.Between t) (hcpu : ∀ key, t.cpu key = s.goalCpu key)
    (hgpu : ∀ key, t.gpu key = s.goalGpu key) : t = s.settle := by
  refine CoinManager.ext ?_ ?_ ?_ ?_
  · exact h.miners
  · funext key
    rw [h.settings, hcpu, hgpu]
    rfl
  · exact h.used
  · exact h.underflowed

def wrong (s : CoinManager) : Nat := unsettled s.m_miners.toFinset s.goalCpu s.cpu

theorem wrong_le_length : s.wrong ≤ s.m_miners.length :=
  le_trans unsettled_le_card (List.toFinset_card_le _)

theorem Between.wrong_le (h : s.Between t) : t.wrong ≤ s.wrong := by
  rw [wrong, wrong, h.goalCpu_eq, h.miners]
  exact h.cpu.unsettled_le

def setCpu (s : CoinManager) (key : QString) (state : CpuMinerState) : CoinManager :=
  s.set key { s.coin key with m_cpuState := state }

theorem between_set {c : Coin} (hc : c = { s.coin key with
      m_cpuState := c.m_cpuState, m_gpuStates := c.m_gpuStates })
    (hcpu : c.m_cpuState = s.cpu key ∨ c.m_cpuState = s.goalCpu key)
    (hgpu : c.m_gpuStates = s.gpu key ∨ c.m_gpuStates = s.goalGpu key) :
    s.Between (s.set key c) := by
  refine ⟨rfl, rfl, rfl, fun k => ?_, fun k => ?_, fun k => ?_⟩
  · exact related_set (P := fun c c' => c' = { c with
      m_cpuState := c'.m_cpuState, m_gpuStates := c'.m_gpuStates }) rfl (fun _ => rfl) hc k
  · by_cases hk : k = key
    · subst hk
      rw [cpu, set_coin_self]
      exact hcpu
    · rw [cpu, set_coin_of_ne s c hk]
      exact Or.inl rfl
  · by_cases hk : k = key
    · subst hk
      rw [gpu, set_coin_self]
      exact hgpu
    · rw [gpu, set_coin_of_ne s c hk]
      exact Or.inl rfl

theorem writeCpuState_eq (h : state = .MergedMining ∨ state = .Stopped ∧ s.cpu key = .MergedMining) :
    s.writeCpuState key state = s.setCpu key state := by
  rcases h with rfl | ⟨rfl, hcpu⟩
  · rfl
  · have hne : (s.coin key).m_cpuState ≠ .Running := by
      rw [show (s.coin key).m_cpuState = .MergedMining from hcpu]
      decide
    simp only [writeCpuState, setCpu, if_neg hne]

theorem between_setCpu (hstate : state = s.goalCpu key) : s.Between (s.setCpu key state) :=
  between_set rfl (Or.inr hstate) (Or.inl rfl)

/-- The check settles all states on the way from `s` with fewer than `n` coins to set. -/
def Settles (s : CoinManager) (n : Nat) (check : CoinManager → Option CoinManager) : Prop :=
  ∀ t, s.Between t → t.wrong < n → check t = some t.settle

/-- Setting a coin's CPU state to its goal, with all that follows from it, stays on the way. -/
theorem setCpuState_between (hcheck : s.Settles n check) (ht : s.Between t) (hn : t.wrong ≤ n)
    (hkey : key ∈ s.m_miners) (hstate : state = s.goalCpu key)
    (h : state = .MergedMining ∨ state = .Stopped ∧ t.cpu key = .MergedMining) :
    ∃ u, setCpuState check t key state = some u ∧ t.Between u ∧ u.cpu key = state := by
  rw [setCpuState]
  by_cases hne : (t.coin key).m_cpuState ≠ state
  · rw [if_pos hne, writeCpuState_eq h, stateChangedSignal]
    have hgoal : state = t.goalCpu key := by rw [hstate, ht.goalCpu_eq]
    have hset : t.Between (t.setCpu key state) := between_setCpu hgoal
    have hself : (t.setCpu key state).cpu key = state := by
      simp [cpu, setCpu]
    split
    case isTrue =>
      have hlt : (t.setCpu key state).wrong < t.wrong := by
        rw [wrong, wrong, hset.goalCpu_eq, hset.miners]
        refine hset.cpu.unsettled_lt (k := key) ?_ ?_ ?_
        · rw [List.mem_toFinset, ht.miners]
          exact hkey
        · rw [← hgoal]
          exact hne
        · rw [hself, hgoal]
      refine ⟨_, hcheck _ (ht.trans hset) (lt_of_lt_of_le hlt hn), hset.trans between_settle, ?_⟩
      rw [show (t.setCpu key state).settle.cpu key = (t.setCpu key state).goalCpu key from rfl,
        hset.goalCpu_eq, hgoal]
    case isFalse => exact ⟨_, rfl, hset, hself⟩
  · rw [if_neg hne]
    exact ⟨t, rfl, .refl, not_not.mp hne⟩

def Settled (s t : CoinManager) (key : QString) : Prop :=
  t.cpu key = s.goalCpu key ∧ t.gpu key = s.goalGpu key

theorem Settled.mono (h : s.Settled t key) (ht : s.Between t) (hu : t.Between u) :
    s.Settled u key := by
  constructor
  · exact Toward.settled (ht.goalCpu_eq ▸ hu.cpu) h.1
  · exact Toward.settled (ht.goalGpu_eq ▸ hu.gpu) h.2

theorem mergedBy_singleton : s.MergedBy [miner] key ↔
    s.Mining miner ∧ (s.coin miner).mergedMining ≠ [] ∧ (s.coin miner).mergedMining = key := by
  simp [MergedBy]

theorem goalCpu_merged (hkey : key ∈ s.m_miners) (hby : s.MergedBy s.m_miners key)
    (hmines : ¬ s.Mining key) : s.goalCpu key = .MergedMining := by
  rw [goalCpu, if_pos hkey, if_pos hby, if_neg hmines]

theorem goalGpu_merged (hkey : key ∈ s.m_miners) (hby : s.MergedBy s.m_miners key)
    (hmines : ¬ s.Mining key) : s.goalGpu key = Coin.mergeGpus (s.gpu key) := by
  rw [goalGpu, if_pos hkey, if_pos hby, if_neg hmines]

theorem goals_mining (hkey : key ∈ s.m_miners) (hby : s.MergedBy s.m_miners key)
    (hmines : s.Mining key) : s.goalCpu key = s.cpu key ∧ s.goalGpu key = s.gpu key := by
  rw [goalCpu, goalGpu, if_pos hkey, if_pos hkey, if_pos hby, if_pos hby, if_pos hmines,
    if_pos hmines]
  exact ⟨rfl, rfl⟩

theorem goalCpu_not_carried (hkey : key ∈ s.m_miners) (hby : ¬ s.MergedBy s.m_miners key) :
    s.goalCpu key = if s.cpu key = .MergedMining then .Stopped else s.cpu key := by
  rw [goalCpu, if_pos hkey, if_neg hby]

theorem goalGpu_not_carried (hkey : key ∈ s.m_miners) (hby : ¬ s.MergedBy s.m_miners key) :
    s.goalGpu key = Coin.unmergeGpus (s.gpu key) := by
  rw [goalGpu, if_pos hkey, if_neg hby]

theorem between_startGpu (hu : s.Between u) (hkey : key ∈ s.m_miners)
    (hby : s.MergedBy s.m_miners key) (hmines : ¬ s.Mining key) :
    u.Between (u.set key (u.coin key).startGpuMergedMining) ∧
      (u.set key (u.coin key).startGpuMergedMining).gpu key = s.goalGpu key := by
  have hgoal := goalGpu_merged (hu.mem_iff.mpr hkey) (hu.carried_iff.mpr hby)
    fun h => hmines (hu.mining_iff.mp h)
  refine ⟨between_set rfl (Or.inl rfl) (Or.inr hgoal.symm), ?_⟩
  rw [← hu.goalGpu_eq, hgoal]
  simp [gpu, Coin.startGpuMergedMining]

theorem mark_spec (hcheck : s.Settles n check) (ht : s.Between t) (hn : t.wrong ≤ n)
    (hkey : key ∈ s.m_miners) (hby : s.MergedBy s.m_miners key) :
    ∃ u, (if ¬ (t.coin key).cpuRunning ∧ ¬ (t.coin key).gpuRunning then
        (setCpuState check t key .MergedMining).map fun s =>
          s.set key (s.coin key).startGpuMergedMining else some t) = some u ∧
      t.Between u ∧ s.Settled u key := by
  have hmining : (¬ (t.coin key).cpuRunning ∧ ¬ (t.coin key).gpuRunning) ↔ ¬ s.Mining key := by
    rw [← ht.mining_iff, Mining, not_or]
  by_cases hmines : s.Mining key
  · rw [if_neg (fun h => hmining.mp h hmines)]
    obtain ⟨hcpu, hgpu⟩ := goals_mining (ht.mem_iff.mpr hkey) (ht.carried_iff.mpr hby)
      (ht.mining_iff.mpr hmines)
    refine ⟨t, rfl, .refl, ?_, ?_⟩
    · rw [← ht.goalCpu_eq, hcpu]
    · rw [← ht.goalGpu_eq, hgpu]
  · have hgoal := goalCpu_merged hkey hby hmines
    obtain ⟨u, hset, hu, hself⟩ :=
      setCpuState_between hcheck ht hn hkey hgoal.symm (Or.inl rfl)
    obtain ⟨hgpu, hgpuSelf⟩ := between_startGpu (ht.trans hu) hkey hby hmines
    rw [if_pos (hmining.mpr hmines), hset]
    refine ⟨_, rfl, hu.trans hgpu, ?_, hgpuSelf⟩
    rw [hgoal, ← hself]
    simp [cpu, Coin.startGpuMergedMining]

/-- A pass of the first loop brings the coin that the miner carries to its goal, if there is one,
and takes it from the list. -/
theorem markMerged_spec (hcheck : s.Settles n check) (ht : s.Between t) (hn : t.wrong ≤ n)
    (hs : s.TargetsExist) (hminer : miner ∈ s.m_miners) {merged : List QString}
    (hmerged : merged.Nodup) :
    ∃ u, markMerged check (t, merged) miner =
        some (u, merged.filter fun key => ¬ s.MergedBy [miner] key) ∧
      t.Between u ∧ ∀ key, s.MergedBy [miner] key → s.Settled u key := by
  by_cases hcarry : s.Mining miner ∧ (s.coin miner).mergedMining ≠ []
  · obtain ⟨target, htarget⟩ : ∃ target, (s.coin miner).mergedMining = target := ⟨_, rfl⟩
    have hcond : ((t.coin miner).cpuRunning = true ∨ (t.coin miner).gpuRunning = true) ∧
        (t.coin miner).mergedMining ≠ [] := by
      rw [ht.mergedMining]
      exact ⟨ht.mining_iff.mpr hcarry.1, hcarry.2⟩
    have hkey : target ∈ s.m_miners := htarget ▸ hs miner hminer hcarry.1 hcarry.2
    have hby : s.MergedBy s.m_miners target := ⟨miner, hminer, hcarry.1, hcarry.2, htarget⟩
    obtain ⟨u, hmark, hu, hsettled⟩ := mark_spec hcheck ht hn hkey hby
    have herase : merged.erase target = merged.filter fun key => ¬ s.MergedBy [miner] key := by
      rw [hmerged.erase_eq_filter]
      apply List.filter_congr
      intro key _
      have hiff : s.MergedBy [miner] key ↔ key = target := by
        rw [mergedBy_singleton, htarget, eq_comm (a := key)]
        exact ⟨fun h => h.2.2, fun h => ⟨hcarry.1, htarget ▸ hcarry.2, h⟩⟩
      simp [hiff, bne, beq_eq_decide]
    refine ⟨u, ?_, hu, fun key hkey => ?_⟩
    · rw [markMerged]
      simp only [if_pos hcond]
      simp only [ht.mergedMining, htarget, ht.miners, if_pos hkey, hmark, Option.map_some, herase]
    · obtain ⟨-, -, heq⟩ := mergedBy_singleton.mp hkey
      rw [← heq, htarget]
      exact hsettled
  · have hnot : ∀ key, ¬ s.MergedBy [miner] key := by
      intro key h
      obtain ⟨hmining, hne, -⟩ := mergedBy_singleton.mp h
      exact hcarry ⟨hmining, hne⟩
    have hcond : ¬ (((t.coin miner).cpuRunning = true ∨ (t.coin miner).gpuRunning = true) ∧
        (t.coin miner).mergedMining ≠ []) := by
      rw [ht.mergedMining]
      exact fun h => hcarry ⟨ht.mining_iff.mp h.1, h.2⟩
    refine ⟨t, ?_, .refl, fun key h => absurd h (hnot key)⟩
    rw [markMerged]
    simp only [if_neg hcond, hnot, not_false_eq_true, decide_true, List.filter_true]

/-- A pass of the second loop brings its coin to its goal. -/
theorem unmarkMerged_spec (hcheck : s.Settles n check) (ht : s.Between t) (hn : t.wrong ≤ n)
    (hminer : miner ∈ s.m_miners) (hmerged : ¬ s.MergedBy s.m_miners miner) :
    ∃ u, unmarkMerged check t miner = some u ∧ t.Between u ∧ s.Settled u miner := by
  have hgoal : t.goalCpu miner =
      if (t.coin miner).m_cpuState = .MergedMining then .Stopped else (t.coin miner).m_cpuState :=
    goalCpu_not_carried (ht.mem_iff.mpr hminer) fun h => hmerged (ht.carried_iff.mp h)
  have hcpu : ∃ u, (if (t.coin miner).m_cpuState = .MergedMining then
      setCpuState check t miner .Stopped else some t) = some u ∧ t.Between u ∧
        u.cpu miner = t.goalCpu miner := by
    by_cases hmm : (t.coin miner).m_cpuState = .MergedMining
    · rw [if_pos hmm] at hgoal
      obtain ⟨u, hset, hu, hself⟩ := setCpuState_between hcheck ht hn hminer
        (by rw [← ht.goalCpu_eq, hgoal]) (Or.inr ⟨rfl, hmm⟩)
      rw [if_pos hmm]
      exact ⟨u, hset, hu, by rw [hself, hgoal]⟩
    · rw [if_neg hmm] at hgoal
      rw [if_neg hmm]
      exact ⟨t, rfl, .refl, hgoal.symm⟩
  obtain ⟨u, hset, hu, hself⟩ := hcpu
  have hsu := ht.trans hu
  have hgoalGpu : u.goalGpu miner = Coin.unmergeGpus (u.gpu miner) :=
    goalGpu_not_carried (hsu.mem_iff.mpr hminer) fun h => hmerged (hsu.carried_iff.mp h)
  have hgpu : u.Between (u.set miner (u.coin miner).stopGpuMergedMining) :=
    between_set rfl (Or.inl rfl) (Or.inr hgoalGpu.symm)
  refine ⟨u.set miner (u.coin miner).stopGpuMergedMining, ?_, hu.trans hgpu, ?_, ?_⟩
  · rw [unmarkMerged]
    simp only [hset, Option.map_some]
  · rw [← ht.goalCpu_eq, ← hself]
    simp [cpu, Coin.stopGpuMergedMining]
  · rw [← hsu.goalGpu_eq, hgoalGpu]
    simp [gpu, Coin.stopGpuMergedMining]

theorem mergedBy_append {done rest : List QString} :
    s.MergedBy (done ++ rest) key ↔ s.MergedBy done key ∨ s.MergedBy rest key := by
  simp [MergedBy, or_and_right, exists_or]

/-- What the first loop has made of the state and of the list, once it is done with some coins. -/
def FirstLoop (s : CoinManager) (done : List QString) (p : CoinManager × List QString) : Prop :=
  s.Between p.1 ∧ p.2 = s.m_miners.filter (fun key => ¬ s.MergedBy done key) ∧
    ∀ key, s.MergedBy done key → s.Settled p.1 key

theorem first_loop (hcheck : s.Settles n check) (hn : s.wrong ≤ n) (hs : s.TargetsExist) :
    ∃ p, s.m_miners.foldlM (markMerged check) (s, s.m_miners) = some p ∧
      s.FirstLoop s.m_miners p := by
  apply foldlM_invariant
  · rintro done miner ⟨t, merged⟩ ⟨rest, hxs⟩ ⟨ht, rfl, hsettled⟩
    have hminer : miner ∈ s.m_miners := by simp [hxs]
    obtain ⟨u, hmark, hu, hself⟩ := markMerged_spec hcheck ht (le_trans ht.wrong_le hn) hs hminer
      (s.nodup.filter _)
    refine ⟨_, hmark, ht.trans hu, ?_, fun key hkey => ?_⟩
    · rw [List.filter_filter]
      apply List.filter_congr
      intro key _
      simp [mergedBy_append, Bool.and_comm]
    · rcases mergedBy_append.mp hkey with hkey | hkey
      · exact (hsettled key hkey).mono ht hu
      · exact hself key hkey
  · have hnone : ∀ key, ¬ s.MergedBy [] key := fun key => by simp [MergedBy]
    exact ⟨.refl, by simp [hnone], fun key h => absurd h (hnone key)⟩

theorem second_loop (hcheck : s.Settles n check) (hn : s.wrong ≤ n) (ht : s.Between t)
    (hminers : ∀ key ∈ miners, key ∈ s.m_miners ∧ ¬ s.MergedBy s.m_miners key) :
    ∃ u, miners.foldlM (unmarkMerged check) t = some u ∧ t.Between u ∧
      ∀ key ∈ miners, s.Settled u key := by
  refine foldlM_invariant (I := fun done u => t.Between u ∧ ∀ key ∈ done, s.Settled u key) ?_
    ⟨.refl, by simp⟩
  rintro done miner u ⟨rest, hxs⟩ ⟨hu, hsettled⟩
  obtain ⟨hminer, hmerged⟩ := hminers miner (by simp [hxs])
  have hsu := ht.trans hu
  obtain ⟨v, hunmark, hv, hself⟩ :=
    unmarkMerged_spec hcheck hsu (le_trans hsu.wrong_le hn) hminer hmerged
  refine ⟨v, hunmark, hu.trans hv, fun key hkey => ?_⟩
  rcases List.mem_append.mp hkey with hkey | hkey
  · exact (hsettled key hkey).mono hsu hv
  · rw [List.mem_singleton.mp hkey]
    exact hself

/-- One run of the check, with runs inside that settle what they find. -/
theorem checkMergeMining_eq (hcheck : s.Settles n check) (hn : s.wrong ≤ n) (hs : s.TargetsExist) :
    checkMergeMining check s = some s.settle := by
  obtain ⟨⟨t, miners⟩, hfirst, ht, rfl, hmerged⟩ := first_loop hcheck hn hs
  have hleft : ∀ key ∈ s.m_miners.filter (fun key => ¬ s.MergedBy s.m_miners key),
      key ∈ s.m_miners ∧ ¬ s.MergedBy s.m_miners key := fun key hkey => by simpa using hkey
  obtain ⟨u, hsecond, hu, hothers⟩ := second_loop hcheck hn ht hleft
  have hsu := ht.trans hu
  have hsettled : ∀ key, s.Settled u key := by
    intro key
    by_cases hkey : key ∈ s.m_miners
    · by_cases hby : s.MergedBy s.m_miners key
      · exact (hmerged key hby).mono ht hu
      · exact hothers key (by simpa using ⟨hkey, hby⟩)
    · have hcpu := hsu.cpu key
      have hgpu := hsu.gpu key
      rw [goalCpu, if_neg hkey, or_self] at hcpu
      rw [goalGpu, if_neg hkey, or_self] at hgpu
      rw [Settled, goalCpu, if_neg hkey, goalGpu, if_neg hkey]
      exact ⟨hcpu, hgpu⟩
  rw [checkMergeMining, hfirst, Option.bind_some, hsecond]
  exact congrArg some (hsu.eq_settle (fun key => (hsettled key).1) fun key => (hsettled key).2)

theorem checkMergeMiningInProgress_eq (hs : s.TargetsExist) (hn : s.wrong < n) :
    checkMergeMiningInProgress n s = some s.settle := by
  refine fuelled_eq (I := TargetsExist) (μ := wrong) ?_ hs hn
  intro n check hcheck s hs hle
  exact checkMergeMining_eq (fun t ht hlt => hcheck t (ht.targetsExist hs) hlt) hle hs

/-- While the runs inside do not end, `setCpuState` ends only where the manager does not
hear of it. -/
theorem between_of_setCpuState (hcheck : ∀ t, s.Between t → check t = none) (ht : s.Between t)
    (hgoal : CpuMinerState.MergedMining = t.goalCpu key)
    (h : setCpuState check t key .MergedMining = some u) : t.Between u := by
  rw [setCpuState, writeCpuState_eq (Or.inl rfl), stateChangedSignal] at h
  split at h
  case isFalse =>
    cases h
    exact .refl
  case isTrue =>
    split at h
    case isTrue =>
      rw [hcheck _ (ht.trans (between_setCpu hgoal))] at h
      cases h
    case isFalse =>
      cases h
      exact between_setCpu hgoal

/-- While the runs inside do not end, a pass of the first loop that ends has found its target. -/
theorem markMerged_eq_some {p q : CoinManager × List QString}
    (hcheck : ∀ t, s.Between t → check t = none) (hp : s.Between p.1) (hminer : miner ∈ s.m_miners)
    (h : markMerged check p miner = some q) :
    s.Between q.1 ∧ (s.Mining miner → (s.coin miner).mergedMining ≠ [] →
      (s.coin miner).mergedMining ∈ s.m_miners) := by
  rw [markMerged] at h
  simp only at h
  split at h
  case isFalse hcond =>
    cases h
    refine ⟨hp, fun hmining hne => absurd ⟨hp.mining_iff.mpr hmining, ?_⟩ hcond⟩
    rw [hp.mergedMining]
    exact hne
  case isTrue hcond =>
    obtain ⟨hmem, h⟩ := Option.ite_none_right_eq_some.mp h
    rw [hp.mergedMining, hp.miners] at hmem
    obtain ⟨u, hu, rfl⟩ := Option.map_eq_some_iff.mp h
    refine ⟨?_, fun _ _ => hmem⟩
    split at hu
    case isFalse =>
      cases hu
      exact hp
    case isTrue hidle =>
      obtain ⟨target, htarget⟩ : ∃ target, (p.1.coin miner).mergedMining = target := ⟨_, rfl⟩
      rw [htarget] at hidle hu
      have hby : s.MergedBy s.m_miners target := by
        refine ⟨miner, hminer, hp.mining_iff.mp hcond.1, ?_, ?_⟩ <;> rw [← hp.mergedMining]
        · exact hcond.2
        · exact htarget
      have hmines : ¬ s.Mining target := by
        rw [← hp.mining_iff, Mining, not_or]
        exact hidle
      have hkey : target ∈ s.m_miners := by
        rw [← htarget, hp.mergedMining]
        exact hmem
      obtain ⟨v, hv, rfl⟩ := Option.map_eq_some_iff.mp hu
      have hgoal : CpuMinerState.MergedMining = p.1.goalCpu target := by
        rw [hp.goalCpu_eq, goalCpu_merged hkey hby hmines]
      have hsv := hp.trans (between_of_setCpuState hcheck hp hgoal hv)
      rw [htarget]
      exact hsv.trans (between_startGpu hsv hkey hby hmines).1

theorem targetsExist_of_check (h : checkMergeMiningInProgress n s = some t) : s.TargetsExist := by
  induction n generalizing s t with
  | zero => cases h
  | succ n ih =>
    by_contra hs
    have hcheck : ∀ t, s.Between t → checkMergeMiningInProgress n t = none := by
      intro t ht
      rw [Option.eq_none_iff_forall_ne_some]
      intro u hu
      refine hs fun key hkey hmining hne => ?_
      have htargets := ih hu key (ht.miners ▸ hkey) (ht.mining_iff.mpr hmining)
      rw [ht.mergedMining, ht.miners] at htargets
      exact htargets hne
    obtain ⟨p, hfirst, -⟩ := Option.bind_eq_some_iff.mp h
    have htargets := foldlM_eq_some (I := fun p => s.Between p.1)
      (fun p miner q hminer hp h => markMerged_eq_some hcheck hp hminer h) .refl hfirst
    exact hs htargets.2

theorem eq_settle_of_check (hn : s.m_miners.length < n)
    (h : checkMergeMiningInProgress n s = some t) : t = s.settle := by
  have hsettle := checkMergeMiningInProgress_eq (targetsExist_of_check h)
    (lt_of_le_of_lt wrong_le_length hn)
  rw [h] at hsettle
  exact Option.some.inj hsettle

def carrying : CoinManager where
  m_miners := [['a'], ['b']]
  nodup := by decide
  coin key := ⟨.Stopped, [], 1, key = ['a'], false, if key = ['a'] then ['b'] else [], true⟩
  msUsedCores := 0
  underflowed := false

end CoinManager
end MinerGate
