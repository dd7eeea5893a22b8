import MinerGate.Coins.GpuFlags
import MinerGate.Lib.Transition

/-!
# One Ethereum coin at a time

The coins of the Ethereum family share one DAG. A start of `eth` stops `etc` and the other way
round: the coin that is started has to have just this key, the other one is looked up without
regard to case, and the family itself comes from the server.
-/

namespace MinerGate

set_option autoImplicit false

/-- A call for a coin. For a start on GPUs the worker's `init` and `getState` are given as well. -/
inductive StartCall where
  | startCpu (coin : QString)
  | startGpu (coin deviceKey : QString) (opens : QString → Bool)
    (state : QString → MinerThreadState)

namespace StartCall

def coin : StartCall → QString
  | startCpu coin | startGpu coin _ _ _ => coin

variable (coins : CoinSet)

def apply (s : GpuFlags) : StartCall → GpuFlags
  | startCpu coin => s.startCpu coins coin
  | startGpu coin deviceKey opens state => s.startGpu coins coin deviceKey opens state

/-- Only calls for configured coins of the family. -/
def step (s : GpuFlags) (call : StartCall) : Option GpuFlags :=
  if call.coin ∈ coins.m_miners ∧ coins.ethereum call.coin then some (call.apply coins s) else none

end StartCall

namespace GpuFlags

/-- The coin mines on the CPU or on a GPU. -/
def Started (s : GpuFlags) (coin : QString) : Prop :=
  s.cpu coin = true ∨ ∃ key, s.gpu coin key = true

/-- A worker belongs to a miner that exists, and one for a device to a device of that miner. -/
structure Made (coins : CoinSet) (s : GpuFlags) : Prop where
  cpu : ∀ coin, s.cpu coin = true → s.created coin = true
  gpu : ∀ coin key, s.gpu coin key = true → s.created coin = true ∧ key ∈ coins.contexts coin

/-- Nothing is started. -/
def Idle (s : GpuFlags) : Prop := ∀ coin, ¬ s.Started coin

/-- No coin of the family but this one is started. -/
def OnlyOne (coins : CoinSet) (s : GpuFlags) (coin : QString) : Prop :=
  ∀ other ∈ coins.m_miners, coins.ethereum other → other ≠ coin → ¬ s.Started other

end GpuFlags

/-- Two coins of the family can only be `eth` and `etc`, and each is the first one found by its
key. -/
def CoinSet.Paired (coins : CoinSet) : Prop :=
  ∀ coin ∈ coins.m_miners, coins.ethereum coin → ∀ other ∈ coins.m_miners, coins.ethereum other →
    other ≠ coin →
      (coin = "eth".toList ∧ other = "etc".toList ∨ coin = "etc".toList ∧ other = "eth".toList) ∧
        coins.minerByCoinKey other = some other

namespace GpuFlags
variable {coins : CoinSet} {s t : GpuFlags} {coin other deviceKey : QString} {call : StartCall}
  {calls : List StartCall} {sync : Bool}

/-- What a stop does: it starts nothing and makes no miner. -/
structure Stops (s t : GpuFlags) : Prop where
  created : t.created = s.created
  cpu : ∀ coin, t.cpu coin = true → s.cpu coin = true
  gpu : ∀ coin key, t.gpu coin key = true → s.gpu coin key = true

namespace Stops

theorem refl (s : GpuFlags) : Stops s s := ⟨rfl, fun _ h => h, fun _ _ h => h⟩

theorem trans {u : GpuFlags} (h : Stops s t) (h' : Stops t u) : Stops s u where
  created := h'.created.trans h.created
  cpu coin hcpu := h.cpu coin (h'.cpu coin hcpu)
  gpu coin key hgpu := h.gpu coin key (h'.gpu coin key hgpu)

theorem started (h : Stops s t) (hstarted : t.Started coin) : s.Started coin := by
  rcases hstarted with hcpu | ⟨key, hgpu⟩
  · exact Or.inl (h.cpu coin hcpu)
  · exact Or.inr ⟨key, h.gpu coin key hgpu⟩

theorem made (h : Stops s t) (hs : s.Made coins) : t.Made coins where
  cpu coin hcpu := by
    rw [h.created]
    exact hs.cpu coin (h.cpu coin hcpu)
  gpu coin key hgpu := by
    rw [h.created]
    exact hs.gpu coin key (h.gpu coin key hgpu)

end Stops

theorem gpu_stopWorkers {keys : List QString} {key : QString} :
    (s.stopWorkers coin keys).gpu coin key = (s.gpu coin key && !keys.contains key) := by
  simp only [stopWorkers, Function.update_self]

theorem stops_stopCpu (s : GpuFlags) (coin : QString) : Stops s (s.stopCpu coin) := by
  unfold stopCpu
  split
  · refine ⟨rfl, fun c hc => ?_, fun _ _ h => h⟩
    by_cases heq : c = coin
    · rw [heq] at hc
      simp at hc
    · simpa only [Function.update_of_ne heq] using hc
  · exact .refl s

theorem stops_stopGpu (coins : CoinSet) (s : GpuFlags) (coin : QString) (sync : Bool)
    (deviceKey : QString) : Stops s (s.stopGpu coins coin sync deviceKey) := by
  rw [stopGpu, implStopGpu_eq]
  split
  · refine ⟨rfl, fun _ h => h, fun c key hc => ?_⟩
    by_cases heq : c = coin
    · subst heq
      have hold : (s.stopWorkers c (coins.covered c deviceKey)).gpu c key = true := hc
      rw [gpu_stopWorkers, Bool.and_eq_true] at hold
      exact hold.1
    · simpa only [stopWorkers, Function.update_of_ne heq] using hc
  · exact .refl s

theorem stops_stopAll (coins : CoinSet) (s : GpuFlags) (coin : QString) :
    Stops s (s.stopAll coins coin) := by
  simp only [stopAll]
  split
  · exact (stops_stopCpu s coin).trans (stops_stopGpu coins _ coin true [])
  · exact stops_stopCpu s coin

theorem stops_stopOther (coins : CoinSet) (s : GpuFlags) (coin : QString) :
    Stops s (s.stopOther coins coin) := by
  unfold stopOther
  split
  · exact stops_stopAll coins s _
  · exact .refl s

theorem stops_stopHolders (coins : CoinSet) (s : GpuFlags) (devices : List QString) :
    Stops s (devices.foldl (stopHolder coins) s) := by
  induction devices generalizing s with
  | nil => exact .refl s
  | cons device devices ih =>
    have hhead : Stops s (s.stopHolder coins device) := by
      unfold stopHolder
      split
      · exact stops_stopGpu coins s _ true device
      · exact .refl s
    exact hhead.trans (ih _)

/-- A coin that is stopped is started nowhere. -/
theorem not_started_stopAll (h : s.Made coins) (coin : QString) :
    ¬ (s.stopAll coins coin).Started coin := by
  have hcpu : (s.stopCpu coin).cpu coin = false := by
    unfold stopCpu
    split
    case isTrue => exact Function.update_self ..
    case isFalse hnot => exact Bool.eq_false_iff.mpr fun htrue => hnot (h.cpu coin htrue)
  have hmade := (stops_stopCpu s coin).made h
  simp only [stopAll]
  split
  case isTrue =>
    rintro (htrue | ⟨key, htrue⟩)
    · have hle := (stops_stopGpu coins (s.stopCpu coin) coin true []).cpu coin htrue
      rw [hcpu] at hle
      cases hle
    · rw [stopGpu, implStopGpu_eq] at htrue
      split at htrue
      case isTrue =>
        simp only [gpu_stopWorkers, Bool.and_eq_true] at htrue
        have hmem := (hmade.gpu coin key htrue.1).2
        simp [CoinSet.covered, hmem] at htrue
      case isFalse hnot => exact hnot (hmade.gpu coin key htrue).1
  case isFalse hgpu =>
    rintro (htrue | ⟨key, htrue⟩)
    · rw [hcpu] at htrue
      cases htrue
    · have hmem := (hmade.gpu coin key htrue).2
      rw [coins.none_without_gpu coin (Bool.eq_false_iff.mpr hgpu)] at hmem
      cases hmem

theorem made_getMinerImpl (h : s.Made coins) (coin : QString) :
    (s.getMinerImpl coin).Made coins := by
  have hcreated : ∀ c, s.created c = true → (s.getMinerImpl coin).created c = true := by
    intro c hc
    simp only [getMinerImpl]
    by_cases heq : c = coin
    · rw [heq]
      exact Function.update_self ..
    · rwa [Function.update_of_ne heq]
  constructor
  · intro c hc
    exact hcreated c (h.cpu c hc)
  · intro c key hc
    exact ⟨hcreated c (h.gpu c key hc).1, (h.gpu c key hc).2⟩

/-- Before it starts its own workers a call has stopped the other coin, and perhaps more. -/
theorem apply_started (h : s.Made coins) (call : StartCall) :
    (call.apply coins s).Made coins ∧ ∃ t, Stops (s.stopOther coins call.coin) t ∧
      ∀ other, other ≠ call.coin → ((call.apply coins s).Started other ↔ t.Started other) := by
  have hmade' := (stops_stopOther coins s call.coin).made h
  cases call with
  | startCpu coin =>
    have hmade := made_getMinerImpl hmade' coin
    refine ⟨⟨fun c hc => ?_, hmade.gpu⟩, s.stopOther coins coin, .refl _, fun other hne => ?_⟩
    · by_cases heq : c = coin
      · rw [heq]
        exact Function.update_self ..
      · simp only [StartCall.apply, startCpu, Function.update_of_ne heq] at hc
        exact hmade.cpu c hc
    · have hother : other ≠ coin := hne
      simp only [Started, StartCall.apply, startCpu, Function.update_of_ne hother]
      exact Iff.rfl
  | startGpu coin deviceKey opens state =>
    have hstops := stops_stopHolders coins (s.stopOther coins coin)
      (coins.devicesForStart coin deviceKey)
    have hmade := made_getMinerImpl (hstops.made hmade') coin
    refine ⟨⟨hmade.cpu, fun c key hc => ?_⟩, _, hstops, fun other hne => ?_⟩
    · by_cases heq : c = coin
      · subst heq
        simp only [StartCall.apply, startGpu, implStartGpu, Function.update_self,
          Bool.or_eq_true, List.contains_iff_mem] at hc
        rcases hc with hc | hstart
        · exact hmade.gpu c key hc
        · exact ⟨Function.update_self .., (mem_startKeys.mp hstart).1⟩
      · simp only [StartCall.apply, startGpu, implStartGpu, Function.update_of_ne heq] at hc
        exact hmade.gpu c key hc
    · have hother : other ≠ coin := hne
      simp only [Started, StartCall.apply, startGpu, implStartGpu, Function.update_of_ne hother]
      exact Iff.rfl

theorem start_eq_some : call.step coins s = some t ↔
    (call.coin ∈ coins.m_miners ∧ coins.ethereum call.coin = true) ∧ call.apply coins s = t := by
  rw [StartCall.step, Option.ite_none_right_eq_some, Option.some.injEq]

theorem made_start (h : s.Made coins) (hstep : call.step coins s = some t) : t.Made coins := by
  obtain ⟨-, rfl⟩ := start_eq_some.mp hstep
  exact (apply_started h call).1

theorem made_of_idle (h : s.Idle) : s.Made coins where
  cpu coin hcpu := absurd (Or.inl hcpu) (h coin)
  gpu coin key hgpu := absurd (Or.inr ⟨key, hgpu⟩) (h coin)

end GpuFlags

namespace CoinSet
variable {coins : CoinSet} {coin other : QString}

theorem Paired.otherMiner (h : coins.Paired) (hcoin : coin ∈ coins.m_miners)
    (heth : coins.ethereum coin = true) (hother : other ∈ coins.m_miners)
    (hother' : coins.ethereum other = true) (hne : other ≠ coin) :
    coins.otherMiner coin = some other := by
  obtain ⟨hkeys, hfind⟩ := h coin hcoin heth other hother hother' hne
  rw [CoinSet.otherMiner, if_pos heth]
  rcases hkeys with ⟨rfl, rfl⟩ | ⟨rfl, rfl⟩
  · exact hfind
  · exact hfind

theorem map_toLower_of_minerByCoinKey {coinKey : QString}
    (h : coins.minerByCoinKey coinKey = some other) :
    other.map Char.toLower = coinKey.map Char.toLower := by
  have hfound := List.find?_some h
  exact of_decide_eq_true hfound

/-- Coins that stop each other have the two keys. -/
theorem keys_of_otherMiner (hne : other ≠ coin) (h : coins.otherMiner coin = some other)
    (h' : coins.otherMiner other = some coin) :
    (coin = "eth".toList ∧ other = "etc".toList ∨ coin = "etc".toList ∧ other = "eth".toList) ∧
      coins.minerByCoinKey other = some other := by
  have hlookup : ∀ {c d : QString}, coins.otherMiner c = some d →
      coins.minerByCoinKey (otherCoinKey c) = some d := by
    intro c d hcd
    rw [CoinSet.otherMiner] at hcd
    split at hcd
    · exact hcd
    · cases hcd
  have hfind := hlookup h
  have hlower := map_toLower_of_minerByCoinKey hfind
  have hlower' := map_toLower_of_minerByCoinKey (hlookup h')
  have hnone : ∀ {c d : QString}, c ≠ "eth".toList → c ≠ "etc".toList →
      d.map Char.toLower = (otherCoinKey c).map Char.toLower → d = [] := by
    intro c d heth hetc hd
    rw [otherCoinKey, if_neg heth, if_neg hetc] at hd
    exact List.map_eq_nil_iff.mp hd
  by_cases hcoin : coin = "eth".toList
  · subst hcoin
    by_cases hother : other = "etc".toList
    · subst hother
      exact ⟨Or.inl ⟨rfl, rfl⟩, hfind⟩
    · have hnil := hnone hne hother hlower'
      cases hnil
  · by_cases hcoin' : coin = "etc".toList
    · subst hcoin'
      by_cases hother : other = "eth".toList
      · subst hother
        exact ⟨Or.inr ⟨rfl, rfl⟩, hfind⟩
      · have hnil := hnone hother hne hlower'
        cases hnil
    · have hnil := hnone hcoin hcoin' hlower
      subst hnil
      rw [hnone (by decide) (by decide) hlower'] at hne
      exact absurd rfl hne

end CoinSet

namespace GpuFlags
open Transition
variable {coins : CoinSet} {s t : GpuFlags} {coin other : QString} {call : StartCall}
  {calls : List StartCall}

theorem onlyOne_of_paired (hpaired : coins.Paired) (h : s.Made coins)
    (hstep : call.step coins s = some t) : t.OnlyOne coins call.coin := by
  obtain ⟨⟨hcoin, heth⟩, rfl⟩ := start_eq_some.mp hstep
  obtain ⟨-, u, hstops, hstarted⟩ := apply_started h call
  intro other hother heth' hne hrun
  have hleft := hstops.started ((hstarted other hne).mp hrun)
  rw [stopOther, hpaired.otherMiner hcoin heth hother heth' hne] at hleft
  exact not_started_stopAll h other hleft

theorem idle_new : new.Idle := by
  rintro coin (hcpu | ⟨key, hgpu⟩)
  · cases hcpu
  · cases hgpu

theorem startCpu_cpu : (s.startCpu coins coin).cpu coin = true := Function.update_self ..

/-- A coin that mines on the CPU goes on when another one is stopped. -/
theorem cpu_stopAll_of_ne (hne : other ≠ coin) :
    (s.stopAll coins coin).cpu other = s.cpu other := by
  have hcpu : (s.stopCpu coin).cpu other = s.cpu other := by
    unfold stopCpu
    split
    · exact Function.update_of_ne hne ..
    · rfl
  simp only [stopAll]
  split
  · rw [stopGpu, implStopGpu_eq]
    split
    · exact hcpu
    · exact hcpu
  · exact hcpu

theorem cpu_startCpu_of_ne (hne : other ≠ coin) (h : coins.otherMiner coin ≠ some other) :
    (s.startCpu coins coin).cpu other = s.cpu other := by
  simp only [startCpu, getMinerImpl, Function.update_of_ne hne, stopOther]
  split
  case h_1 stopped hstopped =>
    refine cpu_stopAll_of_ne ?_
    rintro rfl
    exact h hstopped
  case h_2 => rfl

/-- Whatever the calls, each leaves no other coin of the family started, exactly when there is at
most one such coin or the two are `eth` and `etc`. -/
theorem onlyOne_iff_paired (coins : CoinSet) :
    (∀ s, s.Idle → ∀ calls call t, exec (StartCall.step coins) s (calls ++ [call]) = some t →
      t.OnlyOne coins call.coin) ↔ coins.Paired := by
  constructor
  · intro h coin hcoin heth other hother heth' hne
    have hstops : ∀ {c d : QString}, c ∈ coins.m_miners → coins.ethereum c = true →
        d ∈ coins.m_miners → coins.ethereum d = true → d ≠ c → coins.otherMiner c = some d := by
      intro c d hc hethc hd hethd hdc
      by_contra hnot
      have hrun : exec (StartCall.step coins) new ([.startCpu d] ++ [.startCpu c]) =
          some ((new.startCpu coins d).startCpu coins c) := by
        refine exec_append.mpr ⟨new.startCpu coins d, ?_, ?_⟩
        · exact exec_cons.mpr ⟨_, start_eq_some.mpr ⟨⟨hd, hethd⟩, rfl⟩, rfl⟩
        · exact exec_cons.mpr ⟨_, start_eq_some.mpr ⟨⟨hc, hethc⟩, rfl⟩, rfl⟩
      refine h new idle_new _ _ _ hrun d hd hethd hdc (Or.inl ?_)
      rw [cpu_startCpu_of_ne hdc hnot, startCpu_cpu]
    exact CoinSet.keys_of_otherMiner hne (hstops hcoin heth hother heth' hne)
      (hstops hother heth' hcoin heth hne.symm)
  · intro hpaired s hidle calls call t hrun
    obtain ⟨u, hu, hlast⟩ := exec_append.mp hrun
    obtain ⟨v, hv, hnil⟩ := exec_cons.mp hlast
    rw [exec_nil, Option.some.injEq] at hnil
    subst hnil
    have hmade :=
      exec_invariant_of_step (fun _ _ _ hI he => made_start hI he) (made_of_idle hidle) hu
    exact onlyOne_of_paired hpaired hmade hv

/-- Two coins whose keys the server writes in capitals. -/
def capitals : CoinSet := .withoutGpu ["ETC".toList, "ETH".toList] fun _ => true

theorem capitals_mine_together :
    ¬ ∀ (coins : CoinSet) (s : GpuFlags), s.Idle → ∀ calls call t,
      exec (StartCall.step coins) s (calls ++ [call]) = some t → t.OnlyOne coins call.coin := by
  intro h
  have hrun := h capitals new idle_new [.startCpu "ETC".toList]
    (.startCpu "ETH".toList) _ rfl
  exact hrun "ETC".toList (by decide) rfl (by decide) (Or.inl (by decide))

end GpuFlags

end MinerGate
