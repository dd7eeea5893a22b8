import MinerGate.Coins.GpuFlags
import MinerGate.Lib.Transition

/-!
# One coin on a device

A stop takes down the flags of the devices that the miner of the coin has a worker for, and a flag
that the command line has put up for another device stays. `startGpu` takes down the flag of the
coin that it starts as well, which only the command line puts up again.
-/

namespace MinerGate

set_option autoImplicit false

open Boards Transition

namespace GpuFlags

structure Exclusive (rig : Rig) (s : GpuFlags) : Prop where
  one : ∀ deviceKey ∈ rig.deviceKeys, ∀ coin ∈ rig.m_miners, ∀ coin' ∈ rig.m_miners,
    s.gpuRunning coin deviceKey = true → s.gpuRunning coin' deviceKey = true → coin = coin'
  shown : ∀ coin deviceKey, s.started deviceKey = some coin → s.gpuRunning coin deviceKey = true

def board (rig : Rig) (s : GpuFlags) : Board QString QString where
  flag coin deviceKey :=
    coin ∈ rig.m_miners ∧ deviceKey ∈ rig.deviceKeys ∧ s.gpuRunning coin deviceKey = true
  holder := s.started

/-- While the process runs the entries are flags, and a coin with a flag or a worker has a miner. -/
structure Wf (rig : Rig) (s : GpuFlags) : Prop where
  running : s.settings.m_appExitInProcess = false
  entries : ∀ coin ∈ rig.m_miners, ∀ deviceKey ∈ rig.deviceKeys,
    s.settings.IsFlag (flagName coin deviceKey)
  flagged : ∀ coin deviceKey, (s.board rig).flag coin deviceKey → s.created coin = true
  worker : ∀ coin deviceKey, s.started deviceKey = some coin →
    coin ∈ rig.m_miners ∧ deviceKey ∈ rig.contexts coin ∧ s.created coin = true

/-- What a call needs. A start by the command line needs that the other coins flagged on the device
have workers there, so that they can be stopped; the loop in `loggedIn` needs that it starts no
worker of a coin that is flagged already. -/
def Meets (rig : Rig) (s : GpuFlags) : Op → Prop
  | .cliGpu coin deviceKey _ _ =>
    ∀ holder ∈ rig.m_miners, holder ≠ coin → s.gpuRunning holder deviceKey = true →
      deviceKey ∈ rig.contexts holder
  | .loggedInGpu coin deviceKey opens state =>
    s.gpuRunning coin deviceKey = true → deviceKey ∈ rig.contexts coin →
      opens deviceKey = true → state deviceKey = .Mining
  | _ => True

instance (rig : Rig) (s : GpuFlags) : (op : Op) → Decidable (s.Meets rig op)
  | .cliGpu _ _ _ _ => inferInstanceAs (Decidable (∀ holder ∈ rig.m_miners, _))
  | .loggedInGpu _ _ _ _ => inferInstanceAs (Decidable (_ → _ → _ → _))
  | .startCpu _ | .setCpuRunning _ _ | .loggedInCpu _ | .finished _ _ | .stopGpu _ _ _
  | .stopAll _ | .getMinerImpl _ | .exit => .isTrue trivial

/-- Before the first call there is no flag and no worker. -/
def Fresh (rig : Rig) (s : GpuFlags) : Prop :=
  (∀ coin ∈ rig.m_miners, ∀ deviceKey ∈ rig.deviceKeys,
    s.settings.m_settingsImpl.m_settings.lookup (flagName coin deviceKey) = none) ∧
  ∀ deviceKey, s.started deviceKey = none

section Spec
variable {rig : Rig} {s : GpuFlags} {coin coin' deviceKey device : QString} {on sync : Bool}
  {keys : List QString} {opens : QString → Bool} {state : QString → MinerThreadState}

theorem exclusive_iff (h : s.Wf rig) : s.Exclusive rig ↔ (s.board rig).Coherent := by
  constructor
  · intro hex
    constructor
    · rintro coin coin' deviceKey ⟨hcoin, hkey, hon⟩ ⟨hcoin', -, hon'⟩
      exact hex.one deviceKey hkey coin hcoin coin' hcoin' hon hon'
    · intro coin deviceKey hstarted
      obtain ⟨hcoin, hkey, -⟩ := h.worker coin deviceKey hstarted
      exact ⟨hcoin, (rig.known coin).2 hkey, hex.shown coin deviceKey hstarted⟩
  · intro hc
    constructor
    · intro deviceKey hkey coin hcoin coin' hcoin' hon hon'
      exact hc.one coin coin' deviceKey ⟨hcoin, hkey, hon⟩ ⟨hcoin', hkey, hon'⟩
    · intro coin deviceKey hstarted
      exact (hc.shown coin deviceKey hstarted).2.2

theorem ne_nil_of_mem (h : deviceKey ∈ rig.deviceKeys) : deviceKey ≠ [] := by
  rintro rfl
  exact rig.named.2 h

theorem gpuRunning_setGpuRunning (h : s.Wf rig) (hcoin : coin ∈ rig.m_miners)
    (hkey : deviceKey ∈ rig.deviceKeys) (hcoin' : coin' ∈ rig.m_miners)
    (hdevice : device ∈ rig.deviceKeys) :
    (s.setGpuRunning coin on deviceKey).gpuRunning coin' device =
      if coin' = coin ∧ device = deviceKey then on else s.gpuRunning coin' device := by
  split
  case isTrue heq =>
    obtain ⟨rfl, rfl⟩ := heq
    exact Settings.isGpuRunning_setGpuRunning_self h.running (h.entries coin' hcoin device hkey)
      (ne_nil_of_mem hkey)
  case isFalse hne =>
    refine Settings.isGpuRunning_setGpuRunning_of_ne (ne_nil_of_mem hdevice) fun hname => hne ?_
    exact rig.apart coin' hcoin' coin hcoin device hdevice deviceKey hkey hname

theorem board_raise (h : s.Wf rig) (hcoin : coin ∈ rig.m_miners)
    (hkey : deviceKey ∈ rig.deviceKeys) :
    (s.setGpuRunning coin true deviceKey).board rig = (s.board rig).raise coin deviceKey := by
  ext coin' device
  · constructor
    · rintro ⟨hcoin', hdevice, hon⟩
      rw [gpuRunning_setGpuRunning h hcoin hkey hcoin' hdevice] at hon
      split at hon
      case isTrue heq => exact Or.inr heq
      case isFalse => exact Or.inl ⟨hcoin', hdevice, hon⟩
    · rintro (⟨hcoin', hdevice, hon⟩ | ⟨rfl, rfl⟩)
      · refine ⟨hcoin', hdevice, ?_⟩
        rw [gpuRunning_setGpuRunning h hcoin hkey hcoin' hdevice]
        split
        case isTrue => rfl
        case isFalse => exact hon
      · refine ⟨hcoin, hkey, ?_⟩
        rw [gpuRunning_setGpuRunning h hcoin hkey hcoin hkey, if_pos ⟨rfl, rfl⟩]
  · exact Iff.rfl

theorem board_lower (h : s.Wf rig) (hcoin : coin ∈ rig.m_miners)
    (hkey : deviceKey ∈ rig.deviceKeys) :
    (s.setGpuRunning coin false deviceKey).board rig =
      (s.board rig).lower coin {d | d = deviceKey} := by
  ext coin' device
  · constructor
    · rintro ⟨hcoin', hdevice, hon⟩
      rw [gpuRunning_setGpuRunning h hcoin hkey hcoin' hdevice] at hon
      split at hon
      case isTrue => cases hon
      case isFalse hne => exact ⟨⟨hcoin', hdevice, hon⟩, hne⟩
    · rintro ⟨⟨hcoin', hdevice, hon⟩, hne⟩
      refine ⟨hcoin', hdevice, ?_⟩
      rw [gpuRunning_setGpuRunning h hcoin hkey hcoin' hdevice]
      split
      case isTrue heq => exact absurd heq hne
      case isFalse => exact hon
  · exact Iff.rfl

theorem Wf.raise (h : s.Wf rig) (hcoin : coin ∈ rig.m_miners) (hkey : deviceKey ∈ rig.deviceKeys)
    (hmade : s.created coin = true) : (s.setGpuRunning coin true deviceKey).Wf rig where
  running := Settings.setGpuRunning_m_appExitInProcess.trans h.running
  entries coin' hcoin' device hdevice := (h.entries coin' hcoin' device hdevice).setGpuRunning
  flagged coin' device hflag := by
    rw [board_raise h hcoin hkey] at hflag
    rcases hflag with hflag | ⟨rfl, -⟩
    · exact h.flagged coin' device hflag
    · exact hmade
  worker := h.worker

theorem Wf.lower (h : s.Wf rig) (hcoin : coin ∈ rig.m_miners) (hkey : deviceKey ∈ rig.deviceKeys) :
    (s.setGpuRunning coin false deviceKey).Wf rig where
  running := Settings.setGpuRunning_m_appExitInProcess.trans h.running
  entries coin' hcoin' device hdevice := (h.entries coin' hcoin' device hdevice).setGpuRunning
  flagged coin' device hflag := by
    rw [board_lower h hcoin hkey] at hflag
    exact h.flagged coin' device hflag.1
  worker := h.worker

theorem clearFlags_spec (h : s.Wf rig) (hcoin : coin ∈ rig.m_miners)
    (hkeys : keys ⊆ rig.deviceKeys) :
    (s.clearFlags coin keys).Wf rig ∧
      (s.clearFlags coin keys).board rig = (s.board rig).lower coin {d | d ∈ keys} := by
  induction keys generalizing s with
  | nil =>
    refine ⟨h, ?_⟩
    ext coin' device <;> simp [clearFlags, Board.lower]
  | cons key keys ih =>
    obtain ⟨hkey, hkeys⟩ := List.cons_subset.mp hkeys
    obtain ⟨hwf, hboard⟩ := ih (h.lower hcoin hkey) hkeys
    refine ⟨hwf, ?_⟩
    rw [clearFlags, List.foldl_cons, ← clearFlags, hboard, board_lower h hcoin hkey]
    ext coin' device
    · simp only [Board.lower, Set.mem_ofPred_eq, List.mem_cons]
      tauto
    · exact Iff.rfl

theorem board_stopWorkers :
    (s.stopWorkers coin keys).board rig = (s.board rig).leave coin {d | d ∈ keys} := by
  refine Board.ext rfl (funext fun device => ?_)
  exact ((s.board rig).leave_holder_ite coin {d | d ∈ keys} device).symm

theorem Wf.stopWorkers (h : s.Wf rig) : (s.stopWorkers coin keys).Wf rig where
  running := h.running
  entries := h.entries
  flagged := h.flagged
  worker coin' device hstarted := by
    have hold : ((s.stopWorkers coin keys).board rig).holder device = some coin' := hstarted
    rw [board_stopWorkers, Board.leave_holder] at hold
    exact h.worker coin' device hold.1

theorem covered_subset : rig.covered coin deviceKey ⊆ rig.deviceKeys := by
  intro key hkey
  exact (rig.known coin).2 (List.mem_of_mem_filter hkey)

theorem implStopGpu_spec (h : s.Wf rig) (hcoin : coin ∈ rig.m_miners) :
    (s.implStopGpu rig coin deviceKey sync).Wf rig ∧
      (s.implStopGpu rig coin deviceKey sync).board rig =
        (s.board rig).release coin {d | d ∈ rig.covered coin deviceKey} := by
  have hcovered : rig.covered coin deviceKey ⊆ rig.deviceKeys := covered_subset
  have hstopped : (s.stopWorkers coin (rig.covered coin deviceKey)).Wf rig := h.stopWorkers
  have hstop := clearFlags_spec hstopped hcoin hcovered
  rw [board_stopWorkers] at hstop
  cases sync <;> exact hstop

/-- Without a miner there is nothing to take down. -/
theorem stopGpu_spec (h : s.Wf rig) (hcoin : coin ∈ rig.m_miners) :
    (s.stopGpu rig coin sync deviceKey).Wf rig ∧
      (s.stopGpu rig coin sync deviceKey).board rig =
        (s.board rig).release coin {d | d ∈ rig.covered coin deviceKey} := by
  rw [stopGpu]
  split
  case isTrue => exact implStopGpu_spec h hcoin
  case isFalse hnone =>
    refine ⟨h, (Board.release_eq_self ?_).symm⟩
    intro device _
    constructor
    · intro hflag
      exact hnone (h.flagged coin device hflag)
    · intro hstarted
      exact hnone (h.worker coin device hstarted).2.2

theorem mem_covered_all : deviceKey ∈ rig.covered coin [] ↔ deviceKey ∈ rig.contexts coin := by
  simp [CoinSet.covered]

theorem mem_covered_self (h : deviceKey ∈ rig.deviceKeys) :
    device ∈ rig.covered coin deviceKey ↔ device ∈ rig.contexts coin ∧ device = deviceKey := by
  simp [CoinSet.covered, ne_nil_of_mem h]

theorem stopCpu_spec (h : s.Wf rig) :
    (s.stopCpu coin).Wf rig ∧ (s.stopCpu coin).board rig = s.board rig := by
  rw [stopCpu_eq]
  exact ⟨⟨h.running, h.entries, h.flagged, h.worker⟩, rfl⟩

theorem stopAll_spec (h : s.Wf rig) (hcoin : coin ∈ rig.m_miners) :
    (s.stopAll rig coin).Wf rig ∧
      (s.stopAll rig coin).board rig =
        (s.board rig).release coin {d | d ∈ rig.covered coin []} := by
  obtain ⟨hwf, hboard⟩ : (s.stopCpu coin).Wf rig ∧ _ := stopCpu_spec h
  rw [← hboard]
  simp only [stopAll]
  split
  case isTrue => exact stopGpu_spec hwf hcoin
  case isFalse hnone =>
    refine ⟨hwf, (Board.release_eq_self fun device hdevice => ?_).symm⟩
    have hmem := mem_covered_all.mp hdevice
    rw [rig.none_without_gpu coin (by simpa using hnone)] at hmem
    cases hmem

theorem otherMiner_mem {other : QString} (h : rig.otherMiner coin = some other) :
    other ∈ rig.m_miners := by
  rw [CoinSet.otherMiner] at h
  split at h
  case isTrue => exact List.mem_of_find?_eq_some h
  case isFalse => cases h

/-- Of the other coin of the family the devices are stopped that its miner has a worker for. -/
theorem stopOther_spec (h : s.Wf rig) :
    (s.stopOther rig coin).Wf rig ∧
      ((s.board rig).Coherent → ((s.stopOther rig coin).board rig).Coherent) ∧
        ∀ coin' device, ((s.stopOther rig coin).board rig).flag coin' device ↔
          (s.board rig).flag coin' device ∧
            ¬ (rig.otherMiner coin = some coin' ∧ device ∈ rig.contexts coin') := by
  rw [stopOther]
  cases hother : rig.otherMiner coin with
  | none =>
    refine ⟨h, id, fun coin' device => ?_⟩
    simp
  | some other =>
    obtain ⟨hwf, hboard⟩ := stopAll_spec h (otherMiner_mem hother)
    simp only [hboard]
    refine ⟨hwf, Board.Coherent.release, fun coin' device => ?_⟩
    rw [Board.release_flag, Set.mem_ofPred_eq, mem_covered_all, Option.some.injEq]
    apply and_congr_right
    intro _
    constructor
    · rintro hnot ⟨rfl, hdevice⟩
      exact hnot ⟨rfl, hdevice⟩
    · rintro hnot ⟨rfl, hdevice⟩
      exact hnot ⟨rfl, hdevice⟩

/-- Of the flags for the device those stay whose coin has no worker there. -/
theorem stopHolder_spec (h : s.Wf rig) (hc : (s.board rig).Coherent)
    (hkey : deviceKey ∈ rig.deviceKeys) :
    (s.stopHolder rig deviceKey).Wf rig ∧ ((s.stopHolder rig deviceKey).board rig).Coherent ∧
      ∀ coin', ((s.stopHolder rig deviceKey).board rig).flag coin' deviceKey ↔
        (s.board rig).flag coin' deviceKey ∧ deviceKey ∉ rig.contexts coin' := by
  rw [stopHolder]
  cases hfind : s.minerHasGpuRunned rig deviceKey with
  | none =>
    refine ⟨h, hc, fun coin' => ?_⟩
    have hnone : ¬ (s.board rig).flag coin' deviceKey := by
      rintro ⟨hcoin', -, hon⟩
      exact List.find?_eq_none.mp hfind coin' hcoin' hon
    simp [hnone]
  | some holder =>
    have hon := List.find?_some hfind
    have hholder : (s.board rig).flag holder deviceKey :=
      ⟨List.mem_of_find?_eq_some hfind, hkey, hon⟩
    have hstop : (s.stopGpu rig holder true deviceKey).Wf rig ∧ _ := stopGpu_spec h hholder.1
    simp only [hstop.2]
    refine ⟨hstop.1, hc.release, fun coin' => ?_⟩
    rw [Board.release_flag, Set.mem_ofPred_eq, mem_covered_self hkey]
    refine and_congr_right fun hflag => not_congr ?_
    obtain rfl := hc.one coin' holder deviceKey hflag hholder
    simp

theorem created_getMinerImpl_self : (s.getMinerImpl coin).created coin = true :=
  Function.update_self _ _ _

theorem created_getMinerImpl (h : s.created coin' = true) :
    (s.getMinerImpl coin).created coin' = true := by
  by_cases heq : coin' = coin
  · rw [heq]
    exact created_getMinerImpl_self
  · exact (Function.update_of_ne heq _ _).trans h

theorem Wf.getMinerImpl (h : s.Wf rig) : (s.getMinerImpl coin).Wf rig where
  running := h.running
  entries := h.entries
  flagged coin' device hflag := created_getMinerImpl (h.flagged coin' device hflag)
  worker coin' device hstarted := by
    obtain ⟨hcoin', hdevice, hmade⟩ := h.worker coin' device hstarted
    exact ⟨hcoin', hdevice, created_getMinerImpl hmade⟩

theorem implStartGpu_spec (h : s.Wf rig) (hcoin : coin ∈ rig.m_miners)
    (hmade : s.created coin = true) :
    (s.implStartGpu rig coin keys opens state).Wf rig ∧
      (s.implStartGpu rig coin keys opens state).board rig =
        (s.board rig).take coin {d | d ∈ startKeys rig coin keys opens state} := by
  have hboard : (s.implStartGpu rig coin keys opens state).board rig =
      (s.board rig).take coin {d | d ∈ startKeys rig coin keys opens state} := by
    refine Board.ext rfl (funext fun device => ?_)
    exact ((s.board rig).take_holder_ite coin
      {d | d ∈ startKeys rig coin keys opens state} device).symm
  refine ⟨⟨h.running, h.entries, h.flagged, fun coin' device hstarted => ?_⟩, hboard⟩
  have hold : ((s.implStartGpu rig coin keys opens state).board rig).holder device = some coin' :=
    hstarted
  rw [hboard, Board.take_holder] at hold
  rcases hold with ⟨hstart, rfl⟩ | ⟨-, hold⟩
  · exact ⟨hcoin, (mem_startKeys.mp hstart).1, hmade⟩
  · exact h.worker coin' device hold

/-- `startGpu` for one device: of the flags there those stay whose coin has no worker, and the coin
takes the device where it has one that is not mining. -/
theorem startGpu_spec (h : s.Wf rig) (hc : (s.board rig).Coherent) (hcoin : coin ∈ rig.m_miners)
    (hkey : deviceKey ∈ rig.deviceKeys) :
    (s.startGpu rig coin deviceKey opens state).Wf rig ∧
      (s.startGpu rig coin deviceKey opens state).created coin = true ∧
        ∃ b : Board QString QString, b.Coherent ∧
          (∀ coin', b.flag coin' deviceKey ↔
            (s.board rig).flag coin' deviceKey ∧ deviceKey ∉ rig.contexts coin') ∧
          (s.startGpu rig coin deviceKey opens state).board rig =
            b.take coin {d | d ∈ startKeys rig coin [deviceKey] opens state} := by
  obtain ⟨hwf₁, hc₁, hflag₁⟩ : (s.stopOther rig coin).Wf rig ∧ _ := stopOther_spec h
  obtain ⟨hwf₂, hc₂, hflag₂⟩ := stopHolder_spec hwf₁ (hc₁ hc) hkey
  have hdevices : rig.devicesForStart coin deviceKey = [deviceKey] := if_neg (ne_nil_of_mem hkey)
  obtain ⟨hwf, hboard⟩ : (((((s.stopOther rig coin).stopHolder rig deviceKey).getMinerImpl
      coin).implStartGpu rig coin [deviceKey] opens state).Wf rig) ∧ _ :=
    implStartGpu_spec hwf₂.getMinerImpl hcoin created_getMinerImpl_self
  rw [startGpu]
  simp only [hdevices, List.foldl_cons, List.foldl_nil]
  refine ⟨hwf, created_getMinerImpl_self, _, hc₂, fun coin' => ?_, hboard⟩
  rw [hflag₂, hflag₁]
  tauto

theorem cliGpu_spec (h : s.Wf rig) (hc : (s.board rig).Coherent)
    (hvalid : (Op.cliGpu coin deviceKey opens state).Valid rig) :
    (s.apply rig (.cliGpu coin deviceKey opens state)).Wf rig ∧
      (((s.apply rig (.cliGpu coin deviceKey opens state)).board rig).Coherent ↔
        s.Meets rig (.cliGpu coin deviceKey opens state)) := by
  obtain ⟨hcoin, hkey⟩ := hvalid
  obtain ⟨hwf, hmade, b, hb, hflag, hboard⟩ :
      (s.startGpu rig coin deviceKey opens state).Wf rig ∧ _ := startGpu_spec h hc hcoin hkey
  have hdevices : ∀ device ∈ {d | d ∈ startKeys rig coin [deviceKey] opens state},
      device = deviceKey :=
    fun device hdevice => List.mem_singleton.mp (mem_startKeys.mp hdevice).2.1
  refine ⟨hwf.raise hcoin hkey hmade, ?_⟩
  rw [apply, board_raise hwf hcoin hkey, hboard, hb.take_raise_iff hdevices]
  constructor
  · intro halone holder hholder hne hon
    by_contra hnone
    exact hne (halone holder ((hflag holder).mpr ⟨⟨hholder, hkey, hon⟩, hnone⟩))
  · intro hmeets holder hup
    by_contra hne
    obtain ⟨⟨hholder, -, hon⟩, hnone⟩ := (hflag holder).mp hup
    exact hnone (hmeets holder hholder hne hon)

theorem loggedInGpu_spec (h : s.Wf rig) (hc : (s.board rig).Coherent)
    (hvalid : (Op.loggedInGpu coin deviceKey opens state).Valid rig) :
    (s.apply rig (.loggedInGpu coin deviceKey opens state)).Wf rig ∧
      (((s.apply rig (.loggedInGpu coin deviceKey opens state)).board rig).Coherent ↔
        s.Meets rig (.loggedInGpu coin deviceKey opens state)) := by
  obtain ⟨hcoin, hkey⟩ := hvalid
  rw [apply]
  split
  case isTrue hguard =>
    obtain ⟨hwf, -, b, hb, hflag, hboard⟩ :
        (s.startGpu rig coin deviceKey opens state).Wf rig ∧ _ := startGpu_spec h hc hcoin hkey
    refine ⟨hwf, ?_⟩
    rw [hboard, hb.take_iff]
    constructor
    · intro hup _ hmem hopens
      by_contra hidle
      have hflagged := hup deviceKey
        (mem_startKeys.mpr ⟨hmem, List.mem_singleton_self deviceKey, hopens, hidle⟩)
      exact ((hflag coin).mp hflagged).2 hmem
    · intro hmeets device hstart
      obtain ⟨hmem, hdevice, hopens, hidle⟩ := mem_startKeys.mp hstart
      cases List.mem_singleton.mp hdevice
      exact absurd (hmeets hguard.2 hmem hopens) hidle
  case isFalse hguard =>
    refine ⟨h, fun _ hon hmem _ => ?_, fun _ => hc⟩
    cases hgpu : rig.gpuAvailable coin with
    | true => exact absurd ⟨hgpu, hon⟩ hguard
    | false =>
      rw [rig.none_without_gpu coin hgpu] at hmem
      cases hmem

theorem startCpu_spec (h : s.Wf rig) (hc : (s.board rig).Coherent) :
    (s.startCpu rig coin).Wf rig ∧ ((s.startCpu rig coin).board rig).Coherent := by
  obtain ⟨hwf, hother, -⟩ : (s.stopOther rig coin).Wf rig ∧ _ := stopOther_spec h
  have hmade : ((s.stopOther rig coin).getMinerImpl coin).Wf rig := hwf.getMinerImpl
  exact ⟨⟨hmade.running, hmade.entries, hmade.flagged, hmade.worker⟩, hother hc⟩

/-- A call, the last one apart, leaves the flags coherent exactly when it has what it needs. -/
theorem apply_spec {op : Op} (h : s.Wf rig) (hc : (s.board rig).Coherent) (hvalid : op.Valid rig)
    (hop : op ≠ .exit) :
    (s.apply rig op).Wf rig ∧ (((s.apply rig op).board rig).Coherent ↔ s.Meets rig op) := by
  have hkeeps : ∀ {t : GpuFlags}, t.Wf rig ∧ (t.board rig).Coherent →
      t.Wf rig ∧ ((t.board rig).Coherent ↔ True) :=
    fun ht => ⟨ht.1, fun _ => trivial, fun _ => ht.2⟩
  have hstop : ∀ {t : GpuFlags} {coin : QString} {ds : Set QString},
      t.Wf rig ∧ t.board rig = (s.board rig).release coin ds →
        t.Wf rig ∧ ((t.board rig).Coherent ↔ True) := by
    intro t coin ds ht
    exact hkeeps ⟨ht.1, ht.2 ▸ hc.release⟩
  cases op with
  | cliGpu coin deviceKey opens state => exact cliGpu_spec h hc hvalid
  | loggedInGpu coin deviceKey opens state => exact loggedInGpu_spec h hc hvalid
  | startCpu coin => exact hkeeps (startCpu_spec h hc)
  | setCpuRunning coin on =>
    exact hkeeps ⟨⟨h.running, h.entries, h.flagged, h.worker⟩, hc⟩
  | loggedInCpu coin =>
    rw [apply]
    split
    case isTrue => exact hkeeps (startCpu_spec h hc)
    case isFalse => exact hkeeps ⟨h, hc⟩
  | finished coin deviceKey =>
    rw [apply]
    split
    case isTrue => exact hstop (implStopGpu_spec h hvalid.1)
    case isFalse => exact hkeeps ⟨h, hc⟩
  | stopGpu coin sync deviceKey => exact hstop (stopGpu_spec h hvalid)
  | stopAll coin => exact hstop (stopAll_spec h hvalid)
  | getMinerImpl coin => exact hkeeps ⟨h.getMinerImpl, hc⟩
  | exit => exact absurd rfl hop

theorem clearFlags_of_exit (h : s.settings.m_appExitInProcess = true) :
    s.clearFlags coin keys = s := by
  induction keys with
  | nil => rfl
  | cons key keys ih =>
    have hsame : s.setGpuRunning coin false key = s := by
      rw [setGpuRunning, Settings.setGpuRunning_of_exit h]
    rw [clearFlags, List.foldl_cons, hsame, ← clearFlags, ih]

theorem stopAll_of_exit (h : s.settings.m_appExitInProcess = true) :
    (s.stopAll rig coin).settings = s.settings ∧
      ∀ coin' device, (s.stopAll rig coin).started device = some coin' →
        s.started device = some coin' := by
  rw [stopAll, stopCpu_eq, stopGpu]
  simp only
  split
  case isFalse => exact ⟨rfl, fun _ _ => id⟩
  case isTrue =>
    split
    case isFalse => exact ⟨rfl, fun _ _ => id⟩
    case isTrue =>
      have hstopped : (stopWorkers { s with cpu := (s.stopCpu coin).cpu } coin
          (rig.covered coin [])).settings.m_appExitInProcess = true := h
      simp only [implStopGpu, clearFlags_of_exit hstopped]
      refine ⟨rfl, fun coin' device hstarted => ?_⟩
      simp only [stopWorkers] at hstarted
      split at hstarted
      case isTrue => cases hstarted
      case isFalse => exact hstarted

theorem foldl_stopAll_of_exit (coins : List QString) (h : s.settings.m_appExitInProcess = true) :
    (coins.foldl (stopAll rig) s).settings = s.settings ∧
      ∀ coin device, (coins.foldl (stopAll rig) s).started device = some coin →
        s.started device = some coin := by
  induction coins generalizing s with
  | nil => exact ⟨rfl, fun _ _ => id⟩
  | cons coin coins ih =>
    obtain ⟨hsettings, hstarted⟩ : (s.stopAll rig coin).settings = s.settings ∧ _ :=
      stopAll_of_exit h
    have hexit : (s.stopAll rig coin).settings.m_appExitInProcess = true := by
      rw [hsettings]
      exact h
    obtain ⟨hrest, hrun⟩ := ih hexit
    constructor
    · exact hrest.trans hsettings
    · intro coin' device hlast
      exact hstarted coin' device (hrun coin' device hlast)

/-- At the end the flags stay as they are, and the workers are stopped. -/
theorem exit_spec (h : s.Exclusive rig) :
    (s.exit rig).settings.m_appExitInProcess = true ∧ (s.exit rig).Exclusive rig := by
  have hexit : (s.settings.setAppQuitInProcess true).m_appExitInProcess = true := rfl
  obtain ⟨hsettings, hstarted⟩ : (s.exit rig).settings = s.settings.setAppQuitInProcess true ∧ _ :=
    foldl_stopAll_of_exit rig.m_miners hexit
  have hflag : ∀ coin device, (s.exit rig).gpuRunning coin device = s.gpuRunning coin device := by
    intro coin device
    rw [gpuRunning, hsettings]
    rfl
  constructor
  · rw [hsettings]
    exact hexit
  · constructor
    · intro device hdevice coin hcoin coin' hcoin' hon hon'
      rw [hflag] at hon hon'
      exact h.one device hdevice coin hcoin coin' hcoin' hon hon'
    · intro coin device hlast
      rw [hflag]
      exact h.shown coin device (hstarted coin device hlast)

/-- What holds of a state that the calls come to. -/
def Inv (rig : Rig) (s : GpuFlags) : Prop :=
  s.Exclusive rig ∧ (s.settings.m_appExitInProcess = false → s.Wf rig)

theorem enabled_spec {op : Op} (hI : s.Inv rig) (henabled : s.Enabled rig op) :
    ((s.apply rig op).settings.m_appExitInProcess = false → (s.apply rig op).Wf rig) ∧
      ((s.apply rig op).Exclusive rig ↔ s.Meets rig op) := by
  by_cases hop : op = .exit
  · subst hop
    obtain ⟨hexit, hex⟩ := exit_spec hI.1
    refine ⟨fun hrunning => ?_, fun _ => trivial, fun _ => hex⟩
    exact absurd (hexit.symm.trans hrunning) (by decide)
  · have hwf := hI.2 henabled.1
    obtain ⟨hwf', hmeets⟩ := apply_spec hwf ((exclusive_iff hwf).mp hI.1) henabled.2 hop
    exact ⟨fun _ => hwf', (exclusive_iff hwf').trans hmeets⟩

theorem inv_of_fresh (h : s.Fresh rig) : s.Inv rig := by
  have hoff : ∀ coin ∈ rig.m_miners, ∀ device ∈ rig.deviceKeys,
      s.gpuRunning coin device = false := by
    intro coin hcoin device hdevice
    rw [gpuRunning, Settings.isGpuRunning_eq (ne_nil_of_mem hdevice), h.1 coin hcoin device hdevice]
    rfl
  have hidle : ∀ coin device, s.started device ≠ some coin := by
    intro coin device
    rw [h.2 device]
    exact (Option.some_ne_none coin).symm
  constructor
  · constructor
    · intro device hdevice coin hcoin _ _ hon
      rw [hoff coin hcoin device hdevice] at hon
      cases hon
    · intro coin device hstarted
      exact absurd hstarted (hidle coin device)
  · intro hrunning
    refine ⟨hrunning, ?_, ?_, ?_⟩
    · intro coin hcoin device hdevice
      exact Or.inl (h.1 coin hcoin device hdevice)
    · rintro coin device ⟨hcoin, hdevice, hon⟩
      rw [hoff coin hcoin device hdevice] at hon
      cases hon
    · intro coin device hstarted
      exact absurd hstarted (hidle coin device)

end Spec

/-- Every state that a run comes to has one flag on a device, and a flag for the worker there,
exactly when every call of the run has what it needs. -/
theorem exclusive_along_iff {rig : Rig} {s : GpuFlags} {ops : List Op} (h : s.Fresh rig) :
    (∀ done t, done <+: ops → exec (step rig) s done = some t → t.Exclusive rig) ↔
      Along (step rig) (fun s op => s.Enabled rig op → s.Meets rig op) s ops := by
  have hstep : ∀ s op t, s.Inv rig → (s.Enabled rig op → s.Meets rig op) → step rig s op = some t →
      t.Inv rig := by
    intro s op t hI hmeets ht
    rw [step] at ht
    split at ht
    case isTrue henabled =>
      cases ht
      obtain ⟨hwf, hiff⟩ := enabled_spec hI henabled
      exact ⟨hiff.mpr (hmeets henabled), hwf⟩
    case isFalse => cases ht
  have hbad : ∀ s op, s.Inv rig → ¬ (s.Enabled rig op → s.Meets rig op) →
      ∃ t, step rig s op = some t ∧ ¬ t.Exclusive rig := by
    intro s op hI hnot
    obtain ⟨henabled, hmeets⟩ := Classical.not_imp.mp hnot
    exact ⟨s.apply rig op, if_pos henabled, fun hex => hmeets ((enabled_spec hI henabled).2.mp hex)⟩
  exact along_iff_reached hstep (fun _ hI => hI.1) hbad (inv_of_fresh h)

/-- Two cards, where the first one has too little memory for `eth`. -/
def twoCards : Rig where
  m_miners := ["eth".toList, "xmr".toList]
  ethereum coin := coin = "eth".toList
  gpuAvailable _ := true
  deviceKeys := ["1_0".toList, "1_1".toList]
  available coin := if coin = "eth".toList then ["1_1".toList] else ["1_0".toList, "1_1".toList]
  contexts coin := if coin = "eth".toList then ["1_1".toList] else ["1_0".toList, "1_1".toList]
  named := by decide
  known coin := by
    split
    · decide
    · decide
  none_without_gpu _ h := by cases h
  apart coin hcoin coin' hcoin' _ _ _ _ h := by
    have hplain : ∀ coin ∈ ["eth".toList, "xmr".toList],
        '\\' ∉ coin ∧ ∀ n ∈ QString.markers coin, 2 < n := by decide
    exact (flagName_inj (hplain coin hcoin) (hplain coin' hcoin')).mp h

/-- All workers open their device, and are idle when they are looked at. -/
def opening (_ : QString) : Bool := true

def idle (_ : QString) : MinerThreadState := .Exit

/-- The second start is for a device that is flagged for the same coin. -/
def startedTwice : List Op :=
  [.cliGpu "xmr".toList "1_0".toList opening idle, .cliGpu "xmr".toList "1_0".toList opening idle]

theorem fresh_new : new.Fresh twoCards := ⟨by decide, fun _ => rfl⟩

theorem startedTwice_exclusive :
    ∃ t, exec (step twoCards) new startedTwice = some t ∧ t.Exclusive twoCards := by
  obtain ⟨t, hrun⟩ := Option.isSome_iff_exists.mp
    (by decide : (exec (step twoCards) new startedTwice).isSome = true)
  exact ⟨t, hrun, (exclusive_along_iff fresh_new).mpr (by decide) _ t (List.prefix_refl _) hrun⟩

/-- The login restarts the worker, and takes the flag down that the command line had put up. -/
def startedThenLoggedIn : List Op :=
  .cliGpu "xmr".toList "1_0".toList opening idle :: loggedIn twoCards opening idle

theorem login_drops_flag :
    ¬ ∀ (rig : Rig) (s : GpuFlags) (ops : List Op), s.Fresh rig →
      ∀ done t, done <+: ops → exec (step rig) s done = some t → t.Exclusive rig := by
  intro h
  have hend : (exec (step twoCards) new startedThenLoggedIn).map (fun t =>
      (t.started "1_0".toList, t.gpuRunning "xmr".toList "1_0".toList)) =
        some (some "xmr".toList, false) := by decide
  obtain ⟨t, hrun, hview⟩ := Option.map_eq_some_iff.mp hend
  obtain ⟨hstarted, hoff⟩ := Prod.mk.inj hview
  have hon := (h twoCards new startedThenLoggedIn fresh_new _ t (List.prefix_refl _) hrun).shown
    "xmr".toList "1_0".toList hstarted
  rw [hoff] at hon
  cases hon

end GpuFlags
end MinerGate
