import MinerGate.Coins.CoreAccounting

/-!
# The names of the merged-mining targets

A coin carries the merged mining of the coin that its settings name. The name comes from the
settings or from the command line, which validates the ticker after the `+` and takes the part
before it as it is. Where the name is no key of the map, the lookup gives a null coin; some of its
uses are reached only in later states of the coins.
-/

namespace MinerGate

set_option autoImplicit false

open Transition

/-- The coins with the number of workers that each counts. -/
structure MergedTargets where
  manager : CoinManager
  workersCount : QString → UInt32

namespace MergedTargets

/-- What the settings name for the coin. -/
def mergedMining (s : MergedTargets) (key : QString) : QString :=
  (s.manager.coin key).mergedMining

def setWorkersCount (s : MergedTargets) (key : QString) (workers_count : UInt32) : MergedTargets :=
  { s with workersCount := Function.update s.workersCount key workers_count }

/-- A worker is counted where there is none. -/
def countWorker (s : MergedTargets) (key : QString) : MergedTargets :=
  if s.workersCount key = 0 then s.setWorkersCount key 1 else s

/-- The name is looked up, when there is one, and a worker counted for what is found; `none` when
that is a null coin. -/
def countTarget (s : MergedTargets) (key : QString) : Option MergedTargets :=
  let name := s.mergedMining key
  if name = [] then some s
  else if name ∈ s.manager.m_miners then some (s.countWorker name)
  else none

def writeMergedMining (s : MergedTargets) (key merged_mining_coin : QString) : MergedTargets :=
  { s with
    manager := s.manager.set key
      { s.manager.coin key with mergedMining := merged_mining_coin } }

def setMergedMining (s : MergedTargets) (key merged_mining_coin : QString) : Option MergedTargets :=
  if s.mergedMining key ≠ merged_mining_coin then
    let s := s.writeMergedMining key merged_mining_coin
    if (s.manager.coin key).m_cpuState = .Running then s.countTarget key else some s
  else some s

def setCpuState (s : MergedTargets) (key : QString) (state : CpuMinerState) :
    Option MergedTargets :=
  if (s.manager.coin key).m_cpuState ≠ state then
    let counted := if state = .Running then (s.countWorker key).countTarget key else some s
    counted.bind fun s =>
      (s.manager.setCpuState CoinManager.check key state).map fun manager => { s with manager }
  else some s

def insertState : List (QString × GpuState) → QString → GpuState → List (QString × GpuState)
  | [], deviceKey, state => [(deviceKey, state)]
  | e :: states, deviceKey, state =>
    if e.1 = deviceKey then (deviceKey, state) :: states
    else e :: insertState states deviceKey state

/-- `setFn` of `setGpuState`. -/
def setGpuStateOf (s : MergedTargets) (key : QString) (state : GpuState) (deviceKey : QString) :
    Option MergedTargets :=
  let c := s.manager.coin key
  if (c.m_gpuStates.lookup deviceKey).getD .Stopped ≠ state then
    let states := insertState c.m_gpuStates deviceKey state
    let s := { s with manager := s.manager.set key { c with m_gpuStates := states } }
    if state = .Running ∧ s.workersCount key = 0 then
      (s.setWorkersCount key 1).countTarget key
    else some s
  else some s

def setGpuState (s : MergedTargets) (key : QString) (state : GpuState) (deviceKey : QString) :
    Option MergedTargets :=
  if deviceKey = [] then
    ((s.manager.coin key).m_gpuStates.map (·.1)).foldlM (fun s k => s.setGpuStateOf key state k) s
  else s.setGpuStateOf key state deviceKey

def setCpuCores (s : MergedTargets) (key : QString) (cpu_cores : UInt32) : Option MergedTargets :=
  (s.manager.setCpuCores CoinManager.check key cpu_cores).map fun manager => { s with manager }

def minerStateChanged (s : MergedTargets) (key : QString) : Option MergedTargets :=
  (s.manager.stateChangedSignal CoinManager.check key).map fun manager => { s with manager }

def setCpuRunning (s : MergedTargets) (key : QString) (on : Bool) : MergedTargets :=
  { s with manager := s.manager.set key { s.manager.coin key with cpuRunning := on } }

def setGpuRunning (s : MergedTargets) (key : QString) (on : Bool) : MergedTargets :=
  { s with manager := s.manager.set key { s.manager.coin key with gpuRunning := on } }

end MergedTargets

/-- A coin that the command line defines the CPU mining of. -/
structure CpuDefinition where
  key : QString
  mergedMining : QString
  threads : UInt32
deriving DecidableEq, Repr

inductive StateChange where
  | setCpuState (key : QString) (state : CpuMinerState)
  | setGpuState (key : QString) (state : GpuState) (deviceKey : QString)
  | setCpuCores (key : QString) (cpu_cores : UInt32)
  | setCpuRunning (key : QString) (on : Bool)
  | setGpuRunning (key : QString) (on : Bool)
  | stateChanged (key : QString)
deriving DecidableEq, Repr

def StateChange.key : StateChange → QString
  | setCpuState key _ | setGpuState key _ _ | setCpuCores key _ | setCpuRunning key _
  | setGpuRunning key _ | stateChanged key => key

namespace MergedTargets

/-- What `main` does for a coin of the command line; `none` when a null coin is used in it. -/
def define (s : MergedTargets) (d : CpuDefinition) : Option MergedTargets :=
  (s.setMergedMining d.key d.mergedMining).bind fun s =>
    (if d.threads ≠ 0 then s.setCpuCores d.key d.threads else some s).map fun s =>
      s.setCpuRunning d.key (d.threads ≠ 0)

/-- A call on a coin; `none` when a null coin is used in it. -/
def step (s : MergedTargets) : StateChange → Option MergedTargets
  | .setCpuState key state => s.setCpuState key state
  | .setGpuState key state deviceKey => s.setGpuState key state deviceKey
  | .setCpuCores key cpu_cores => s.setCpuCores key cpu_cores
  | .setCpuRunning key on => some (s.setCpuRunning key on)
  | .setGpuRunning key on => some (s.setGpuRunning key on)
  | .stateChanged key => s.minerStateChanged key

end MergedTargets

/-- What `main` looks up for the arguments: the coins by the lower case of their tickers, and the
number of threads, as `toUInt` reads it, or as many as there are. -/
structure CommandLine where
  minersByTicker : QString → Option QString
  toUInt : QString → Option UInt32
  MAXTHREADS : UInt32

namespace CommandLine
variable (cli : CommandLine)

def dashes : QString := ['-', '-']

/-- The loop over the arguments takes this one as a currency to mine on the CPU. -/
def IsCurrency (arg : QString) : Prop :=
  dashes <+: arg ∧ arg ≠ dashes ++ ['u', 's', 'e', 'r'] ∧
    arg ≠ dashes ++ ['v', 'e', 'r', 'b', 'o', 's', 'e'] ∧ ¬ dashes ++ ['g', 'p', 'u'] <+: arg

instance (arg : QString) : Decidable (IsCurrency arg) :=
  inferInstanceAs (Decidable (_ ∧ _ ∧ _ ∧ _))

/-- The merged-mining part and the lower case of the ticker. -/
def splitCoin (arg : QString) : Option (QString × QString) :=
  match (arg.remove dashes).splitOn '+' with
  | [mergedMining, ticker] => some (mergedMining, ticker.map Char.toLower)
  | [ticker] => some ([], ticker.map Char.toLower)
  | _ => none

/-- The loop over the arguments, each with the one after it, and the tickers that have been defined:
the coins that it defines; `none` when the program exits. -/
def definitions : List QString → List (QString × QString) → Option (List CpuDefinition)
  | _, [] => some []
  | cpuMiners, (arg, next) :: args =>
    if IsCurrency arg then
      (splitCoin arg).bind fun (mergedMining, ticker) =>
        (cli.minersByTicker ticker).bind fun key =>
          if ticker ∈ cpuMiners then definitions cpuMiners args
          else
            (definitions (ticker :: cpuMiners) args).map fun ds =>
              ⟨key, mergedMining, (cli.toUInt next).getD cli.MAXTHREADS⟩ :: ds
    else definitions cpuMiners args

end CommandLine

namespace CoinManager
variable {s t u : CoinManager} {key : QString} {c : Coin} {state : CpuMinerState} {cores : UInt32}

/-- Both have the same coins, with the same names of targets. -/
structure SameNames (s t : CoinManager) : Prop where
  miners : t.m_miners = s.m_miners
  names : ∀ key, (t.coin key).mergedMining = (s.coin key).mergedMining

/-- Every coin names no target or one of the coins. -/
def Named (miners : List QString) (names : QString → QString) : Prop :=
  ∀ key ∈ miners, names key = [] ∨ names key ∈ miners

theorem SameNames.refl : s.SameNames s := ⟨rfl, fun _ => rfl⟩

theorem SameNames.trans (hst : s.SameNames t) (htu : t.SameNames u) : s.SameNames u where
  miners := htu.miners.trans hst.miners
  names key := (htu.names key).trans (hst.names key)

theorem sameNames_set (hc : c.mergedMining = (s.coin key).mergedMining) :
    s.SameNames (s.set key c) := by
  constructor
  · rfl
  · exact related_set (P := fun c c' => c'.mergedMining = c.mergedMining) rfl (fun _ => rfl) hc

theorem sameNames_settle : s.SameNames s.settle :=
  ⟨rfl, fun _ => between_settle.mergedMining⟩

theorem sameNames_writeCpuState : s.SameNames (s.writeCpuState key state) := by
  have hcounted : ∀ v : CoinManager, v.m_miners = s.m_miners → v.coin = s.coin →
      s.SameNames (v.set key { s.coin key with m_cpuState := state }) := by
    intro v hminers hcoin
    have hv : s.SameNames v := ⟨hminers, fun k => by rw [hcoin]⟩
    exact hv.trans (sameNames_set (by rw [hcoin]))
  unfold writeCpuState
  apply hcounted
  · cases state <;> simp only <;> split_ifs <;> rfl
  · cases state <;> simp only <;> split_ifs <;> rfl

theorem sameNames_writeCpuCores : s.SameNames (s.writeCpuCores key cores) := by
  simp only [writeCpuCores]
  split
  · have hcounted : s.SameNames ((s.subtractCores (s.coin key).cpuCores).addCores cores) :=
      ⟨rfl, fun _ => rfl⟩
    exact hcounted.trans (sameNames_set rfl)
  · exact sameNames_set rfl

theorem writeCpuCores_coin (k : QString) : (s.writeCpuCores key cores).coin k =
    { s.coin k with cpuCores := ((s.writeCpuCores key cores).coin k).cpuCores } := by
  have hcounted : ∀ v : CoinManager, v.coin = s.coin →
      (v.set key { s.coin key with cpuCores := cores }).coin k =
        { s.coin k with
          cpuCores := ((v.set key { s.coin key with cpuCores := cores }).coin k).cpuCores } := by
    intro v hv
    exact related_set (P := fun c c' => c' = { c with cpuCores := c'.cpuCores })
      hv (fun _ => rfl) rfl k
  simp only [writeCpuCores]
  split
  · exact hcounted _ rfl
  · exact hcounted _ rfl

theorem targetsExist_writeCpuCores : (s.writeCpuCores key cores).TargetsExist ↔ s.TargetsExist := by
  have hcpuRunning : ∀ k, ((s.writeCpuCores key cores).coin k).cpuRunning =
      (s.coin k).cpuRunning := fun k => by rw [writeCpuCores_coin]
  have hgpuRunning : ∀ k, ((s.writeCpuCores key cores).coin k).gpuRunning =
      (s.coin k).gpuRunning := fun k => by rw [writeCpuCores_coin]
  simp only [TargetsExist, Mining, hcpuRunning, hgpuRunning, sameNames_writeCpuCores.names,
    sameNames_writeCpuCores.miners]

/-- A signal runs the check at once, which ends where all targets exist and keeps the names. -/
theorem sameNames_signal (h : stateChangedSignal check s key = some t) : s.SameNames t := by
  rw [stateChangedSignal] at h
  split at h
  case isTrue =>
    rw [eq_settle_of_check (Nat.lt_succ_self _) h]
    exact sameNames_settle
  case isFalse =>
    cases h
    exact .refl

theorem check_isSome : s.check.isSome ↔ s.TargetsExist := by
  constructor
  · intro h
    obtain ⟨t, ht⟩ := Option.isSome_iff_exists.mp h
    exact targetsExist_of_check ht
  · intro hs
    rw [check, checkMergeMiningInProgress_eq hs (Nat.lt_succ_of_le wrong_le_length)]
    rfl

theorem signal_isSome : (stateChangedSignal check s key).isSome ↔
    ((s.coin key).connected = true → s.TargetsExist) := by
  unfold stateChangedSignal
  split
  case isTrue h => simp [h, check_isSome]
  case isFalse h => simp [h]

def names (s : CoinManager) (key : QString) : QString := (s.coin key).mergedMining

theorem Named.targetsExist (h : Named s.m_miners s.names) : s.TargetsExist := by
  intro key hkey _ hne
  exact (h key hkey).resolve_left hne

theorem SameNames.named_iff (h : s.SameNames t) :
    Named t.m_miners t.names ↔ Named s.m_miners s.names := by
  rw [h.miners, show t.names = s.names from funext h.names]

theorem sameNames_setCpuState (h : setCpuState check s key state = some t) : s.SameNames t := by
  rw [setCpuState] at h
  split at h
  case isTrue => exact sameNames_writeCpuState.trans (sameNames_signal h)
  case isFalse =>
    cases h
    exact .refl

theorem sameNames_setCpuCores (h : setCpuCores check s key cores = some t) : s.SameNames t := by
  rw [setCpuCores] at h
  split at h
  case isTrue => exact sameNames_writeCpuCores.trans (sameNames_signal h)
  case isFalse =>
    cases h
    exact .refl

theorem signal_of_named (h : Named s.m_miners s.names) (ht : s.SameNames t) :
    (stateChangedSignal check t key).isSome :=
  signal_isSome.mpr fun _ => (ht.named_iff.mpr h).targetsExist

theorem setCpuState_of_named (h : Named s.m_miners s.names) :
    (setCpuState check s key state).isSome := by
  unfold setCpuState
  split
  · exact signal_of_named h sameNames_writeCpuState
  · rfl

theorem setCpuCores_of_named (h : Named s.m_miners s.names) :
    (setCpuCores check s key cores).isSome := by
  unfold setCpuCores
  split
  · exact signal_of_named h sameNames_writeCpuCores
  · rfl

/-- A check brings no coin to the state `Running`. -/
theorem setCpuState_stopped (h : setCpuState check s key .Stopped = some t) :
    (t.coin key).m_cpuState ≠ .Running := by
  have hstopped : ((s.writeCpuState key .Stopped).coin key).m_cpuState = .Stopped := by
    simp [writeCpuState]
  rw [setCpuState] at h
  split at h
  case isTrue =>
    rw [stateChangedSignal] at h
    split at h
    case isTrue =>
      rw [eq_settle_of_check (Nat.lt_succ_self _) h]
      intro hrun
      have hcpu := goalCpu_running hrun
      rw [hstopped] at hcpu
      cases hcpu
    case isFalse =>
      cases h
      rw [hstopped]
      decide
  case isFalse hne =>
    cases h
    rw [not_not.mp hne]
    decide

end CoinManager

namespace MergedTargets
variable {s t u : MergedTargets} {key deviceKey : QString} {state : CpuMinerState}
  {gpuState : GpuState} {cores : UInt32} {d : CpuDefinition} {ds : List CpuDefinition}
  {change : StateChange} {changes : List StateChange}

open CoinManager (SameNames)

/-- Every coin names no target or one of the coins. -/
def Named (s : MergedTargets) : Prop := CoinManager.Named s.manager.m_miners s.mergedMining

@[simp] theorem countWorker_manager : (s.countWorker key).manager = s.manager := by
  unfold countWorker
  split <;> rfl

theorem countTarget_eq_some (h : s.countTarget key = some t) : t.manager = s.manager := by
  simp only [countTarget] at h
  split_ifs at h
  · cases h
    rfl
  · cases h
    exact countWorker_manager

theorem countTarget_isSome : (s.countTarget key).isSome ↔
    (s.mergedMining key = [] ∨ s.mergedMining key ∈ s.manager.m_miners) := by
  simp only [countTarget]
  by_cases hempty : s.mergedMining key = []
  · simp [hempty]
  · by_cases hmem : s.mergedMining key ∈ s.manager.m_miners <;> simp [hempty, hmem]

theorem sameNames_setCpuState (h : s.setCpuState key state = some t) :
    s.manager.SameNames t.manager := by
  rw [setCpuState] at h
  split at h
  case isFalse =>
    cases h
    exact .refl
  case isTrue =>
    obtain ⟨u, hu, h⟩ := Option.bind_eq_some_iff.mp h
    obtain ⟨manager, hmanager, rfl⟩ := Option.map_eq_some_iff.mp h
    have hsame : u.manager = s.manager := by
      split at hu
      case isTrue => rw [countTarget_eq_some hu, countWorker_manager]
      case isFalse =>
        cases hu
        rfl
    rw [hsame] at hmanager
    exact CoinManager.sameNames_setCpuState hmanager

theorem sameNames_setGpuStateOf (h : s.setGpuStateOf key gpuState deviceKey = some t) :
    s.manager.SameNames t.manager := by
  simp only [setGpuStateOf] at h
  split at h
  case isFalse =>
    cases h
    exact .refl
  case isTrue =>
    split at h
    case isTrue =>
      rw [countTarget_eq_some h]
      exact CoinManager.sameNames_set rfl
    case isFalse =>
      cases h
      exact CoinManager.sameNames_set rfl

theorem sameNames_setGpuState (h : s.setGpuState key gpuState deviceKey = some t) :
    s.manager.SameNames t.manager := by
  rw [setGpuState] at h
  split at h
  case isFalse => exact sameNames_setGpuStateOf h
  case isTrue =>
    have hloop := Settling.foldlM_eq_some (I := fun u => s.manager.SameNames u.manager)
      (P := fun _ => True)
      (fun u k v _ hu hv => ⟨hu.trans (sameNames_setGpuStateOf hv), trivial⟩) .refl h
    exact hloop.1

/-- A call after the command line keeps the names. -/
theorem step_sameNames (h : s.step change = some t) : s.manager.SameNames t.manager := by
  cases change with
  | setCpuState key state => exact sameNames_setCpuState h
  | setGpuState key gpuState deviceKey => exact sameNames_setGpuState h
  | setCpuCores key cores =>
    obtain ⟨manager, hmanager, rfl⟩ := Option.map_eq_some_iff.mp h
    exact CoinManager.sameNames_setCpuCores hmanager
  | setCpuRunning key on =>
    cases h
    exact CoinManager.sameNames_set rfl
  | setGpuRunning key on =>
    cases h
    exact CoinManager.sameNames_set rfl
  | stateChanged key =>
    obtain ⟨manager, hmanager, rfl⟩ := Option.map_eq_some_iff.mp h
    exact CoinManager.sameNames_signal hmanager

theorem setCpuState_of_named (hs : s.Named) (hkey : key ∈ s.manager.m_miners) :
    (s.setCpuState key state).isSome := by
  rw [setCpuState]
  split
  case isFalse => rfl
  case isTrue =>
    have hcounted : ∃ u, (if state = .Running then (s.countWorker key).countTarget key
        else some s) = some u ∧ u.manager = s.manager := by
      split
      case isTrue =>
        have hsome : ((s.countWorker key).countTarget key).isSome := by
          rw [countTarget_isSome, mergedMining, countWorker_manager]
          exact hs key hkey
        obtain ⟨u, hu⟩ := Option.isSome_iff_exists.mp hsome
        exact ⟨u, hu, by rw [countTarget_eq_some hu, countWorker_manager]⟩
      case isFalse => exact ⟨s, rfl, rfl⟩
    obtain ⟨u, hu, hsame⟩ := hcounted
    simp only [hu, Option.bind_some, Option.isSome_map]
    rw [hsame]
    exact CoinManager.setCpuState_of_named hs

theorem setGpuStateOf_of_named (hs : s.Named) (hkey : key ∈ s.manager.m_miners) :
    (s.setGpuStateOf key gpuState deviceKey).isSome := by
  simp only [setGpuStateOf]
  split
  case isFalse => rfl
  case isTrue =>
    split
    case isFalse => rfl
    case isTrue =>
      rw [countTarget_isSome]
      simp only [mergedMining, setWorkersCount, CoinManager.set_coin_self]
      exact hs key hkey

theorem Named.of_sameNames (hs : s.Named) (h : s.manager.SameNames t.manager) : t.Named :=
  h.named_iff.mpr hs

theorem setGpuState_of_named (hs : s.Named) (hkey : key ∈ s.manager.m_miners) :
    (s.setGpuState key gpuState deviceKey).isSome := by
  rw [setGpuState]
  split
  case isFalse => exact setGpuStateOf_of_named hs hkey
  case isTrue =>
    have hpass : ∀ k (u : MergedTargets), s.manager.SameNames u.manager →
        ∃ v, u.setGpuStateOf key gpuState k = some v ∧ s.manager.SameNames v.manager := by
      intro k u hu
      have hsome : (u.setGpuStateOf key gpuState k).isSome :=
        setGpuStateOf_of_named (hs.of_sameNames hu) (by rw [hu.miners]; exact hkey)
      obtain ⟨v, hv⟩ := Option.isSome_iff_exists.mp hsome
      exact ⟨v, hv, hu.trans (sameNames_setGpuStateOf hv)⟩
    obtain ⟨t, ht, -⟩ := Settling.foldlM_invariant (I := fun _ u => s.manager.SameNames u.manager)
      (fun _ k u _ hu => hpass k u hu) .refl
    rw [ht]
    rfl

/-- Where every coin names no target or one of the coins, no call uses a null coin. -/
theorem step_of_named (hs : s.Named) (hkey : change.key ∈ s.manager.m_miners) :
    (s.step change).isSome := by
  cases change with
  | setCpuState key state => exact setCpuState_of_named hs hkey
  | setGpuState key gpuState deviceKey => exact setGpuState_of_named hs hkey
  | setCpuCores key cores =>
    rw [step, setCpuCores, Option.isSome_map]
    exact CoinManager.setCpuCores_of_named hs
  | setCpuRunning key on => rfl
  | setGpuRunning key on => rfl
  | stateChanged key =>
    rw [step, minerStateChanged, Option.isSome_map]
    exact CoinManager.signal_of_named hs .refl

theorem changes_of_named (hs : s.Named)
    (hkeys : ∀ change ∈ changes, change.key ∈ s.manager.m_miners) :
    (exec step s changes).isSome := by
  induction changes generalizing s with
  | nil => rfl
  | cons change changes ih =>
    obtain ⟨hkey, hkeys⟩ := List.forall_mem_cons.mp hkeys
    obtain ⟨t, ht⟩ := Option.isSome_iff_exists.mp (step_of_named hs hkey)
    have hsame := step_sameNames ht
    rw [exec, ht, Option.bind_some]
    apply ih (hs.of_sameNames hsame)
    intro change hchange
    rw [hsame.miners]
    exact hkeys change hchange

/-- A coin that names something else uses a null coin when it starts to run. -/
theorem run_of_unnamed (hne : s.mergedMining key ≠ [])
    (hnot : s.mergedMining key ∉ s.manager.m_miners) :
    exec step s [.setCpuState key .Stopped, .setCpuState key .Running] = none := by
  cases hstop : s.step (.setCpuState key .Stopped) with
  | none => rw [exec, hstop, Option.bind_none]
  | some t =>
    have hsame := step_sameNames hstop
    have hrun : (t.manager.coin key).m_cpuState ≠ .Running := by
      rw [step, setCpuState] at hstop
      split at hstop
      case isTrue =>
        obtain ⟨manager, hmanager, rfl⟩ := Option.map_eq_some_iff.mp hstop
        exact CoinManager.setCpuState_stopped hmanager
      case isFalse hstopped =>
        cases hstop
        rw [not_not.mp hstopped]
        decide
    have hnull : (t.countWorker key).countTarget key = none := by
      rw [← Option.not_isSome_iff_eq_none, countTarget_isSome, mergedMining, countWorker_manager,
        hsame.names, hsame.miners]
      rintro (h | h)
      · exact hne h
      · exact hnot h
    rw [exec, hstop, Option.bind_some, exec, step, setCpuState, if_pos hrun]
    simp only [hnull, if_true, Option.bind_none]

/-- Reading the coin from the command line uses no null coin: while the coin runs its new name is
looked up, and with a new number of threads all names are. -/
structure Guard (s : MergedTargets) (d : CpuDefinition) : Prop where
  target : d.mergedMining ≠ s.mergedMining d.key → (s.manager.coin d.key).m_cpuState = .Running →
    d.mergedMining = [] ∨ d.mergedMining ∈ s.manager.m_miners
  targets : d.threads ≠ 0 → d.threads ≠ (s.manager.coin d.key).cpuCores →
    (s.manager.coin d.key).connected = true →
      (s.writeMergedMining d.key d.mergedMining).manager.TargetsExist

instance (s : MergedTargets) (d : CpuDefinition) : Decidable (s.Guard d) :=
  decidable_of_iff (_ ∧ _) ⟨fun h => ⟨h.1, h.2⟩, fun h => ⟨h.target, h.targets⟩⟩

theorem writeMergedMining_self (h : s.mergedMining d.key = d.mergedMining) :
    (s.writeMergedMining d.key d.mergedMining).manager = s.manager := by
  rw [writeMergedMining, ← h]
  simp only [CoinManager.set, mergedMining, Function.update_eq_self]

theorem setMergedMining_manager (h : s.setMergedMining d.key d.mergedMining = some t) :
    t.manager = (s.writeMergedMining d.key d.mergedMining).manager := by
  simp only [setMergedMining] at h
  split at h
  case isTrue =>
    split at h
    case isTrue => rw [countTarget_eq_some h]
    case isFalse =>
      cases h
      rfl
  case isFalse hsame =>
    cases h
    rw [writeMergedMining_self (not_not.mp hsame)]

theorem setMergedMining_isSome : (s.setMergedMining d.key d.mergedMining).isSome ↔
    (d.mergedMining ≠ s.mergedMining d.key → (s.manager.coin d.key).m_cpuState = .Running →
      d.mergedMining = [] ∨ d.mergedMining ∈ s.manager.m_miners) := by
  have hcpu : ((s.writeMergedMining d.key d.mergedMining).manager.coin d.key).m_cpuState =
      (s.manager.coin d.key).m_cpuState := by
    rw [writeMergedMining, CoinManager.set_coin_self]
  have hname : (s.writeMergedMining d.key d.mergedMining).mergedMining d.key = d.mergedMining := by
    rw [mergedMining, writeMergedMining, CoinManager.set_coin_self]
  simp only [setMergedMining, hcpu]
  by_cases hne : s.mergedMining d.key = d.mergedMining
  · simp [hne]
  · by_cases hrun : (s.manager.coin d.key).m_cpuState = .Running
    · simp only [ne_eq, hne, not_false_eq_true, if_true, hrun, countTarget_isSome, hname,
        Ne.symm hne, forall_const]
      exact Iff.rfl
    · simp [hne, hrun]

theorem setCpuCores_isSome : (s.setCpuCores key cores).isSome ↔
    (cores ≠ (s.manager.coin key).cpuCores → (s.manager.coin key).connected = true →
      s.manager.TargetsExist) := by
  have hconnected : ((s.manager.writeCpuCores key cores).coin key).connected =
      (s.manager.coin key).connected := by
    rw [CoinManager.writeCpuCores_coin]
  rw [setCpuCores, Option.isSome_map, CoinManager.setCpuCores]
  by_cases hne : (s.manager.coin key).cpuCores = cores
  · simp [hne]
  · rw [if_pos hne, CoinManager.signal_isSome, CoinManager.targetsExist_writeCpuCores, hconnected]
    simp [Ne.symm hne]

theorem define_isSome : (s.define d).isSome ↔ s.Guard d := by
  by_cases hsome : (s.setMergedMining d.key d.mergedMining).isSome
  · obtain ⟨t, ht⟩ := Option.isSome_iff_exists.mp hsome
    have hmanager := setMergedMining_manager ht
    have hcores : (t.manager.coin d.key).cpuCores = (s.manager.coin d.key).cpuCores := by
      rw [hmanager, writeMergedMining, CoinManager.set_coin_self]
    have hconnected : (t.manager.coin d.key).connected = (s.manager.coin d.key).connected := by
      rw [hmanager, writeMergedMining, CoinManager.set_coin_self]
    have hread : (s.define d).isSome ↔
        (d.threads ≠ 0 → (t.setCpuCores d.key d.threads).isSome) := by
      rw [define, ht, Option.bind_some, Option.isSome_map]
      by_cases hthreads : d.threads = 0 <;> simp [hthreads]
    rw [hread, setCpuCores_isSome, hcores, hconnected, hmanager]
    exact ⟨fun h => ⟨setMergedMining_isSome.mp hsome, h⟩, fun h => h.targets⟩
  · have hnone := Option.not_isSome_iff_eq_none.mp hsome
    rw [define, hnone, Option.bind_none]
    constructor
    · intro h
      cases h
    · intro h
      exact absurd (setMergedMining_isSome.mpr h.target) hsome

/-- A coin of the command line gets the name before the `+`, as it is. -/
theorem define_names (h : s.define d = some t) : t.manager.m_miners = s.manager.m_miners ∧
    t.mergedMining = Function.update s.mergedMining d.key d.mergedMining := by
  obtain ⟨u, hu, h⟩ := Option.bind_eq_some_iff.mp h
  obtain ⟨v, hv, rfl⟩ := Option.map_eq_some_iff.mp h
  have huv : u.manager.SameNames v.manager := by
    split at hv
    case isTrue =>
      obtain ⟨manager, hmanager, rfl⟩ := Option.map_eq_some_iff.mp hv
      exact CoinManager.sameNames_setCpuCores hmanager
    case isFalse =>
      cases hv
      exact .refl
  have hsame : u.manager.SameNames (v.setCpuRunning d.key (d.threads ≠ 0)).manager :=
    huv.trans (CoinManager.sameNames_set rfl)
  have hmanager := setMergedMining_manager hu
  constructor
  · rw [hsame.miners, hmanager]
    rfl
  · funext k
    rw [mergedMining, hsame.names, hmanager, writeMergedMining]
    by_cases hk : k = d.key
    · rw [hk, CoinManager.set_coin_self, Function.update_self]
    · rw [CoinManager.set_coin_of_ne _ _ hk, Function.update_of_ne hk, mergedMining]

/-- The names once the command line has been read. -/
def namesRead (names : QString → QString) (ds : List CpuDefinition) : QString → QString :=
  ds.foldl (fun names d => Function.update names d.key d.mergedMining) names

theorem namesRead_eq (h : exec define s ds = some t) : t.manager.m_miners = s.manager.m_miners ∧
    t.mergedMining = namesRead s.mergedMining ds := by
  induction ds generalizing s with
  | nil =>
    rw [exec_nil, Option.some.injEq] at h
    rw [h]
    exact ⟨rfl, rfl⟩
  | cons d ds ih =>
    obtain ⟨u, hu, ht⟩ := exec_cons.mp h
    obtain ⟨hminers, hnames⟩ := define_names hu
    obtain ⟨htminers, htnames⟩ := ih ht
    rw [htminers, htnames, hminers, hnames]
    exact ⟨rfl, rfl⟩

/-- No null coin is used, neither while the command line is read nor after it, exactly when every
name that the coins have then is empty or a coin's key, and so are those looked up before. -/
theorem null_free_iff (s : MergedTargets) (cli : CommandLine) (args : List (QString × QString)) :
    ∀ ds ∈ cli.definitions [] args,
      ((∀ changes, (∀ change ∈ changes, change.key ∈ s.manager.m_miners) →
        ((exec define s ds).bind fun t => exec step t changes).isSome) ↔
      Along define Guard s ds ∧
        CoinManager.Named s.manager.m_miners (namesRead s.mergedMining ds)) := by
  intro ds _
  constructor
  · intro h
    have hread : (exec define s ds).isSome := by
      have hnow := h [] (by simp)
      cases hs : exec define s ds with
      | none =>
        rw [hs] at hnow
        cases hnow
      | some t => rfl
    refine ⟨(exec_isSome fun s d => define_isSome).mp hread, fun key hkey => ?_⟩
    obtain ⟨t, ht⟩ := Option.isSome_iff_exists.mp hread
    obtain ⟨hminers, hnames⟩ := namesRead_eq ht
    by_contra hnot
    rw [not_or, ← hnames, ← hminers] at hnot
    have hrun := h [.setCpuState key .Stopped, .setCpuState key .Running] (by
      simp [StateChange.key, hkey])
    rw [ht, Option.bind_some, run_of_unnamed hnot.1 hnot.2] at hrun
    cases hrun
  · rintro ⟨hguard, hnamed⟩ changes hkeys
    obtain ⟨t, ht⟩ := Option.isSome_iff_exists.mp
      ((exec_isSome fun s d => define_isSome).mpr hguard)
    obtain ⟨hminers, hnames⟩ := namesRead_eq ht
    rw [ht, Option.bind_some]
    apply changes_of_named
    · rw [Named, hminers, hnames]
      exact hnamed
    · intro change hchange
      rw [hminers]
      exact hkeys change hchange

def fcn : QString := ['f', 'c', 'n']

def mcn : QString := ['m', 'c', 'n']

def twoCoins : MergedTargets where
  manager :=
    { m_miners := [fcn, mcn]
      nodup := by decide
      coin := fun _ => ⟨.Stopped, [], 1, false, false, [], true⟩
      msUsedCores := 0
      underflowed := false }
  workersCount _ := 0

/-- The tickers are the keys, and one digit is a number of threads. -/
def twoTickers : CommandLine where
  minersByTicker ticker := if ticker ∈ [fcn, mcn] then some ticker else none
  toUInt := fun arg => match arg with
    | [c] => (QString.digitValue c).map fun n => UInt32.ofNat n
    | _ => none
  MAXTHREADS := 4

theorem null_free_two_coins :
    ∃ ds ∈ twoTickers.definitions [] [("--fcn+MCN".toList, ['2'])],
      ∀ changes, (∀ change ∈ changes, change.key ∈ twoCoins.manager.m_miners) →
        ((exec define twoCoins ds).bind fun t => exec step t changes).isSome := by
  have hread : twoTickers.definitions [] [("--fcn+MCN".toList, ['2'])] = some [⟨mcn, fcn, 2⟩] := by
    decide +kernel
  refine ⟨_, hread, (null_free_iff twoCoins twoTickers _ _ hread).mpr ⟨?_, ?_⟩⟩
  · decide +kernel
  · unfold CoinManager.Named
    decide +kernel

/-- The name that is given is the upper case of a key. -/
theorem upper_case_is_null :
    ¬ ∀ (s : MergedTargets) (cli : CommandLine) (args : List (QString × QString)),
      ∀ ds ∈ cli.definitions [] args, ∀ changes : List StateChange,
        (∀ change ∈ changes, change.key ∈ s.manager.m_miners) →
          ((exec define s ds).bind fun t => exec step t changes).isSome := by
  intro h
  have hread : twoTickers.definitions [] [("--FCN+MCN".toList, ['2'])] =
      some [⟨mcn, ['F', 'C', 'N'], 2⟩] := by
    decide +kernel
  have hsome := h twoCoins twoTickers _ _ hread [.setCpuState mcn .Running] (by decide)
  revert hsome
  decide +kernel

end MergedTargets
end MinerGate
