import Mathlib.Data.Char
import Mathlib.Data.List.Lex
import Mathlib.Data.List.Nodup
import Mathlib.Data.List.Sort
import MinerGate.Console.ArgumentParser

/-!
# The CPU threads of the command line

The number of threads goes from the argument through the coin's settings to the workers of its
miner. A zero is not stored, and nothing but an assertion compares it with the workers there are.
-/

namespace MinerGate.Console

set_option autoImplicit false

/-- The entries that a CPU option makes: ticker, coin and number of threads. -/
abbrev CpuEntry := QString × QString × UInt32

section Start
variable (P : Platform)

/-- The workers that the constructor of `AbstractMinerImpl` makes. -/
def workerCount : Nat := (if P.idealThreadCount ≤ 0 then 1 else P.idealThreadCount).toNat

/-- The loop of `AbstractMinerImpl::startCpu` from worker `i` on; `at` with an index that is not of
the list is undefined behaviour: `none`. -/
def startWorkers (workers : Nat) : Nat → Nat → Option (List Nat)
  | 0, _ => some []
  | remaining + 1, i =>
    if i < workers then (startWorkers workers remaining (i + 1)).map fun started => i :: started
    else none

def cpuCores (settings : QString → CoinSettings) (miner : QString) : UInt32 :=
  (settings miner).speed

/-- The settings of the coins, and the CPU workers of each that are running. -/
structure CpuMiners where
  settings : QString → CoinSettings
  workers : QString → List Nat

/-- Of `Coin::stopAll` what it does to the CPU workers; it leaves the settings as they are. -/
def stopAll (s : CpuMiners) (miner : QString) : CpuMiners :=
  { s with workers := Function.update s.workers miner [] }

def stopOther (s : CpuMiners) (miner : QString) : CpuMiners :=
  match P.coins.otherMiner miner with
  | some other => stopAll s other
  | none => s

def setStarted (s : CpuMiners) (miner : QString) (started : List Nat) : CpuMiners where
  settings k := if k = miner then { s.settings k with running := true } else s.settings k
  workers := Function.update s.workers miner started

/-- `Coin::startCpu`: the workers that are started, and what is set and runs after it. -/
def startCpu (s : CpuMiners) (miner : QString) : Option (List Nat × CpuMiners) :=
  let s := stopOther P s miner
  (startWorkers (workerCount P) (cpuCores s.settings miner).toNat 0).map fun started =>
    (started, setStarted s miner started)

/-- The loop of `main` over the CPU miners: the workers that each start has started, and what is
left in the end. -/
def startCpus : List CpuEntry → CpuMiners → Option (List (QString × List Nat) × CpuMiners)
  | [], s => some ([], s)
  | (ticker, miner, _) :: rest, s =>
    match startCpu P s miner with
    | none => none
    | some (started, s) =>
      (startCpus rest s).map fun r => ((ticker, started) :: r.1, r.2)

/-- The order in which `QMap` goes over its entries. -/
def byTicker (all : List CpuEntry) : List CpuEntry := all.insertionSort fun e e' => e.1 ≤ e'.1

end Start

section Given
variable (P : Platform)

/-- The options with which the argument is read as an option, if it is. -/
def optionAt (s : Options × Mode) (arg : QString) : Option Options :=
  match s.2 with
  | .option => some s.1
  | .count ticker miner mergedMining =>
    if (P.toUInt arg).isSome then none
    else some (startMiner s.1 ticker miner mergedMining (MAXTHREADS P))
  | .repeatedCount => if (P.toUInt arg).isSome then none else some s.1
  | .skipping =>
    if (paramKey arg).isSome ∨ (P.toUInt arg).isSome ∨ ¬ startsWith arg "--".toList then none
    else some s.1
  | .params ticker miner no params =>
    if startsWith arg "--".toList then some (addGpu P s.1 ticker miner no params) else none
  | .user | .currency _ | .value _ _ _ _ _ | .returned _ => none

/-- Neither an option of its own nor one for a GPU. -/
def isCpuOption (arg : QString) : Prop :=
  ¬ (arg = "--user".toList ∨ arg = "-u".toList) ∧ arg ≠ "--verbose".toList ∧
    ¬ startsWith arg "--gpu".toList ∧ startsWith arg "--".toList

instance (arg : QString) : Decidable (isCpuOption arg) := inferInstanceAs (Decidable (_ ∧ _))

/-- The number that follows, or the default. -/
def countIn (rest : List QString) : UInt32 :=
  (P.toUInt (rest.headD [])).getD (MAXTHREADS P)

/-- The coin that an option names for the first time. -/
def namedCoin (o : Options) (arg : QString) : Option (QString × QString) :=
  if isCpuOption arg then
    match coinOf P (arg.remove "--".toList) with
    | none => none
    | some (_, ticker) =>
      if hasCpu o ticker then none else (P.minersByTicker ticker).map fun miner => (ticker, miner)
  else none

def entryOf (o : Options) (arg : QString) (rest : List QString) : List CpuEntry :=
  ((namedCoin P o arg).map fun coin => (coin.1, coin.2, countIn P rest)).toList

/-- The coins that the arguments name for the CPU, each with the number that follows its name. -/
def given : Options × Mode → List QString → List CpuEntry
  | _, [] => []
  | s, arg :: rest =>
    ((optionAt P s arg).toList.flatMap fun o => entryOf P o arg rest) ++
      given (readArg P s arg) rest

end Given

section Entries
variable {P : Platform} {o : Options} {s : Options × Mode} {arg : QString} {rest : List QString}

theorem startMiner_cpuMiners (o : Options) (ticker miner mergedMining : QString)
    (threads : UInt32) : (startMiner o ticker miner mergedMining threads).cpuMiners =
      o.cpuMiners ++ [(ticker, miner, threads)] := by
  rw [startMiner]
  split <;> rfl

/-- The entries that are made, with the one whose number comes next. -/
def entries (P : Platform) (s : Options × Mode) (rest : List QString) : List CpuEntry :=
  match s.2 with
  | .count ticker miner _ => s.1.cpuMiners ++ [(ticker, miner, countIn P rest)]
  | _ => s.1.cpuMiners

theorem readOption_cases (P : Platform) (o : Options) (arg : QString) :
    (readOption P o arg).1.cpuMiners = o.cpuMiners ∧
      (readOption P o arg).1.settings = o.settings ∧
      ((∃ coin mergedMining, namedCoin P o arg = some coin ∧
          (readOption P o arg).2 = .count coin.1 coin.2 mergedMining) ∨
        namedCoin P o arg = none ∧ ∀ rest, entries P (readOption P o arg) rest = o.cpuMiners) := by
  rw [readOption]
  split
  case isTrue huser =>
    have hnamed : namedCoin P o arg = none := if_neg fun h => h.1 huser
    exact ⟨rfl, rfl, Or.inr ⟨hnamed, fun _ => rfl⟩⟩
  case isFalse huser =>
    split
    case isTrue hverbose =>
      have hnamed : namedCoin P o arg = none := if_neg fun h => h.2.1 hverbose
      exact ⟨rfl, rfl, Or.inr ⟨hnamed, fun _ => rfl⟩⟩
    case isFalse hverbose =>
      split
      case isTrue hgpu =>
        have hnamed : namedCoin P o arg = none := if_neg fun h => h.2.2.1 hgpu
        rw [readGpu]
        cases deviceOrderNo P arg with
        | none => exact ⟨rfl, rfl, Or.inr ⟨hnamed, fun _ => rfl⟩⟩
        | some no =>
          simp only
          split <;> exact ⟨rfl, rfl, Or.inr ⟨hnamed, fun _ => rfl⟩⟩
      case isFalse hgpu =>
        split
        case isFalse hcoin =>
          have hnamed : namedCoin P o arg = none := if_neg fun h => hcoin h.2.2.2
          exact ⟨rfl, rfl, Or.inr ⟨hnamed, fun _ => rfl⟩⟩
        case isTrue hcoin =>
          have hoption : isCpuOption arg := ⟨huser, hverbose, hgpu, hcoin⟩
          rw [namedCoin, if_pos hoption, readCpu]
          cases coinOf P (arg.remove "--".toList) with
          | none => exact ⟨rfl, rfl, Or.inr ⟨rfl, fun _ => rfl⟩⟩
          | some coin =>
            cases hminer : P.minersByTicker coin.2 with
            | none =>
              simp only [hminer, Option.map_none, ite_self]
              exact ⟨trivial, trivial, Or.inr ⟨trivial, fun _ => rfl⟩⟩
            | some miner =>
              simp only [hminer, Option.map_some]
              split
              case isTrue => exact ⟨rfl, rfl, Or.inr ⟨rfl, fun _ => rfl⟩⟩
              case isFalse => exact ⟨rfl, rfl, Or.inl ⟨_, _, rfl, rfl⟩⟩

theorem entries_readOption (o : Options) (arg : QString) (rest : List QString) :
    entries P (readOption P o arg) rest = o.cpuMiners ++ entryOf P o arg rest := by
  obtain ⟨hcpu, -, ⟨coin, mergedMining, hnamed, hmode⟩ | ⟨hnamed, hentries⟩⟩ :=
    readOption_cases P o arg
  · rw [entries, hmode, entryOf, hnamed, hcpu]
    rfl
  · rw [hentries, entryOf, hnamed]
    exact (List.append_nil _).symm

theorem countIn_cons_of_none (h : P.toUInt arg = none) :
    countIn P (arg :: rest) = MAXTHREADS P := by
  change (P.toUInt arg).getD _ = _
  rw [h]
  rfl

theorem countIn_cons_of_some {threads : UInt32} (h : P.toUInt arg = some threads) :
    countIn P (arg :: rest) = threads := by
  change (P.toUInt arg).getD _ = _
  rw [h]
  rfl

/-- An argument that is read as an option finds the entry before it made. -/
theorem optionAt_some (h : optionAt P s arg = some o) (rest : List QString) :
    o.cpuMiners = entries P s (arg :: rest) ∧ readArg P s arg = readOption P o arg := by
  obtain ⟨u, mode⟩ := s
  cases mode with
  | option =>
    cases h
    exact ⟨rfl, rfl⟩
  | count ticker miner mergedMining =>
    simp only [optionAt] at h
    cases hnumber : P.toUInt arg with
    | some threads => simp [hnumber] at h
    | none =>
      simp only [hnumber, Option.isSome_none, Bool.false_eq_true, if_false, Option.some.injEq] at h
      rw [← h, startMiner_cpuMiners, entries, countIn_cons_of_none hnumber, readArg]
      simp only [hnumber]
      exact ⟨trivial, trivial⟩
  | repeatedCount =>
    simp only [optionAt] at h
    split at h
    case isTrue => cases h
    case isFalse hnumber =>
      cases h
      exact ⟨rfl, if_neg hnumber⟩
  | skipping =>
    simp only [optionAt] at h
    split at h
    case isTrue => cases h
    case isFalse hskip =>
      cases h
      rw [not_or, not_or, not_not] at hskip
      refine ⟨rfl, ?_⟩
      rw [readArg_skipping, if_neg hskip.1, if_neg hskip.2.1, if_pos hskip.2.2]
  | params ticker miner no params =>
    simp only [optionAt] at h
    split at h
    case isFalse => cases h
    case isTrue hstart =>
      cases h
      refine ⟨rfl, ?_⟩
      rw [readArg_params, if_pos hstart]
  | user => cases h
  | currency no => cases h
  | value ticker miner no params key => cases h
  | returned code => cases h

theorem readCurrency_entries (o : Options) (no : UInt32) (text : QString) (rest : List QString) :
    entries P (readCurrency P o no text) rest = o.cpuMiners := by
  rw [readCurrency]
  cases coinOf P text with
  | none => rfl
  | some coin =>
    simp only
    cases P.minersByTicker coin.2 with
    | none => rfl
    | some miner =>
      simp only
      split <;> rfl

/-- An argument that is read as something else makes no entry but the one before it. -/
theorem optionAt_none (h : optionAt P s arg = none) (rest : List QString) :
    entries P (readArg P s arg) rest = entries P s (arg :: rest) := by
  obtain ⟨u, mode⟩ := s
  cases mode with
  | option => cases h
  | count ticker miner mergedMining =>
    simp only [optionAt] at h
    cases hnumber : P.toUInt arg with
    | none => simp [hnumber] at h
    | some threads =>
      simp only [readArg, hnumber, entries, startMiner_cpuMiners, countIn_cons_of_some hnumber]
  | repeatedCount =>
    simp only [optionAt] at h
    split at h
    case isTrue hnumber =>
      rw [readArg]
      simp only [hnumber, if_true]
      rfl
    case isFalse => cases h
  | skipping =>
    simp only [optionAt] at h
    split at h
    case isTrue hskip =>
      have hsame : readArg P (u, .skipping) arg = (u, .skipping) := by
        rw [readArg_skipping]
        split
        · rfl
        split
        · rfl
        · refine if_neg ?_
          tauto
      rw [hsame]
      rfl
    case isFalse => cases h
  | params ticker miner no params =>
    simp only [optionAt] at h
    split at h
    case isTrue => cases h
    case isFalse hstart =>
      rw [readArg_params, if_neg hstart]
      cases paramKey arg <;> rfl
  | user => rfl
  | currency no => exact readCurrency_entries u no arg rest
  | value ticker miner no params key =>
    rw [readArg]
    cases P.toUInt arg <;> rfl
  | returned code => rfl

theorem entries_readArg (s : Options × Mode) (arg : QString) (rest : List QString) :
    entries P (readArg P s arg) rest = entries P s (arg :: rest) ++
      (optionAt P s arg).toList.flatMap fun o => entryOf P o arg rest := by
  cases h : optionAt P s arg with
  | none =>
    rw [optionAt_none h]
    exact (List.append_nil _).symm
  | some o =>
    obtain ⟨hentries, hread⟩ := optionAt_some h rest
    rw [hread, entries_readOption, hentries, Option.toList_some, List.flatMap_singleton]

theorem entries_readAll (s : Options × Mode) (args : List QString) :
    entries P (readAll P args s) [] = entries P s args ++ given P s args := by
  induction args generalizing s with
  | nil => exact (List.append_nil _).symm
  | cons arg rest ih =>
    change entries P (readAll P rest (readArg P s arg)) [] = _
    rw [ih, entries_readArg, List.append_assoc]
    rfl

/-- What is parsed has the entries that are given. -/
theorem finish_cpuMiners (h : finish P s = .parsed o) : o.cpuMiners = entries P s [] := by
  obtain ⟨u, mode⟩ := s
  cases mode with
  | count ticker miner mergedMining =>
    cases h
    exact startMiner_cpuMiners u ticker miner mergedMining _
  | option | user | repeatedCount | skipping | params ticker miner no params =>
    cases h
    rfl
  | currency no => cases h
  | value ticker miner no params key => cases h
  | returned code => cases h

end Entries

section Tickers
variable {P : Platform} {o : Options} {s : Options × Mode} {arg : QString}

def tickers (all : List CpuEntry) : List QString := all.map Prod.fst

theorem not_mem_tickers {all : List CpuEntry} {ticker : QString}
    (h : (all.lookup ticker).isSome = false) : ticker ∉ tickers all := by
  intro hmem
  obtain ⟨e, he, rfl⟩ := List.mem_map.mp hmem
  have hsome : (all.lookup e.1).isSome = true := List.lookup_isSome_iff.mpr ⟨e, he, by simp⟩
  rw [hsome] at h
  cases h

theorem namedCoin_new {coin : QString × QString} (h : namedCoin P o arg = some coin) :
    coin.1 ∉ tickers o.cpuMiners := by
  rw [namedCoin] at h
  split at h
  case isFalse => cases h
  case isTrue =>
    split at h
    case h_1 => cases h
    case h_2 =>
      split at h
      case isTrue => cases h
      case isFalse hhas =>
        obtain ⟨miner, -, rfl⟩ := Option.map_eq_some_iff.mp h
        exact not_mem_tickers (Bool.not_eq_true _ ▸ hhas)

theorem entryOf_nodup (h : (tickers o.cpuMiners).Nodup) (rest : List QString) :
    (tickers (o.cpuMiners ++ entryOf P o arg rest)).Nodup := by
  rw [entryOf]
  cases hnamed : namedCoin P o arg with
  | none => simpa using h
  | some coin =>
    have hnew := namedCoin_new hnamed
    simp only [Option.map_some, Option.toList_some, tickers, List.map_append, List.map_cons,
      List.map_nil]
    exact List.nodup_append.mpr ⟨h, by simp, by
      rintro t ht t' ht' rfl
      rw [List.mem_singleton.mp ht'] at ht
      exact hnew ht⟩

/-- No ticker is given twice. -/
theorem given_nodup {args : List QString} (h : (tickers (entries P s args)).Nodup) :
    (tickers (entries P s args ++ given P s args)).Nodup := by
  induction args generalizing s with
  | nil => simpa [given] using h
  | cons arg rest ih =>
    have hread : (tickers (entries P (readArg P s arg) rest)).Nodup := by
      rw [entries_readArg]
      cases hoption : optionAt P s arg with
      | none => simpa using h
      | some o =>
        rw [← (optionAt_some hoption rest).1] at h ⊢
        simpa using entryOf_nodup h rest
    have hall := ih hread
    rw [entries_readArg, List.append_assoc] at hall
    exact hall

end Tickers

section Settings
variable {P : Platform} {o : Options} {s : Options × Mode} {arg : QString}

/-- The speed of a coin is a number that was given for it. -/
def Stored (o : Options) : Prop :=
  ∀ e ∈ o.cpuMiners, e.2.2 ≠ 0 →
    ∃ e' ∈ o.cpuMiners, e'.2.1 = e.2.1 ∧ cpuCores o.settings e.2.1 = e'.2.2

theorem Stored.congr {u : Options} (h : Stored o) (hcpu : u.cpuMiners = o.cpuMiners)
    (hsettings : u.settings = o.settings) : Stored u := by
  unfold Stored
  rw [hcpu, hsettings]
  exact h

theorem cpuCores_startMiner (o : Options) (ticker miner mergedMining key : QString)
    (threads : UInt32) : cpuCores (startMiner o ticker miner mergedMining threads).settings key =
      if key = miner ∧ threads ≠ 0 then threads else cpuCores o.settings key := by
  by_cases hkey : key = miner
  · by_cases hzero : threads = 0
    · simp [cpuCores, startMiner, setCoin, hkey, hzero]
    · simp [cpuCores, startMiner, setCoin, hkey, hzero]
  · by_cases hzero : threads = 0
    · simp [cpuCores, startMiner, setCoin, hkey, hzero]
    · simp [cpuCores, startMiner, setCoin, hkey, hzero]

theorem Stored.startMiner (h : Stored o) (ticker miner mergedMining : QString)
    (threads : UInt32) : Stored (startMiner o ticker miner mergedMining threads) := by
  intro e he hne
  rw [startMiner_cpuMiners] at he ⊢
  rw [cpuCores_startMiner]
  by_cases hnew : e.2.1 = miner ∧ threads ≠ 0
  · rw [if_pos hnew]
    exact ⟨(ticker, miner, threads), List.mem_append_right _ List.mem_cons_self, hnew.1.symm, rfl⟩
  · rw [if_neg hnew]
    rcases List.mem_append.mp he with hold | hlast
    · obtain ⟨e', he', hcoin, hspeed⟩ := h e hold hne
      exact ⟨e', List.mem_append_left _ he', hcoin, hspeed⟩
    · rw [List.mem_singleton.mp hlast] at hnew hne
      exact absurd ⟨rfl, hne⟩ hnew

theorem Stored.readOption (h : Stored o) (arg : QString) : Stored (readOption P o arg).1 := by
  obtain ⟨hcpu, hsettings, -⟩ := readOption_cases P o arg
  exact h.congr hcpu hsettings

theorem Stored.readCurrency (h : Stored o) (no : UInt32) (text : QString) :
    Stored (readCurrency P o no text).1 := by
  rw [Console.readCurrency]
  cases coinOf P text with
  | none => exact h
  | some coin =>
    simp only
    cases P.minersByTicker coin.2 with
    | none => exact h
    | some miner =>
      simp only
      split <;> exact h

theorem Stored.readArg (h : Stored s.1) (arg : QString) : Stored (readArg P s arg).1 := by
  obtain ⟨o, mode⟩ := s
  cases mode with
  | option => exact h.readOption arg
  | user => exact h.congr rfl rfl
  | count ticker miner mergedMining =>
    simp only [Console.readArg]
    split
    · exact h.startMiner ticker miner mergedMining _
    · exact (h.startMiner ticker miner mergedMining _).readOption arg
  | repeatedCount =>
    simp only [Console.readArg]
    split
    · exact h
    · exact h.readOption arg
  | currency no => exact h.readCurrency no arg
  | skipping =>
    rw [readArg_skipping]
    split
    · exact h
    split
    · exact h
    split
    · exact h.readOption arg
    · exact h
  | params ticker miner no params =>
    have hadd : Stored (addGpu P o ticker miner no params) := h.congr rfl rfl
    rw [readArg_params]
    split
    · exact hadd.readOption arg
    · cases paramKey arg <;> exact h
  | value ticker miner no params key =>
    simp only [Console.readArg]
    cases P.toUInt arg <;> exact h
  | returned code => exact h

theorem Stored.readAll (h : Stored s.1) (args : List QString) : Stored (readAll P args s).1 := by
  induction args generalizing s with
  | nil => exact h
  | cons arg rest ih => exact ih (h.readArg arg)

theorem Stored.finish (h : Stored s.1) (hparsed : finish P s = .parsed o) : Stored o := by
  obtain ⟨u, mode⟩ := s
  cases mode with
  | option =>
    cases hparsed
    exact h
  | user =>
    cases hparsed
    exact h.congr rfl rfl
  | count ticker miner mergedMining =>
    cases hparsed
    exact h.startMiner ticker miner mergedMining _
  | repeatedCount =>
    cases hparsed
    exact h
  | skipping =>
    cases hparsed
    exact h
  | params ticker miner no params =>
    cases hparsed
    exact h.congr rfl rfl
  | currency no => cases hparsed
  | value ticker miner no params key => cases hparsed
  | returned code => cases hparsed

end Settings

section Workers
variable {P : Platform} {o : Options} {argv : List QString} {rounds : Nat}

theorem startWorkers_eq {workers : Nat} (n : Nat) {i : Nat} (hi : i ≤ workers) :
    startWorkers workers n i = if i + n ≤ workers then some (List.range' i n) else none := by
  induction n generalizing i with
  | zero =>
    rw [Nat.add_zero, if_pos hi]
    rfl
  | succ n ih =>
    rw [startWorkers]
    split
    case isTrue hlt =>
      rw [ih hlt, Nat.succ_add_eq_add_succ]
      split <;> rfl
    case isFalse hnot => rw [if_neg (by omega)]

theorem stopOther_settings (P : Platform) (s : CpuMiners) (miner : QString) :
    (stopOther P s miner).settings = s.settings := by
  unfold stopOther
  split <;> rfl

theorem startCpu_eq (P : Platform) (s : CpuMiners) (miner : QString) :
    startCpu P s miner =
      if (cpuCores s.settings miner).toNat ≤ workerCount P then
        some (List.range (cpuCores s.settings miner).toNat,
          setStarted (stopOther P s miner) miner (List.range (cpuCores s.settings miner).toNat))
      else none := by
  simp only [startCpu, startWorkers_eq _ (Nat.zero_le _), Nat.zero_add, stopOther_settings,
    ← List.range_eq_range']
  split <;> rfl

theorem cpuCores_setStarted (P : Platform) (s : CpuMiners) (miner key : QString)
    (started : List Nat) :
    cpuCores (setStarted (stopOther P s miner) miner started).settings key =
      cpuCores s.settings key := by
  simp only [cpuCores, setStarted, stopOther_settings]
  split <;> rfl

/-- Every coin is started with the number that its settings hold. -/
theorem startCpus_eq (P : Platform) (all : List CpuEntry) (s : CpuMiners) :
    (startCpus P all s).map Prod.fst =
      if ∀ e ∈ all, (cpuCores s.settings e.2.1).toNat ≤ workerCount P then
        some (all.map fun e => (e.1, List.range (cpuCores s.settings e.2.1).toNat))
      else none := by
  induction all generalizing s with
  | nil => rw [if_pos (by simp)]; rfl
  | cons e rest ih =>
    obtain ⟨ticker, miner, n⟩ := e
    simp only [List.forall_mem_cons]
    rw [startCpus, startCpu_eq]
    by_cases hle : (cpuCores s.settings miner).toNat ≤ workerCount P
    · have hrest := ih (setStarted (stopOther P s miner) miner
        (List.range (cpuCores s.settings miner).toNat))
      simp only [cpuCores_setStarted] at hrest
      simp only [hle, if_true, true_and, Option.map_map, Function.comp_def, List.map_cons]
      rw [← Function.comp_def, ← Option.map_map, hrest]
      split
      · rfl
      · rfl
    · simp only [hle, if_false, false_and, Option.map_none]

/-- The coin that is started last keeps its workers, and the other coin of the family has none. -/
theorem startCpus_last (P : Platform) {all : List CpuEntry} {e : CpuEntry} {s left : CpuMiners}
    {started : List (QString × List Nat)}
    (h : startCpus P (all ++ [e]) s = some (started, left)) :
    left.workers e.2.1 = List.range (cpuCores s.settings e.2.1).toNat ∧
      ∀ other ∈ P.coins.otherMiner e.2.1, other ≠ e.2.1 → left.workers other = [] := by
  induction all generalizing s started with
  | nil =>
    obtain ⟨ticker, miner, n⟩ := e
    rw [List.nil_append, startCpus, startCpu_eq] at h
    split at h
    case h_1 => cases h
    case h_2 first t hfirst =>
      obtain ⟨-, hfirst⟩ := Option.ite_none_right_eq_some.mp hfirst
      cases hfirst
      cases h
      refine ⟨Function.update_self .., fun other hother hne => ?_⟩
      have hmiss : other ≠ miner := hne
      have hstopped : P.coins.otherMiner miner = some other := hother
      simp only [setStarted, Function.update_of_ne hmiss, stopOther, hstopped, stopAll,
        Function.update_self]
  | cons e' all ih =>
    obtain ⟨ticker, miner, n⟩ := e'
    rw [List.cons_append, startCpus, startCpu_eq] at h
    split at h
    case h_1 => cases h
    case h_2 first t hfirst =>
      obtain ⟨-, hfirst⟩ := Option.ite_none_right_eq_some.mp hfirst
      cases hfirst
      obtain ⟨r, hr, heq⟩ := Option.map_eq_some_iff.mp h
      cases heq
      have hlast := ih hr
      rwa [cpuCores_setStarted] at hlast

def coinsGiven (P : Platform) (argv : List QString) : List CpuEntry :=
  given P (initial P, .option) (scanned (arguments argv)).kept

/-- The coins that are given a number other than 0 are started, with as many workers, and there are
as many workers. -/
def Honoured (P : Platform) (o : Options) (all : List CpuEntry) : Prop :=
  (∀ e ∈ all, e.2.2.toNat ≤ workerCount P) ∧
    ∃ started left,
      startCpus P (byTicker o.cpuMiners) ⟨o.settings, fun _ => []⟩ = some (started, left) ∧
      ∀ ticker workers, (ticker, workers) ∈ started ↔
        ∃ miner n, (ticker, miner, n) ∈ all ∧ n ≠ 0 ∧ workers = List.range n.toNat

/-- No coin is given 0 or more than there are workers, and a coin that is given under two tickers
is given the same number. -/
def CountsFit (P : Platform) (all : List CpuEntry) : Prop :=
  ∀ e ∈ all, e.2.2 ≠ 0 ∧ e.2.2.toNat ≤ workerCount P ∧
    ∀ e' ∈ all, e'.2.1 = e.2.1 → e'.2.2 = e.2.2

theorem conclude_accepted {p : Parsed} (h : conclude p = .accepted o) : p = .parsed o := by
  cases p with
  | parsed u =>
    rw [conclude] at h
    split at h
    case isTrue => cases h
    case isFalse =>
      split at h
      case isTrue => cases h
      case isFalse =>
        cases h
        rfl
  | returned code => cases h
  | outOfRange => cases h
  | running => cases h

theorem accepted_entries (hrounds : argv.length + 1 < rounds)
    (haccepted : main P rounds argv = .accepted o) :
    o.cpuMiners = coinsGiven P argv ∧ (tickers o.cpuMiners).Nodup ∧ Stored o := by
  rw [main_eq P hrounds, outcome] at haccepted
  split at haccepted
  case h_1 => cases haccepted
  case h_2 => cases haccepted
  case h_3 => cases haccepted
  case h_4 =>
    split at haccepted
    case isTrue => cases haccepted
    case isFalse =>
      have hfinish := conclude_accepted haccepted
      have hentries : o.cpuMiners = coinsGiven P argv := by
        rw [finish_cpuMiners hfinish, entries_readAll]
        rfl
      have hnodup : (tickers (entries P (initial P, .option) (scanned (arguments argv)).kept ++
        coinsGiven P argv)).Nodup := given_nodup List.nodup_nil
      have hstart : Stored (initial P) := fun e he => by cases he
      refine ⟨hentries, ?_, (hstart.readAll _).finish hfinish⟩
      rw [hentries]
      exact hnodup

theorem entry_unique {all : List CpuEntry} (hnodup : (tickers all).Nodup) {e e' : CpuEntry}
    (he : e ∈ all) (he' : e' ∈ all) (hticker : e.1 = e'.1) : e = e' :=
  List.inj_on_of_nodup_map hnodup he he' hticker

/-- The threads of the command line are honoured exactly when their numbers fit. -/
theorem threads_honoured_iff (P : Platform) (hrounds : argv.length + 1 < rounds)
    (haccepted : main P rounds argv = .accepted o) :
    Honoured P o (coinsGiven P argv) ↔ CountsFit P (coinsGiven P argv) := by
  obtain ⟨hentries, hnodup, hstored⟩ := accepted_entries hrounds haccepted
  rw [← hentries]
  have hmem : ∀ {e : CpuEntry}, e ∈ byTicker o.cpuMiners ↔ e ∈ o.cpuMiners :=
    fun {e} => (List.perm_insertionSort _ o.cpuMiners).mem_iff
  have hstart := startCpus_eq P (byTicker o.cpuMiners) ⟨o.settings, fun _ => []⟩
  simp only [hmem] at hstart
  constructor
  · rintro ⟨hle, started, left, hstarted, hspec⟩
    rw [hstarted] at hstart
    split at hstart
    case isFalse => cases hstart
    case isTrue =>
      have hall := Option.some.inj hstart
      simp only at hall
      have hgiven : ∀ e ∈ o.cpuMiners, e.2.2 ≠ 0 ∧ cpuCores o.settings e.2.1 = e.2.2 := by
        intro e he
        have hentry : (e.1, List.range (cpuCores o.settings e.2.1).toNat) ∈ started := by
          rw [hall]
          exact List.mem_map.mpr ⟨e, hmem.mpr he, rfl⟩
        obtain ⟨miner, n, hn, hne, hworkers⟩ := (hspec _ _).mp hentry
        have hsame : e = (e.1, miner, n) := entry_unique hnodup he hn rfl
        have hlength := congrArg List.length hworkers
        rw [List.length_range, List.length_range] at hlength
        have hcores : cpuCores o.settings e.2.1 = n := UInt32.toNat_inj.mp hlength
        rw [hsame]
        rw [hsame] at hcores
        exact ⟨hne, hcores⟩
      intro e he
      refine ⟨(hgiven e he).1, hle e he, fun e' he' hcoin => ?_⟩
      rw [← (hgiven e he).2, ← (hgiven e' he').2, hcoin]
  · intro hfit
    have hspeed : ∀ e ∈ o.cpuMiners, cpuCores o.settings e.2.1 = e.2.2 := by
      intro e he
      obtain ⟨e', he', hcoin, hcores⟩ := hstored e he (hfit e he).1
      rw [hcores]
      exact (hfit e he).2.2 e' he' hcoin
    have hfits : ∀ e ∈ o.cpuMiners, (cpuCores o.settings e.2.1).toNat ≤ workerCount P := by
      intro e he
      rw [hspeed e he]
      exact (hfit e he).2.1
    rw [if_pos hfits] at hstart
    obtain ⟨⟨started, left⟩, hstarted, hall⟩ := Option.map_eq_some_iff.mp hstart
    simp only at hall
    refine ⟨fun e he => (hfit e he).2.1, started, left, hstarted, fun ticker workers => ?_⟩
    rw [hall, List.mem_map]
    constructor
    · rintro ⟨e, he, hpair⟩
      have he := hmem.mp he
      rw [hspeed e he] at hpair
      cases hpair
      exact ⟨e.2.1, e.2.2, he, (hfit e he).1, rfl⟩
    · rintro ⟨miner, n, hn, -, rfl⟩
      exact ⟨_, hmem.mpr hn, by rw [hspeed _ hn]⟩

def twoThreads : List QString :=
  ["--user".toList, "me".toList, "--bcn".toList, "2".toList, "--verbose".toList]

def noThreads : List QString := ["--user".toList, "me".toList, "--bcn".toList, "0".toList]

theorem two_threads_honoured : ∃ o, main machine 7 twoThreads = .accepted o ∧
    coinsGiven machine twoThreads = [("bcn".toList, "bcn".toList, 2)] ∧
    Honoured machine o (coinsGiven machine twoThreads) := by
  have hgiven : coinsGiven machine twoThreads = [("bcn".toList, "bcn".toList, 2)] := by
    decide +kernel
  obtain ⟨o, ho⟩ : ∃ o, main machine 7 twoThreads = .accepted o := ⟨_, rfl⟩
  refine ⟨o, ho, hgiven, (threads_honoured_iff machine (by decide) ho).mpr ?_⟩
  rw [hgiven]
  unfold CountsFit
  decide +kernel

/-- A coin that is given no threads is started with its stored number. -/
theorem no_threads_started :
    ¬ ∀ (P : Platform) (argv : List QString) (rounds : Nat) (o : Options),
      argv.length + 1 < rounds → main P rounds argv = .accepted o →
      Honoured P o (coinsGiven P argv) := by
  intro h
  obtain ⟨-, started, left, hstarted, hspec⟩ := h machine noThreads 6 _ (by decide) rfl
  have hone : started = [("bcn".toList, [0])] := by
    cases hstarted
    rfl
  have hmem : ("bcn".toList, [0]) ∈ started := hone ▸ List.mem_cons_self
  obtain ⟨miner, n, hn, hne, -⟩ := (hspec _ _).mp hmem
  have hgiven : coinsGiven machine noThreads = [("bcn".toList, "bcn".toList, 0)] := by
    decide +kernel
  rw [hgiven, List.mem_singleton] at hn
  cases hn
  exact hne rfl

end Workers

end MinerGate.Console
