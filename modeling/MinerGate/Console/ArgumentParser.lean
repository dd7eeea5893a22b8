import MinerGate.Console.PreScan
import MinerGate.Ethereum.CudaParams
import MinerGate.Qt.Numbers

/-!
# The arguments of the command line

`main` reads the arguments that the first pass has left by index, with loops of their own for the
parameters of a GPU. Each argument is read once more below, one after the other, by an automaton
that knows what it waits for.
-/

namespace MinerGate.Console

set_option autoImplicit false

open Loops

def startsWith (s start : QString) : Bool := start.isPrefixOf s

/-- The names in `GPU_PARAM_LIST` with the keys of their parameters. -/
def GPU_PARAM_LIST : List (QString × Int) :=
  [("intensity".toList, 2), ("cuda-gridsize".toList, 0), ("cuda-worksize".toList, 1),
    ("cl-localsize".toList, 1), ("cl-globalsize".toList, 0)]

def paramKey (arg : QString) : Option Int := GPU_PARAM_LIST.lookup arg

def noParams : DeviceParams := fun _ => none

/-- `QMap::insert` with a parameter's number as the key. -/
def insertParam (params : DeviceParams) (key : Int) (v : UInt32) : DeviceParams :=
  fun k => if k = key then some v else params k

structure GpuMinerDefine where
  deviceKey : QString
  miner : QString
  deviceOrderNo : UInt32
  params : DeviceParams

/-- The maps by ticker hold their entries in the order of insertion; `cpuMiners` has the key of
the coin and the number of threads. -/
structure Options where
  user : QString
  verbose : Bool
  gpuMiners : List (QString × GpuMinerDefine)
  cpuMiners : List (QString × QString × UInt32)
  settings : QString → CoinSettings

inductive Parsed where
  | parsed (o : Options)
  | returned (code : Nat)
  | outOfRange
  | running

section Parser
variable (P : Platform)

def MAXTHREADS : UInt32 := UInt32.ofInt P.idealThreadCount

def hasGpu (o : Options) (ticker : QString) : Bool := (o.gpuMiners.lookup ticker).isSome

def hasCpu (o : Options) (ticker : QString) : Bool := (o.cpuMiners.lookup ticker).isSome

/-- The number of the device, from 0; a number 0 wraps. -/
def deviceOrderNo (arg : QString) : Option UInt32 :=
  (P.toUInt (arg.remove "--gpu".toList)).map fun no => no - 1

/-- A coin's ticker with the one that it is mined with, if the text is not of more parts. -/
def coinOf (text : QString) : Option (QString × QString) :=
  match text.splitOn '+' with
  | [mergedMining, ticker] => some (mergedMining, P.toLower ticker)
  | [ticker] => some ([], P.toLower ticker)
  | _ => none

def setCoin (o : Options) (key : QString) (f : CoinSettings → CoinSettings) : Options :=
  { o with settings := fun k => if k = key then f (o.settings k) else o.settings k }

/-- The settings of a coin that is named for the CPU, and its entry. -/
def startMiner (o : Options) (ticker miner mergedMining : QString) (threads : UInt32) : Options :=
  let o := setCoin o miner fun c => { c with mergedMining := mergedMining }
  let o := if threads ≠ 0 then setCoin o miner fun c => { c with speed := threads } else o
  let o := setCoin o miner fun c => { c with running := threads ≠ 0 }
  { o with cpuMiners := o.cpuMiners ++ [(ticker, miner, threads)] }

def addGpu (o : Options) (ticker miner : QString) (no : UInt32) (params : DeviceParams) :
    Options :=
  { o with gpuMiners := o.gpuMiners ++
      [(ticker, ⟨P.gpuDevices.getD no.toNat [], miner, no, params⟩)] }

section Loops
variable (args : List QString)

/-- A round of the loop that passes over the parameters of a repeated coin; it leaves the index at
the last argument that it has read. -/
def skipRound (i : Nat) : Round Nat Nat :=
  if h : i + 1 < args.length then
    let nextArg := args[i + 1]
    if (paramKey nextArg).isSome then .next (i + 1)
    else if (P.toUInt nextArg).isSome then .next (i + 1)
    else if startsWith nextArg "--".toList then .exit i
    else .next (i + 1)
  else .exit i

inductive ParamsEnd where
  | parsed (i : Nat) (params : DeviceParams)
  | returned (code : Nat)
  | outOfRange

def paramRound (s : Nat × DeviceParams) : Round (Nat × DeviceParams) ParamsEnd :=
  if h : s.1 < args.length then
    let subArg := args[s.1]
    if startsWith subArg "--".toList then .exit (.parsed (s.1 - 1) s.2)
    else
      match paramKey subArg with
      | none => .exit (.returned 2)
      | some key =>
        match args[s.1 + 1]? with
        | none => .exit .outOfRange
        | some text =>
          match P.toUInt text with
          | none => .exit (.returned 2)
          | some v => .next (s.1 + 2, insertParam s.2 key v)
  else .exit (.parsed s.1 s.2)

/-- The branch for a GPU; the index is that of the option. -/
def gpuOption (rounds i : Nat) (o : Options) (arg : QString) : Round (Nat × Options) Parsed :=
  match deviceOrderNo P arg with
  | none => .exit (.returned 2)
  | some no =>
    if P.gpuDevices.length ≤ no.toNat then .exit (.returned 3)
    else
      match args[i + 1]? with
      | none => .exit .outOfRange
      | some text =>
        match coinOf P text with
        | none => .exit (.returned 2)
        | some (_, ticker) =>
          match P.minersByTicker ticker with
          | none => .exit (.returned 2)
          | some miner =>
            if hasGpu o ticker then
              match run (skipRound P args) rounds (i + 1) with
              | none => .exit .running
              | some i => .next (i + 1, o)
            else
              match run (paramRound P args) rounds (i + 2, noParams) with
              | none => .exit .running
              | some .outOfRange => .exit .outOfRange
              | some (.returned code) => .exit (.returned code)
              | some (.parsed i params) => .next (i + 1, addGpu P o ticker miner no params)

def cpuOption (i : Nat) (o : Options) (arg : QString) : Round (Nat × Options) Parsed :=
  match coinOf P (arg.remove "--".toList) with
  | none => .exit (.returned 2)
  | some (mergedMining, ticker) =>
    match P.minersByTicker ticker with
    | none => .exit (.returned 2)
    | some miner =>
      let threads := P.toUInt (args.getD (i + 1) [])
      if hasCpu o ticker then .next (if threads.isSome then i + 2 else i + 1, o)
      else
        match threads with
        | some threads => .next (i + 2, startMiner o ticker miner mergedMining threads)
        | none => .next (i + 1, startMiner o ticker miner mergedMining (MAXTHREADS P))

def optionRound (rounds : Nat) (s : Nat × Options) : Round (Nat × Options) Parsed :=
  if h : s.1 < args.length then
    let arg := args[s.1]
    if arg = "--user".toList ∨ arg = "-u".toList then
      .next (s.1 + 2, { s.2 with user := args.getD (s.1 + 1) [] })
    else if arg = "--verbose".toList then .next (s.1 + 1, { s.2 with verbose := true })
    else if startsWith arg "--gpu".toList then gpuOption P args rounds s.1 s.2 arg
    else if startsWith arg "--".toList then cpuOption P args s.1 s.2 arg
    else .next (s.1 + 1, s.2)
  else .exit (.parsed s.2)

def initial : Options := ⟨[], false, [], [], P.settings⟩

def parse (rounds : Nat) : Parsed :=
  (run (optionRound P args rounds) rounds (0, initial P)).getD .running

end Loops

/-- How the program goes on: its return value, or the miners that it starts. -/
inductive Outcome where
  | running
  | outOfRange
  | crashed
  | returned (code : Nat)
  | accepted (o : Options)

/-- The checks after the arguments. -/
def conclude : Parsed → Outcome
  | .running => .running
  | .outOfRange => .outOfRange
  | .returned code => .returned code
  | .parsed o =>
    if o.user = [] then .returned 1
    else if o.cpuMiners = [] ∧ o.gpuMiners = [] then .returned 1
    else .accepted o

def main (rounds : Nat) (argv : List QString) : Outcome :=
  match preScan P rounds argv with
  | none => .running
  | some (.outOfRange, _) => .outOfRange
  | some (.crashed, _) => .crashed
  | some (.command _, _) => .returned 0
  | some (.finished, s) =>
    if P.initialized = false then .returned 0 else conclude (parse P s.args rounds)

end Parser

section Automaton
variable (P : Platform)

/-- What the next argument is read as. -/
inductive Mode where
  | option
  | user
  | count (ticker miner mergedMining : QString)
  | repeatedCount
  | currency (no : UInt32)
  | skipping
  | params (ticker miner : QString) (no : UInt32) (params : DeviceParams)
  | value (ticker miner : QString) (no : UInt32) (params : DeviceParams) (key : Int)
  | returned (code : Nat)

def readGpu (o : Options) (arg : QString) : Options × Mode :=
  match deviceOrderNo P arg with
  | none => (o, .returned 2)
  | some no => if P.gpuDevices.length ≤ no.toNat then (o, .returned 3) else (o, .currency no)

def readCpu (o : Options) (arg : QString) : Options × Mode :=
  match coinOf P (arg.remove "--".toList) with
  | none => (o, .returned 2)
  | some (mergedMining, ticker) =>
    match P.minersByTicker ticker with
    | none => (o, .returned 2)
    | some miner =>
      if hasCpu o ticker then (o, .repeatedCount) else (o, .count ticker miner mergedMining)

def readOption (o : Options) (arg : QString) : Options × Mode :=
  if arg = "--user".toList ∨ arg = "-u".toList then (o, .user)
  else if arg = "--verbose".toList then ({ o with verbose := true }, .option)
  else if startsWith arg "--gpu".toList then readGpu P o arg
  else if startsWith arg "--".toList then readCpu P o arg
  else (o, .option)

def readCurrency (o : Options) (no : UInt32) (text : QString) : Options × Mode :=
  match coinOf P text with
  | none => (o, .returned 2)
  | some (_, ticker) =>
    match P.minersByTicker ticker with
    | none => (o, .returned 2)
    | some miner =>
      if hasGpu o ticker then (o, .skipping) else (o, .params ticker miner no noParams)

def readArg (s : Options × Mode) (arg : QString) : Options × Mode :=
  match s.2 with
  | .option => readOption P s.1 arg
  | .user => ({ s.1 with user := arg }, .option)
  | .count ticker miner mergedMining =>
    match P.toUInt arg with
    | some threads => (startMiner s.1 ticker miner mergedMining threads, .option)
    | none => readOption P (startMiner s.1 ticker miner mergedMining (MAXTHREADS P)) arg
  | .repeatedCount => if (P.toUInt arg).isSome then (s.1, .option) else readOption P s.1 arg
  | .currency no => readCurrency P s.1 no arg
  | .skipping =>
    if (paramKey arg).isSome then s
    else if (P.toUInt arg).isSome then s
    else if startsWith arg "--".toList then readOption P s.1 arg
    else s
  | .params ticker miner no params =>
    if startsWith arg "--".toList then readOption P (addGpu P s.1 ticker miner no params) arg
    else
      match paramKey arg with
      | none => (s.1, .returned 2)
      | some key => (s.1, .value ticker miner no params key)
  | .value ticker miner no params key =>
    match P.toUInt arg with
    | none => (s.1, .returned 2)
    | some v => (s.1, .params ticker miner no (insertParam params key v))
  | .returned _ => s

/-- The end of the arguments. -/
def finish (s : Options × Mode) : Parsed :=
  match s.2 with
  | .option | .repeatedCount | .skipping => .parsed s.1
  | .user => .parsed { s.1 with user := [] }
  | .count ticker miner mergedMining =>
    .parsed (startMiner s.1 ticker miner mergedMining ((P.toUInt []).getD (MAXTHREADS P)))
  | .currency _ | .value _ _ _ _ _ => .outOfRange
  | .params ticker miner no params => .parsed (addGpu P s.1 ticker miner no params)
  | .returned code => .returned code

def readAll (args : List QString) (s : Options × Mode) : Options × Mode :=
  args.foldl (readArg P) s

end Automaton

section Refinement
variable {P : Platform} {args : List QString} {i rounds : Nat} {o : Options} {arg : QString}

/-- What the program reads the arguments from `i` on as. -/
def valueFrom (P : Platform) (args : List QString) (i : Nat) (s : Options × Mode) : Parsed :=
  finish P (readAll P (args.drop i) s)

theorem valueFrom_of_lt (h : i < args.length) (s : Options × Mode) :
    valueFrom P args i s = valueFrom P args (i + 1) (readArg P s args[i]) := by
  rw [valueFrom, List.drop_eq_getElem_cons h]
  rfl

theorem valueFrom_of_le (h : args.length ≤ i) (s : Options × Mode) :
    valueFrom P args i s = finish P s := by
  rw [valueFrom, List.drop_eq_nil_of_le h]
  rfl

theorem valueFrom_returned (o : Options) (code : Nat) :
    valueFrom P args i (o, .returned code) = .returned code := by
  have hall : ∀ rest : List QString, readAll P rest (o, .returned code) = (o, .returned code) := by
    intro rest
    induction rest with
    | nil => rfl
    | cons arg rest ih => exact ih
  rw [valueFrom, hall]
  rfl

theorem readArg_skipping (o : Options) (arg : QString) : readArg P (o, .skipping) arg =
    if (paramKey arg).isSome then (o, .skipping)
    else if (P.toUInt arg).isSome then (o, .skipping)
    else if startsWith arg "--".toList then readOption P o arg
    else (o, .skipping) := rfl

/-- The loop over a repeated coin's parameters ends before an option or behind the last argument. -/
theorem skipRound_exit {r : Nat} (o : Options) (hround : skipRound P args i = .exit r) :
    r = i ∧ valueFrom P args (i + 1) (o, .skipping) = valueFrom P args (i + 1) (o, .option) := by
  rw [skipRound] at hround
  split at hround
  case isTrue hlt =>
    simp only at hround
    split at hround
    case isTrue => cases hround
    split at hround
    case isTrue => cases hround
    split at hround
    case isFalse => cases hround
    case isFalse.isFalse.isTrue hkey hnumber hstart =>
      cases hround
      refine ⟨rfl, ?_⟩
      rw [valueFrom_of_lt hlt, valueFrom_of_lt hlt, readArg_skipping, if_neg hkey,
        if_neg hnumber, if_pos hstart]
      rfl
  case isFalse hnot =>
    cases hround
    have hle := Nat.not_lt.mp hnot
    rw [valueFrom_of_le hle, valueFrom_of_le hle]
    exact ⟨rfl, rfl⟩

/-- It goes on over what the main loop would skip. -/
theorem skipRound_next {t : Nat} (o : Options) (hround : skipRound P args i = .next t) :
    t = i + 1 ∧ i + 1 < args.length ∧
      valueFrom P args (i + 1) (o, .skipping) = valueFrom P args (i + 1 + 1) (o, .skipping) := by
  rw [skipRound] at hround
  split at hround
  case isFalse => cases hround
  case isTrue hlt =>
    have hsame : t = i + 1 ∧ readArg P (o, .skipping) args[i + 1] = (o, .skipping) := by
      rw [readArg_skipping]
      simp only at hround
      split at hround
      case isTrue hkey =>
        cases hround
        exact ⟨rfl, if_pos hkey⟩
      case isFalse hkey =>
        rw [if_neg hkey]
        split at hround
        case isTrue hnumber =>
          cases hround
          exact ⟨rfl, if_pos hnumber⟩
        case isFalse hnumber =>
          rw [if_neg hnumber]
          split at hround
          case isTrue => cases hround
          case isFalse hstart =>
            cases hround
            exact ⟨rfl, if_neg hstart⟩
    refine ⟨hsame.1, hlt, ?_⟩
    rw [valueFrom_of_lt hlt, hsame.2]

/-- The loop over a repeated coin's parameters leaves the rest for the main loop. -/
theorem skip_spec (o : Options) (h : args.length < rounds) :
    ∃ r, run (skipRound P args) rounds i = some r ∧ i ≤ r ∧
      valueFrom P args (i + 1) (o, .skipping) = valueFrom P args (r + 1) (o, .option) := by
  apply run_spec (I := fun _ => True) (v := fun i => args.length - i) (P := fun i r => i ≤ r ∧
    valueFrom P args (i + 1) (o, .skipping) = valueFrom P args (r + 1) (o, .option))
  · intro i r _ hround
    obtain ⟨rfl, hvalue⟩ := skipRound_exit o hround
    exact ⟨Nat.le_refl _, hvalue⟩
  · intro i t _ hround
    obtain ⟨rfl, hlt, hvalue⟩ := skipRound_next o hround
    refine ⟨trivial, by omega, fun r hr => ⟨by omega, ?_⟩⟩
    exact hvalue.trans hr.2
  · trivial
  · omega

/-- How the main loop goes on after the loop over the parameters. -/
def afterParams (P : Platform) (args : List QString) (o : Options) (ticker miner : QString)
    (no : UInt32) : ParamsEnd → Parsed
  | .parsed i params => valueFrom P args (i + 1) (addGpu P o ticker miner no params, .option)
  | .returned code => .returned code
  | .outOfRange => .outOfRange

theorem readArg_params (o : Options) (ticker miner : QString) (no : UInt32)
    (params : DeviceParams) (arg : QString) :
    readArg P (o, .params ticker miner no params) arg =
      if startsWith arg "--".toList then readOption P (addGpu P o ticker miner no params) arg
      else
        match paramKey arg with
        | none => (o, .returned 2)
        | some key => (o, .value ticker miner no params key) := rfl

section Params
variable {ticker miner : QString} {no : UInt32} {s t : Nat × DeviceParams}

theorem paramRound_of_lt (h : s.1 < args.length) : paramRound P args s =
    if startsWith args[s.1] "--".toList then .exit (.parsed (s.1 - 1) s.2)
    else
      match paramKey args[s.1] with
      | none => .exit (.returned 2)
      | some key =>
        match args[s.1 + 1]? with
        | none => .exit .outOfRange
        | some text =>
          match P.toUInt text with
          | none => .exit (.returned 2)
          | some v => .next (s.1 + 2, insertParam s.2 key v) := by
  rw [paramRound, dif_pos h]

theorem valueFrom_value (o : Options) (params : DeviceParams) (key : Int) :
    valueFrom P args i (o, .value ticker miner no params key) =
      match args[i]? with
      | none => .outOfRange
      | some text =>
        match P.toUInt text with
        | none => .returned 2
        | some v =>
          valueFrom P args (i + 1) (o, .params ticker miner no (insertParam params key v)) := by
  by_cases hlt : i < args.length
  · rw [valueFrom_of_lt hlt, List.getElem?_eq_getElem hlt]
    cases htext : P.toUInt args[i] with
    | none => simp only [readArg, htext, valueFrom_returned]
    | some v => simp only [readArg, htext]
  · rw [valueFrom_of_le (Nat.not_lt.mp hlt), List.getElem?_eq_none (Nat.not_lt.mp hlt)]
    rfl

theorem valueFrom_params (h : i < args.length) (o : Options) (params : DeviceParams) :
    valueFrom P args i (o, .params ticker miner no params) =
      if startsWith args[i] "--".toList then
        valueFrom P args i (addGpu P o ticker miner no params, .option)
      else
        match paramKey args[i] with
        | none => .returned 2
        | some key => valueFrom P args (i + 1) (o, .value ticker miner no params key) := by
  rw [valueFrom_of_lt h, readArg_params]
  split
  case isTrue =>
    rw [valueFrom_of_lt h]
    rfl
  case isFalse =>
    cases paramKey args[i] with
    | none => exact valueFrom_returned o 2
    | some key => rfl

/-- What a round of the loop over the parameters does with what the rest is read as. The index is
never 0, so that it can be taken back by one. -/
def ParamsRound (P : Platform) (args : List QString) (o : Options) (ticker miner : QString)
    (no : UInt32) (s : Nat × DeviceParams) : Round (Nat × DeviceParams) ParamsEnd → Prop
  | .exit r => (∀ j params, r = .parsed j params → s.1 ≤ j + 1) ∧
      valueFrom P args s.1 (o, .params ticker miner no s.2) =
        afterParams P args o ticker miner no r
  | .next t => t.1 = s.1 + 2 ∧
      valueFrom P args s.1 (o, .params ticker miner no s.2) =
        valueFrom P args t.1 (o, .params ticker miner no t.2)

theorem paramRound_spec (o : Options) (hpos : 0 < s.1) :
    ParamsRound P args o ticker miner no s (paramRound P args s) := by
  by_cases hlt : s.1 < args.length
  · rw [paramRound_of_lt hlt]
    by_cases hstart : startsWith args[s.1] "--".toList = true
    · rw [if_pos hstart]
      refine ⟨fun j _ hj => by cases hj; omega, ?_⟩
      rw [valueFrom_params hlt, if_pos hstart, afterParams, Nat.sub_add_cancel hpos]
    · rw [if_neg hstart]
      have hread : valueFrom P args s.1 (o, .params ticker miner no s.2) = _ :=
        valueFrom_params hlt o s.2
      rw [if_neg hstart] at hread
      cases hkey : paramKey args[s.1] with
      | none =>
        simp only [hkey] at hread ⊢
        exact ⟨fun _ _ => nofun, hread⟩
      | some key =>
        simp only [hkey] at hread ⊢
        rw [valueFrom_value] at hread
        cases htext : args[s.1 + 1]? with
        | none =>
          simp only [htext] at hread ⊢
          exact ⟨fun _ _ => nofun, hread⟩
        | some text =>
          simp only [htext] at hread ⊢
          cases hnumber : P.toUInt text with
          | none =>
            simp only [hnumber] at hread ⊢
            exact ⟨fun _ _ => nofun, hread⟩
          | some v =>
            simp only [hnumber] at hread ⊢
            exact ⟨rfl, hread⟩
  · rw [paramRound, dif_neg hlt]
    have hle : args.length ≤ s.1 := Nat.not_lt.mp hlt
    refine ⟨fun j _ hj => by cases hj; exact Nat.le_succ _, ?_⟩
    rw [afterParams, valueFrom_of_le hle, valueFrom_of_le (Nat.le_succ_of_le hle)]
    rfl

theorem paramRound_next (h : paramRound P args s = .next t) : s.1 < args.length := by
  by_contra hnot
  rw [paramRound, dif_neg hnot] at h
  cases h

/-- The loop over the parameters leaves the rest for the main loop. -/
theorem params_spec (o : Options) (params : DeviceParams) (hi : 0 < i)
    (h : args.length < rounds) :
    ∃ r, run (paramRound P args) rounds (i, params) = some r ∧
      ParamsRound P args o ticker miner no (i, params) (.exit r) := by
  apply run_spec (I := fun s : Nat × DeviceParams => 0 < s.1)
    (v := fun s : Nat × DeviceParams => args.length - s.1)
    (P := fun s r => ParamsRound P args o ticker miner no s (.exit r))
  · intro s r hpos hround
    rw [← hround]
    exact paramRound_spec o hpos
  · intro s t hpos hround
    have hlt := paramRound_next hround
    have hspec : ParamsRound P args o ticker miner no s (paramRound P args s) :=
      paramRound_spec o hpos
    rw [hround] at hspec
    obtain ⟨ht, hread⟩ := hspec
    refine ⟨by omega, by omega, fun r hr => ⟨fun j params hj => ?_, hread.trans hr.2⟩⟩
    have := hr.1 j params hj
    omega
  · exact hi
  · change args.length - i < rounds
    omega

end Params

/-- What a round of the main loop does with what the rest is read as. -/
def OptionRound (P : Platform) (args : List QString) (i : Nat) (value : Parsed) :
    Round (Nat × Options) Parsed → Prop
  | .exit r => value = r
  | .next t => i < t.1 ∧ value = valueFrom P args t.1 (t.2, .option)

theorem gpuOption_spec (o : Options) (arg : QString) (h : args.length < rounds) :
    OptionRound P args i (valueFrom P args (i + 1) (readGpu P o arg))
      (gpuOption P args rounds i o arg) := by
  rw [readGpu, gpuOption]
  cases deviceOrderNo P arg with
  | none => exact valueFrom_returned o 2
  | some no =>
    simp only
    split
    case isTrue => exact valueFrom_returned o 3
    case isFalse =>
      by_cases hlt : i + 1 < args.length
      · rw [valueFrom_of_lt hlt, List.getElem?_eq_getElem hlt]
        change OptionRound P args i (valueFrom P args (i + 2) (readCurrency P o no args[i + 1])) _
        rw [readCurrency]
        cases hcoin : coinOf P args[i + 1] with
        | none =>
          simp only [hcoin]
          exact valueFrom_returned o 2
        | some coin =>
          cases hminer : P.minersByTicker coin.2 with
          | none =>
            simp only [hcoin, hminer]
            exact valueFrom_returned o 2
          | some miner =>
            simp only [hcoin, hminer]
            split
            case isTrue =>
              obtain ⟨r, hr, hle, hread⟩ := skip_spec o h
              rw [hr]
              exact ⟨Nat.lt_succ_of_lt hle, hread⟩
            case isFalse =>
              obtain ⟨r, hr, hround⟩ := params_spec o noParams (Nat.succ_pos (i + 1)) h
              obtain ⟨hle, hread⟩ := hround
              rw [hr]
              cases r with
              | parsed j params =>
                have : i + 2 ≤ j + 1 := hle j params rfl
                exact ⟨by omega, hread⟩
              | returned code => exact hread
              | outOfRange => exact hread
      · have hle := Nat.not_lt.mp hlt
        rw [valueFrom_of_le hle, List.getElem?_eq_none hle]
        rfl

theorem getD_of_le (h : args.length ≤ i) : args.getD i [] = [] := by
  rw [List.getD_eq_getElem?_getD, List.getElem?_eq_none h]
  rfl

theorem valueFrom_count (o : Options) (ticker miner mergedMining : QString) :
    valueFrom P args i (o, .count ticker miner mergedMining) =
      match P.toUInt (args.getD i []) with
      | some threads =>
        valueFrom P args (i + 1) (startMiner o ticker miner mergedMining threads, .option)
      | none =>
        valueFrom P args i (startMiner o ticker miner mergedMining (MAXTHREADS P), .option) := by
  by_cases hlt : i < args.length
  · rw [valueFrom_of_lt hlt, ← List.getElem_eq_getD (h := hlt) []]
    cases hnumber : P.toUInt args[i] with
    | none =>
      simp only [readArg, hnumber]
      rw [valueFrom_of_lt hlt]
      rfl
    | some threads => simp only [readArg, hnumber]
  · have hle := Nat.not_lt.mp hlt
    rw [valueFrom_of_le hle, getD_of_le hle]
    cases hnumber : P.toUInt [] with
    | none =>
      simp only [finish, hnumber]
      rw [valueFrom_of_le hle]
      rfl
    | some threads =>
      simp only [finish, hnumber]
      rw [valueFrom_of_le (Nat.le_succ_of_le hle)]
      rfl

theorem valueFrom_repeatedCount (o : Options) :
    valueFrom P args i (o, .repeatedCount) =
      valueFrom P args (if (P.toUInt (args.getD i [])).isSome then i + 1 else i) (o, .option) := by
  by_cases hlt : i < args.length
  · rw [valueFrom_of_lt hlt, ← List.getElem_eq_getD (h := hlt) []]
    cases hnumber : P.toUInt args[i] with
    | none =>
      simp only [readArg, hnumber]
      exact (valueFrom_of_lt hlt (o, .option)).symm
    | some threads => simp only [readArg, hnumber, Option.isSome_some, if_true]
  · have hle := Nat.not_lt.mp hlt
    rw [valueFrom_of_le hle]
    split
    · rw [valueFrom_of_le (Nat.le_succ_of_le hle)]
      rfl
    · rw [valueFrom_of_le hle]
      rfl

theorem cpuOption_spec (o : Options) (arg : QString) :
    OptionRound P args i (valueFrom P args (i + 1) (readCpu P o arg))
      (cpuOption P args i o arg) := by
  rw [readCpu, cpuOption]
  cases hcoin : coinOf P (arg.remove "--".toList) with
  | none => exact valueFrom_returned o 2
  | some coin =>
    cases hminer : P.minersByTicker coin.2 with
    | none =>
      simp only [hminer]
      exact valueFrom_returned o 2
    | some miner =>
      simp only [hminer]
      split
      case isTrue =>
        rw [valueFrom_repeatedCount]
        cases P.toUInt (args.getD (i + 1) []) with
        | none => exact ⟨Nat.lt_succ_self i, rfl⟩
        | some threads => exact ⟨by change i < i + 2; omega, rfl⟩
      case isFalse =>
        rw [valueFrom_count]
        cases P.toUInt (args.getD (i + 1) []) with
        | none => exact ⟨Nat.lt_succ_self i, rfl⟩
        | some threads => exact ⟨by change i < i + 2; omega, rfl⟩

theorem valueFrom_user (o : Options) : valueFrom P args i (o, .user) =
    valueFrom P args (i + 1) ({ o with user := args.getD i [] }, .option) := by
  by_cases hlt : i < args.length
  · rw [valueFrom_of_lt hlt, ← List.getElem_eq_getD (h := hlt) []]
    rfl
  · have hle := Nat.not_lt.mp hlt
    rw [valueFrom_of_le hle, valueFrom_of_le (Nat.le_succ_of_le hle),
      getD_of_le hle]
    rfl

theorem optionRound_spec (s : Nat × Options) (h : args.length < rounds) :
    OptionRound P args s.1 (valueFrom P args s.1 (s.2, .option))
      (optionRound P args rounds s) := by
  by_cases hlt : s.1 < args.length
  · rw [optionRound, dif_pos hlt, valueFrom_of_lt hlt]
    change OptionRound P args s.1 (valueFrom P args (s.1 + 1) (readOption P s.2 args[s.1])) _
    rw [readOption]
    simp only
    split
    case isTrue =>
      rw [valueFrom_user]
      exact ⟨by change s.1 < s.1 + 2; omega, rfl⟩
    split
    case isTrue => exact ⟨Nat.lt_succ_self _, rfl⟩
    split
    case isTrue => exact gpuOption_spec s.2 args[s.1] h
    split
    case isTrue => exact cpuOption_spec s.2 args[s.1]
    case isFalse => exact ⟨Nat.lt_succ_self _, rfl⟩
  · rw [optionRound, dif_neg hlt, valueFrom_of_le (Nat.not_lt.mp hlt)]
    rfl

theorem optionRound_next {s t : Nat × Options} (h : optionRound P args rounds s = .next t) :
    s.1 < args.length := by
  by_contra hnot
  rw [optionRound, dif_neg hnot] at h
  cases h

/-- The main loop ends, and reads the arguments as the automaton does. -/
theorem parse_eq (P : Platform) (h : args.length < rounds) :
    parse P args rounds = finish P (readAll P args (initial P, .option)) := by
  obtain ⟨r, hr, hvalue⟩ : ∃ r, run (optionRound P args rounds) rounds (0, initial P) = some r ∧
      OptionRound P args 0 (valueFrom P args 0 (initial P, .option)) (.exit r) := by
    apply run_spec (I := fun _ => True) (v := fun s : Nat × Options => args.length - s.1)
      (P := fun s r => valueFrom P args s.1 (s.2, .option) = r)
    · intro s r _ hround
      have hspec : OptionRound P args s.1 (valueFrom P args s.1 (s.2, .option))
          (optionRound P args rounds s) := optionRound_spec s h
      rw [hround] at hspec
      exact hspec
    · intro s t _ hround
      have hlt := optionRound_next hround
      have hspec : OptionRound P args s.1 (valueFrom P args s.1 (s.2, .option))
          (optionRound P args rounds s) := optionRound_spec s h
      rw [hround] at hspec
      obtain ⟨hnext, hread⟩ := hspec
      exact ⟨trivial, by omega, fun r hr => hread.trans hr⟩
    · trivial
    · exact h
  rw [parse, hr]
  exact hvalue.symm

theorem finish_ne_running (P : Platform) (s : Options × Mode) : finish P s ≠ .running := by
  rw [finish]
  split <;> simp

end Refinement

section Range
variable {P : Platform} {argv args : List QString} {rounds : Nat}

/-- What becomes of the arguments, pass by pass. -/
def outcome (P : Platform) (args : List QString) : Outcome :=
  match (scanned args).ending with
  | .outOfRange => .outOfRange
  | .crashed => .crashed
  | .command _ => .returned 0
  | .finished =>
    if P.initialized = false then .returned 0
    else conclude (finish P (readAll P (scanned args).kept (initial P, .option)))

theorem kept_length_le (args : List QString) : (scanned args).kept.length ≤ args.length := by
  induction args using scanned.induct with
  | case1 => exact Nat.le_refl _
  | case2 arg rest c hcommand =>
    rw [scanned_cons_of_command hcommand]
    exact Nat.zero_le _
  | case3 hcommand => exact Nat.zero_le _
  | case4 value hcommand => exact Nat.zero_le _
  | case5 value next rest hcommand ih =>
    rw [scanned_proxy]
    change ((scanned rest).kept.length + 1) ≤ rest.length + 3
    omega
  | case6 rest hcommand hproxy =>
    rw [scanned_cons_of_crashme hcommand hproxy rfl]
    exact Nat.zero_le _
  | case7 arg rest hcommand hproxy hcrash ih =>
    rw [scanned_cons_of_plain hcommand hproxy hcrash]
    exact Nat.succ_le_succ ih

theorem main_eq (P : Platform) (hrounds : argv.length + 1 < rounds) :
    main P rounds argv = outcome P (arguments argv) := by
  obtain ⟨⟨e, s⟩, hr, hreading, -⟩ := preScan_eq P hrounds
  have hkept := kept_length_le (arguments argv)
  have hlength := arguments_length_le argv
  rw [main, hr, outcome]
  rw [← hreading] at hkept ⊢
  cases e with
  | finished =>
    have hargs : s.args.length < rounds := by
      have : s.args.length ≤ (arguments argv).length := hkept
      omega
    simp only
    rw [parse_eq P hargs]
    rfl
  | command c => rfl
  | crashed => rfl
  | outOfRange => rfl

/-- The loops end, and nothing outside the list is read or taken. -/
def InRange (P : Platform) (argv : List QString) : Prop :=
  ∀ rounds, argv.length + 1 < rounds →
    main P rounds argv ≠ .running ∧ main P rounds argv ≠ .outOfRange

/-- No `--proxy` that the first pass reads is the last argument. -/
def ProxiesHaveValues : List QString → Prop
  | [] => True
  | arg :: rest =>
    if (commandOf arg).isSome ∨ crashme arg then True
    else if arg = proxyOption then
      match rest with
      | [] => False
      | [_] => True
      | _ :: _ :: rest => ProxiesHaveValues rest
    else ProxiesHaveValues rest

/-- A GPU option waits for its currency, a parameter of a GPU for its value. -/
def Mode.awaits : Mode → Prop
  | .currency _ | .value _ _ _ _ _ => True
  | _ => False

def ValuesGiven (P : Platform) (argv : List QString) : Prop :=
  ProxiesHaveValues (arguments argv) ∧
    ((scanned (arguments argv)).ending = .finished → P.initialized = true →
      ¬ (readAll P (scanned (arguments argv)).kept (initial P, .option)).2.awaits)

theorem proxiesHaveValues_iff (args : List QString) :
    (scanned args).ending ≠ .outOfRange ↔ ProxiesHaveValues args := by
  induction args using scanned.induct with
  | case1 => exact iff_of_true (fun h => End.noConfusion h) trivial
  | case2 arg rest c hcommand =>
    rw [scanned_cons_of_command hcommand, ProxiesHaveValues.eq_def]
    simp [hcommand]
  | case3 hcommand => exact iff_of_false (not_not_intro rfl) id
  | case4 value hcommand => exact iff_of_true (fun h => End.noConfusion h) trivial
  | case5 hcommand value next rest ih => exact ih
  | case6 rest hcommand hproxy =>
    rw [scanned_cons_of_crashme hcommand hproxy rfl, ProxiesHaveValues.eq_def]
    exact iff_of_true (fun h => End.noConfusion h) (by simp [crashme])
  | case7 arg rest hcommand hproxy hcrash ih =>
    rw [scanned_cons_of_plain hcommand hproxy hcrash, ProxiesHaveValues.eq_def]
    simp only [hcommand, hcrash, hproxy, Option.isSome_none, Bool.false_eq_true, or_self, if_false]
    exact ih

theorem finish_eq_outOfRange (s : Options × Mode) : finish P s = .outOfRange ↔ s.2.awaits := by
  obtain ⟨o, mode⟩ := s
  cases mode <;> simp [finish, Mode.awaits]

theorem conclude_inRange (p : Parsed) (hrunning : p ≠ .running) :
    conclude p ≠ .running ∧ (conclude p ≠ .outOfRange ↔ p ≠ .outOfRange) := by
  cases p with
  | parsed o =>
    rw [conclude]
    split
    · simp
    split
    · simp
    · simp
  | returned code => simp [conclude]
  | outOfRange => simp [conclude]
  | running => exact absurd rfl hrunning

theorem outcome_inRange (P : Platform) (args : List QString) :
    outcome P args ≠ .running ∧ (outcome P args ≠ .outOfRange ↔
      (scanned args).ending ≠ .outOfRange ∧
        ((scanned args).ending = .finished → P.initialized = true →
          ¬ (readAll P (scanned args).kept (initial P, .option)).2.awaits)) := by
  rw [outcome]
  cases (scanned args).ending with
  | finished =>
    cases P.initialized with
    | false => simp
    | true =>
      have hend := finish_eq_outOfRange (P := P)
        (readAll P (scanned args).kept (initial P, .option))
      have hconclude := conclude_inRange _ (finish_ne_running P
        (readAll P (scanned args).kept (initial P, .option)))
      rw [← hend]
      simpa using hconclude
  | command c => simp
  | crashed => simp
  | outOfRange => simp

theorem arguments_in_range_iff (P : Platform) (argv : List QString) :
    InRange P argv ↔ ValuesGiven P argv := by
  rw [ValuesGiven, ← proxiesHaveValues_iff, ← (outcome_inRange P (arguments argv)).2]
  constructor
  · intro h
    rw [← main_eq P (Nat.lt_succ_self (argv.length + 1))]
    exact (h _ (Nat.lt_succ_self _)).2
  · intro h rounds hrounds
    rw [main_eq P hrounds]
    exact ⟨(outcome_inRange P (arguments argv)).1, h⟩

/-- A machine with one GPU, where the coin `bcn` is configured. -/
def machine : Platform where
  fromUserInput := fun _ => none
  toUInt := QString.toUInt
  toLower := id
  idealThreadCount := 4
  gpuDevices := ["0_0".toList]
  initialized := true
  minersByTicker := fun ticker => if ticker = "bcn".toList then some "bcn".toList else none
  settings := fun _ => ⟨1, false, []⟩
  coins := .withoutGpu ["bcn".toList] fun _ => false

/-- `--gpu1` is the last argument, and its currency is read behind it. -/
theorem gpu_without_currency :
    ¬ ∀ (P : Platform) (argv : List QString), InRange P argv := by
  intro h
  exact (h machine ["--gpu1".toList] 3 (by decide)).2 rfl

end Range

end MinerGate.Console
