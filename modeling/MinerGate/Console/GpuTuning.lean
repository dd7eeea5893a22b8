import MinerGate.Console.ArgumentParser
import MinerGate.Miner.DeviceNumbers

/-!
# The search for GPU parameters

`GpuTester` starts the program `gpu-tester` for every pair of parameters that it tries, and prints
the best pairs as options. The tester decodes its arguments, the command line reads its options.
-/

namespace MinerGate.Console

set_option autoImplicit false

open Loops
open CryptonoteMinerImpl (ImplType)

/-- How a test ends. The user may have stopped the search before it. -/
inductive TestEnd where
  | stopped
  | timeout
  | finished (data : QString)

/-- A card of `allDevices`: its number with its manager, whose loops count with a `quint8`, whether
the DAG of the test can be prepared for it, and how the tests of the pairs end. -/
structure TunedDevice where
  type : ImplType
  index : UInt8
  dag : Bool
  ends : UInt32 × UInt32 → TestEnd

/-- The values of a variable that is doubled as long as the loop goes on. -/
def doublings (goes : UInt32 → Bool) : Nat → UInt32 → List UInt32
  | 0, _ => []
  | n + 1, v => if goes v then v :: doublings goes n (2 * v) else []

def ETH_AVAILABLE_BLOCK_SIZE : List UInt32 := [32, 64, 128, 256]

/-- The pairs of one inner loop after the other: grid and block size, or local and global size. -/
def testedPairs : ImplType → List (List (UInt32 × UInt32))
  | .CUDA =>
    ETH_AVAILABLE_BLOCK_SIZE.map fun blockSize =>
      (doublings (· < 4096) 32 8).map fun gridSize => (gridSize, blockSize)
  | .OpenCL =>
    (doublings (· ≤ 256) 16 8).map fun localSize =>
      (doublings (· ≤ 4096) 32 128).map fun globalSize => (localSize, globalSize)

def contains (s sub : QString) : Bool := s.tails.any (sub.isPrefixOf ·)

/-- The hash rate that the tester has printed, if it is one. -/
def hashrateOf (type : ImplType) (data : QString) : Option UInt32 :=
  if type = .OpenCL ∧ contains data "error".toList then none
  else
    match QString.toUInt data with
    | none => none
    | some hashrate => if hashrate = 0 then none else some hashrate

/-- `QMap` by the hash rate, which keeps the first pair. -/
abbrev TestResults := List (UInt32 × UInt32 × UInt32)

def insertResult (hashrate : UInt32) (pair : UInt32 × UInt32) : TestResults → TestResults
  | [] => [(hashrate, pair)]
  | r :: rs =>
    if hashrate < r.1 then (hashrate, pair) :: r :: rs
    else if hashrate = r.1 then r :: rs
    else r :: insertResult hashrate pair rs

/-- The pairs that were tried, in their order, and what is known then. -/
structure Tested where
  tried : List (UInt32 × UInt32)
  results : TestResults
  stopped : Bool

section Search
variable (d : TunedDevice)

/-- The inner loop, from a pair on. -/
def testRow : List (UInt32 × UInt32) → UInt32 → TestResults → Tested
  | [], _, results => ⟨[], results, false⟩
  | pair :: pairs, maxResult, results =>
    match d.ends pair with
    | .stopped => ⟨[], results, true⟩
    | .timeout =>
      let rest := testRow pairs maxResult results
      { rest with tried := pair :: rest.tried }
    | .finished data =>
      match hashrateOf d.type data with
      | none => ⟨[pair], results, false⟩
      | some hashrate =>
        if hashrate ≤ maxResult then ⟨[pair], results, false⟩
        else
          let rest := testRow pairs hashrate (insertResult hashrate pair results)
          { rest with tried := pair :: rest.tried }

def testRows : List (List (UInt32 × UInt32)) → TestResults → Tested
  | [], results => ⟨[], results, false⟩
  | row :: rows, results =>
    let first := testRow d row 0 results
    if first.stopped then first
    else
      let rest := testRows rows first.results
      { rest with tried := first.tried ++ rest.tried }

def testDevice : Tested := testRows d (testedPairs d.type) []

end Search

def typeName : ImplType → QString
  | .CUDA => "CUDA".toList
  | .OpenCL => "OpenCL".toList

def testArgs (type : ImplType) (deviceNo : Nat) (pair : UInt32 × UInt32) : List QString :=
  [typeName type, QString.number deviceNo, "3".toList, QString.number pair.1.toNat,
    QString.number pair.2.toNat]

def firstName : ImplType → QString
  | .CUDA => "--cuda-gridsize".toList
  | .OpenCL => "--cl-globalsize".toList

def secondName : ImplType → QString
  | .CUDA => "--cuda-blocksize".toList
  | .OpenCL => "--cl-localsize".toList

def suggestion (type : ImplType) (result : UInt32 × UInt32) : QString :=
  let template := "%2=%3\t%4=%5".toList
  let withFirst := QString.arg (QString.arg template (firstName type))
    (QString.number result.1.toNat)
  QString.arg (QString.arg withFirst (secondName type)) (QString.number result.2.toNat)

/-- The last four entries. -/
def bestResults (results : TestResults) : List (UInt32 × UInt32) :=
  (results.drop (results.length - 4)).map Prod.snd

/-- What `GpuTester` does for the card at a position of the list. -/
inductive TuningEvent where
  | tested (i : Nat) (pair : UInt32 × UInt32) (args : List QString)
  | suggested (i : Nat) (pair : UInt32 × UInt32) (line : QString)
deriving DecidableEq

/-- The loop of `GpuTester::run`, from the card at position `i` on. -/
def GpuTester.run : List TunedDevice → Nat → Nat → List TuningEvent
  | [], _, _ => []
  | d :: ds, i, deviceNo =>
    if ¬ d.dag then run ds (i + 1) deviceNo
    else
      let r := testDevice d
      r.tried.map (fun pair => .tested i pair (testArgs d.type deviceNo pair)) ++
        if r.stopped then []
        else if r.results = [] then run ds (i + 1) deviceNo
        else
          (bestResults r.results).map (fun pair => .suggested i pair (suggestion d.type pair)) ++
            run ds (i + 1) (deviceNo + 1)

namespace GPUTester

/-- The arguments of `gpu-tester`, once they are decoded. -/
structure Call where
  type : ImplType
  family : HashFamily
  deviceNo : UInt32
  firstParam : UInt32
  secondParam : UInt32

/-- `main` of `gpu-tester` with its positional arguments; `none` shows the help. -/
def main : List QString → Option Call
  | [sType, no, fam, first, second] =>
    if sType ≠ "CUDA".toList ∧ sType ≠ "OpenCL".toList then none
    else
      let implType := if sType = "CUDA".toList then ImplType.CUDA else .OpenCL
      (QString.toInt no).bind fun deviceNo =>
        if deviceNo < 0 then none
        else
          (QString.toInt fam).bind fun iFamily =>
            if iFamily ≠ 1 ∧ iFamily ≠ 3 then none
            else
              (QString.toInt first).bind fun firstParam =>
                (QString.toInt second).map fun secondParam =>
                  { type := implType
                    family := if iFamily = 1 then .CryptoNight else .Ethereum
                    deviceNo := UInt32.ofInt deviceNo
                    firstParam := UInt32.ofInt firstParam
                    secondParam := UInt32.ofInt secondParam }
  | _ => none

/-- `gpuParams` of `GPUTesterPrivate::test` -/
def gpuParams (c : Call) : DeviceParams :=
  match c.type with
  | .CUDA =>
    insertParam
      (insertParam (insertParam noParams CudaDeviceParam.Intensity.toInt 4)
        CudaDeviceParam.GridSize.toInt c.firstParam)
      CudaDeviceParam.BlockSize.toInt c.secondParam
  | .OpenCL =>
    insertParam (insertParam noParams OclDeviceParam.GlobalWorkSize.toInt c.firstParam)
      OclDeviceParam.LocalWorkSize.toInt c.secondParam

end GPUTester

section RoundTrip
variable (P : Platform) (devices : List TunedDevice)

/-- The parameters are those that `GpuTester` means by the pair. -/
def Means (type : ImplType) (pair : UInt32 × UInt32) (params : DeviceParams) : Prop :=
  match type with
  | .CUDA =>
    params CudaDeviceParam.GridSize.toInt = some pair.1 ∧
      params CudaDeviceParam.BlockSize.toInt = some pair.2
  | .OpenCL =>
    params OclDeviceParam.LocalWorkSize.toInt = some pair.1 ∧
      params OclDeviceParam.GlobalWorkSize.toInt = some pair.2

/-- The tester tests the card with the pair for Ethereum. -/
def Decoded (d : TunedDevice) (pair : UInt32 × UInt32) (args : List QString) : Prop :=
  ∃ call, GPUTester.main args = some call ∧ call.type = d.type ∧
    call.deviceNo.toNat = d.index.toNat ∧ call.family = .Ethereum ∧
    Means d.type pair (GPUTester.gpuParams call)

/-- The words of a line are read as parameters of a GPU, all of them, and they are the pair. -/
def Accepted (d : TunedDevice) (pair : UInt32 × UInt32) (line : QString) : Prop :=
  ∃ rounds params, ∃ args, args = "--gpu1".toList :: "eth".toList :: line.splitOn '\t' ∧
    Loops.run (paramRound P args) rounds (2, noParams) = some (.parsed args.length params) ∧
    Means d.type pair params

def TuningEvent.Right : TuningEvent → Prop
  | .tested i pair args => ∃ d, devices[i]? = some d ∧ Decoded d pair args
  | .suggested i pair line => ∃ d, devices[i]? = some d ∧ Accepted P d pair line

/-- The DAG is there and some test has a result. -/
def passes (d : TunedDevice) : Bool := d.dag && !(testDevice d).results.isEmpty

def passedBefore (i : Nat) : Nat := (devices.take i).countP passes

/-- The card has the number that the cards before it have counted up, and the order of the two
numbers does not matter. A line never fits. -/
def TuningEvent.Fits : TuningEvent → Prop
  | .tested i pair _ => ∃ d, devices[i]? = some d ∧ d.index.toNat = passedBefore devices i ∧
      (d.type = .CUDA ∨ pair.1 = pair.2)
  | .suggested _ _ _ => False

variable {P devices} {d : TunedDevice} {pair : UInt32 × UInt32}

theorem tried_testRow {row : List (UInt32 × UInt32)} {maxResult : UInt32}
    {results : TestResults} (h : pair ∈ (testRow d row maxResult results).tried) : pair ∈ row := by
  induction row generalizing maxResult results with
  | nil => cases h
  | cons next row ih =>
    rw [testRow] at h
    split at h
    case h_1 => cases h
    case h_2 =>
      rcases List.mem_cons.mp h with rfl | h
      · exact List.mem_cons_self
      · exact List.mem_cons_of_mem _ (ih h)
    case h_3 data _ =>
      have hself : pair ∈ [next] → pair ∈ next :: row := fun h =>
        List.mem_singleton.mp h ▸ List.mem_cons_self
      split at h
      · exact hself h
      · split at h
        · exact hself h
        · rcases List.mem_cons.mp h with rfl | h
          · exact List.mem_cons_self
          · exact List.mem_cons_of_mem _ (ih h)

theorem tried_testRows {rows : List (List (UInt32 × UInt32))} {results : TestResults}
    (h : pair ∈ (testRows d rows results).tried) : ∃ row ∈ rows, pair ∈ row := by
  induction rows generalizing results with
  | nil => cases h
  | cons row rows ih =>
    rw [testRows] at h
    have hfirst : pair ∈ (testRow d row 0 results).tried → ∃ r ∈ row :: rows, pair ∈ r := fun h =>
      ⟨row, List.mem_cons_self, tried_testRow h⟩
    split at h
    · exact hfirst h
    · rcases List.mem_append.mp h with h | h
      · exact hfirst h
      · obtain ⟨r, hr, hpair⟩ := ih h
        exact ⟨r, List.mem_cons_of_mem _ hr, hpair⟩

theorem goes_of_mem_doublings {goes : UInt32 → Bool} {n : Nat} {v w : UInt32}
    (h : w ∈ doublings goes n v) : goes w = true := by
  induction n generalizing v with
  | zero => cases h
  | succ n ih =>
    rw [doublings] at h
    split at h
    case isFalse => cases h
    case isTrue hgoes =>
      rcases List.mem_cons.mp h with heq | hmem
      · rw [heq]
        exact hgoes
      · exact ih hmem

theorem testedPairs_lt (type : ImplType) :
    ∀ row ∈ testedPairs type, ∀ pair ∈ row,
      pair.1.toNat < 2147483648 ∧ pair.2.toNat < 2147483648 := by
  intro row hrow pair hpair
  cases type with
  | CUDA =>
    obtain ⟨blockSize, hblock, rfl⟩ := List.mem_map.mp hrow
    obtain ⟨gridSize, hgrid, rfl⟩ := List.mem_map.mp hpair
    have hlt : gridSize.toNat < 4096 := of_decide_eq_true (goes_of_mem_doublings hgrid)
    have hblock : blockSize.toNat ≤ 256 := by
      simp only [ETH_AVAILABLE_BLOCK_SIZE, List.mem_cons, List.not_mem_nil, or_false] at hblock
      rcases hblock with rfl | rfl | rfl | rfl
      · exact Nat.le_of_ble_eq_true rfl
      · exact Nat.le_of_ble_eq_true rfl
      · exact Nat.le_of_ble_eq_true rfl
      · exact Nat.le_of_ble_eq_true rfl
    constructor
    · exact Nat.lt_trans hlt (by omega)
    · exact Nat.lt_of_le_of_lt hblock (by omega)
  | OpenCL =>
    obtain ⟨localSize, hlocal, rfl⟩ := List.mem_map.mp hrow
    obtain ⟨globalSize, hglobal, rfl⟩ := List.mem_map.mp hpair
    have hlocal : localSize.toNat ≤ 256 := of_decide_eq_true (goes_of_mem_doublings hlocal)
    have hglobal : globalSize.toNat ≤ 4096 := of_decide_eq_true (goes_of_mem_doublings hglobal)
    constructor
    · exact Nat.lt_of_le_of_lt hlocal (by omega)
    · exact Nat.lt_of_le_of_lt hglobal (by omega)

theorem passedBefore_succ (d : TunedDevice) (devices : List TunedDevice) (k : Nat) :
    passedBefore (d :: devices) (k + 1) = passedBefore devices k + if passes d then 1 else 0 :=
  List.countP_cons

/-- A card whose tests have ended was counted if it passed. -/
theorem passes_eq_false (h : d.dag = false ∨ (testDevice d).results = []) : passes d = false := by
  rw [passes]
  rcases h with h | h
  · rw [h, Bool.false_and]
  · rw [h, List.isEmpty_nil, Bool.not_true, Bool.and_false]

/-- What the loop does, it does for one of the cards, with the number that it has counted to. -/
theorem mem_run {i deviceNo : Nat} {e : TuningEvent} (h : e ∈ GpuTester.run devices i deviceNo) :
    ∃ k d, devices[k]? = some d ∧
      ((∃ pair ∈ (testDevice d).tried,
          e = .tested (i + k) pair (testArgs d.type (deviceNo + passedBefore devices k) pair)) ∨
        ∃ pair, e = .suggested (i + k) pair (suggestion d.type pair)) := by
  induction devices generalizing i deviceNo with
  | nil => cases h
  | cons d devices ih =>
    have hnext : ∀ counted, counted = deviceNo + (if passes d then 1 else 0) →
        e ∈ GpuTester.run devices (i + 1) counted → ∃ k d', (d :: devices)[k]? = some d' ∧
          ((∃ pair ∈ (testDevice d').tried, e = .tested (i + k) pair
              (testArgs d'.type (deviceNo + passedBefore (d :: devices) k) pair)) ∨
            ∃ pair, e = .suggested (i + k) pair (suggestion d'.type pair)) := by
      intro counted hcounted h
      obtain ⟨k, d', hd', hevent⟩ := ih h
      refine ⟨k + 1, d', hd', ?_⟩
      have hcount : deviceNo + passedBefore (d :: devices) (k + 1) =
          counted + passedBefore devices k := by
        rw [passedBefore_succ, hcounted]
        omega
      rw [hcount, ← Nat.add_assoc, Nat.add_right_comm]
      exact hevent
    rw [GpuTester.run] at h
    split at h
    case isTrue hdag =>
      have hpasses : passes d = false := passes_eq_false (Or.inl (by simpa using hdag))
      exact hnext deviceNo (by rw [hpasses]; rfl) h
    case isFalse hdag =>
      rcases List.mem_append.mp h with h | h
      · obtain ⟨pair, hpair, rfl⟩ := List.mem_map.mp h
        exact ⟨0, d, rfl, Or.inl ⟨pair, hpair, rfl⟩⟩
      · split at h
        · cases h
        · split at h
          case isFalse.isTrue hresults =>
            exact hnext deviceNo (by rw [passes_eq_false (Or.inr hresults)]; rfl) h
          case isFalse.isFalse hresults =>
            rcases List.mem_append.mp h with h | h
            · obtain ⟨pair, -, rfl⟩ := List.mem_map.mp h
              exact ⟨0, d, rfl, Or.inr ⟨pair, rfl⟩⟩
            · have hpasses : passes d = true := by
                rw [passes, Bool.and_eq_true, Bool.not_eq_true', List.isEmpty_eq_false_iff]
                exact ⟨by simpa using hdag, hresults⟩
              exact hnext (deviceNo + 1) (by rw [hpasses]; rfl) h

section Decode

theorem ofInt_natCast (n : Nat) : UInt32.ofInt (n : Int) = UInt32.ofNat n := by
  apply UInt32.toNat_inj.mp
  rw [UInt32.ofInt, UInt32.toNat_ofNat', UInt32.toNat_ofNat']
  omega

theorem main_testArgs {type : ImplType} {deviceNo : Nat} (hpair : pair.1.toNat < 2147483648 ∧
    pair.2.toNat < 2147483648) :
    GPUTester.main (testArgs type deviceNo pair) =
      if deviceNo < 2147483648 then
        some ⟨type, .Ethereum, UInt32.ofNat deviceNo, pair.1, pair.2⟩
      else none := by
  have hthree : QString.toInt "3".toList = some 3 := by decide
  have hname : ¬ (typeName type ≠ "CUDA".toList ∧ typeName type ≠ "OpenCL".toList) := by
    cases type with
    | CUDA => exact fun h => h.1 rfl
    | OpenCL => exact fun h => h.2 rfl
  have htype : (if typeName type = "CUDA".toList then ImplType.CUDA else .OpenCL) = type := by
    cases type with
    | CUDA => exact if_pos rfl
    | OpenCL => exact if_neg (by decide)
  rw [testArgs, GPUTester.main, if_neg hname]
  simp only [htype, hthree, QString.toInt_number, if_pos hpair.1, if_pos hpair.2, Option.bind_some,
    Option.map_some]
  split
  case isFalse => rfl
  case isTrue =>
    rw [Option.bind_some, if_neg (by omega), if_neg (by decide), if_neg (by decide),
      ofInt_natCast, ofInt_natCast, ofInt_natCast, UInt32.ofNat_toNat, UInt32.ofNat_toNat]

theorem means_gpuParams (type : ImplType) (family : HashFamily) (deviceNo : UInt32) :
    Means type pair (GPUTester.gpuParams ⟨type, family, deviceNo, pair.1, pair.2⟩) ↔
      type = .CUDA ∨ pair.1 = pair.2 := by
  cases type with
  | CUDA => exact iff_of_true ⟨rfl, rfl⟩ (Or.inl rfl)
  | OpenCL =>
    constructor
    · rintro ⟨hlocal, -⟩
      exact Or.inr (Option.some.inj hlocal).symm
    · rintro (h | h)
      · cases h
      · exact ⟨congrArg some h.symm, congrArg some h⟩

theorem decoded_iff {deviceNo : Nat} (hpair : pair.1.toNat < 2147483648 ∧
    pair.2.toNat < 2147483648) :
    Decoded d pair (testArgs d.type deviceNo pair) ↔
      d.index.toNat = deviceNo ∧ (d.type = .CUDA ∨ pair.1 = pair.2) := by
  have hindex := d.index.toNat_lt
  rw [Decoded, main_testArgs hpair, ← means_gpuParams d.type .Ethereum (UInt32.ofNat deviceNo)]
  split
  case isTrue hlt =>
    have hno : (UInt32.ofNat deviceNo).toNat = deviceNo := by
      rw [UInt32.toNat_ofNat', Nat.mod_eq_of_lt (by omega)]
    constructor
    · rintro ⟨call, hcall, -, hdevice, -, hmeans⟩
      cases hcall
      exact ⟨hdevice.symm.trans hno, hmeans⟩
    · rintro ⟨rfl, hmeans⟩
      exact ⟨_, rfl, rfl, hno, rfl, hmeans⟩
  case isFalse hge =>
    refine iff_of_false (fun ⟨call, hcall, _⟩ => by cases hcall) fun h => ?_
    omega

end Decode

section Lines

def Dashed (s : QString) : Prop := ∃ rest, s = '-' :: '-' :: rest

theorem Dashed.arg {s : QString} (h : Dashed s) (a : QString) : Dashed (QString.arg s a) := by
  obtain ⟨rest, rfl⟩ := h
  rw [QString.arg]
  split
  · have hmarker : ∀ t : QString, QString.marker ('-' :: t) = none := fun t =>
      QString.marker_plain (by decide)
    simp only [QString.replaceMarker, hmarker]
    exact ⟨_, rfl⟩
  · exact ⟨rest, rfl⟩

theorem dashed_suggestion (type : ImplType) (result : UInt32 × UInt32) :
    Dashed (suggestion type result) := by
  have hfirst : Dashed (QString.arg "%2=%3\t%4=%5".toList (firstName type)) := by
    cases type with
    | CUDA => exact ⟨"cuda-gridsize=%3\t%4=%5".toList, by decide⟩
    | OpenCL => exact ⟨"cl-globalsize=%3\t%4=%5".toList, by decide⟩
  exact ((hfirst.arg _).arg _).arg _

theorem Dashed.splitOn {s : QString} (h : Dashed s) :
    ∃ word words, s.splitOn '\t' = word :: words ∧ Dashed word := by
  obtain ⟨rest, rfl⟩ := h
  obtain ⟨word, words, hrest⟩ := List.exists_cons_of_ne_nil (List.splitOn_ne_nil '\t' rest)
  refine ⟨'-' :: '-' :: word, words, ?_, word, rfl⟩
  rw [List.splitOn_cons_eq_if_modifyHead, List.splitOn_cons_eq_if_modifyHead, hrest]
  rfl

theorem startsWith_of_dashed {s : QString} (h : Dashed s) : startsWith s "--".toList = true := by
  obtain ⟨rest, rfl⟩ := h
  rfl

/-- The parser takes the first word for the next option. -/
theorem not_accepted (line : QString) (h : Dashed line) : ¬ Accepted P d pair line := by
  rintro ⟨rounds, params, args, hargs, hrun, -⟩
  obtain ⟨word, words, hsplit, hword⟩ := h.splitOn
  rw [hsplit] at hargs
  subst hargs
  have hround : paramRound P ("--gpu1".toList :: "eth".toList :: word :: words) (2, noParams) =
      .exit (.parsed 1 noParams) := by
    rw [paramRound_of_lt (by simp)]
    exact if_pos (startsWith_of_dashed hword)
  have hone : Loops.run (paramRound P ("--gpu1".toList :: "eth".toList :: word :: words)) (0 + 1)
      (2, noParams) = some (.parsed 1 noParams) := run_exit hround
  have hend := run_unique hrun hone
  injection hend with hlength
  simp at hlength

end Lines

/-- A test is made with the card and the pair that are meant exactly when the card's own number is
how many cards have passed before it, and its library is CUDA or the two numbers are equal. No line
is read back. -/
theorem gpu_tuning_iff (P : Platform) (devices : List TunedDevice) :
    ∀ e ∈ GpuTester.run devices 0 0, (e.Right P devices ↔ e.Fits devices) := by
  intro e he
  obtain ⟨k, d, hd, hevent⟩ := mem_run he
  rw [Nat.zero_add, Nat.zero_add] at hevent
  rcases hevent with ⟨pair, hpair, rfl⟩ | ⟨pair, rfl⟩
  · obtain ⟨row, hrow, hmem⟩ := tried_testRows hpair
    have hdecoded : Decoded d pair (testArgs d.type (passedBefore devices k) pair) ↔
        d.index.toNat = passedBefore devices k ∧ (d.type = .CUDA ∨ pair.1 = pair.2) :=
      decoded_iff (testedPairs_lt d.type row hrow pair hmem)
    simp only [TuningEvent.Right, TuningEvent.Fits, hd, Option.some.injEq, exists_eq_left',
      hdecoded]
  · refine iff_of_false ?_ id
    rintro ⟨d', hd', haccepted⟩
    rw [hd] at hd'
    cases hd'
    exact not_accepted _ (dashed_suggestion d.type pair) haccepted

/-- A card for which every test runs into the timeout. -/
def slowCard (type : ImplType) : TunedDevice := ⟨type, 0, true, fun _ => .timeout⟩

/-- A card whose tests all print the same hash rate. -/
def steadyCard (type : ImplType) (index : UInt8) : TunedDevice :=
  ⟨type, index, true, fun _ => .finished "100".toList⟩

/-- The tests of the first card fail and the third one has no DAG; the others are tested with their
own numbers. -/
def mixedCards : List TunedDevice :=
  [slowCard .CUDA, steadyCard .OpenCL 0, ⟨.CUDA, 1, false, fun _ => .stopped⟩, steadyCard .CUDA 1]

theorem gpu_tuning_first :
    (TuningEvent.tested 1 (128, 128) (testArgs .OpenCL 0 (128, 128))).Right machine mixedCards ∧
      (TuningEvent.tested 3 (8, 32) (testArgs .CUDA 1 (8, 32))).Right machine mixedCards := by
  constructor
  · exact (gpu_tuning_iff machine mixedCards _ (by decide +kernel)).mpr
      ⟨_, rfl, by decide +kernel, Or.inr rfl⟩
  · exact (gpu_tuning_iff machine mixedCards _ (by decide +kernel)).mpr
      ⟨_, rfl, by decide +kernel, Or.inl rfl⟩

/-- The first pair for an OpenCL card is the local size 8 and the global size 128, and the tester
takes 8 for the global size. -/
theorem sizes_swapped : ¬ ∀ (P : Platform) (devices : List TunedDevice),
    ∀ e ∈ GpuTester.run devices 0 0, e.Right P devices := by
  intro h
  have hmem : TuningEvent.tested 0 (8, 128) (testArgs .OpenCL 0 (8, 128)) ∈
      GpuTester.run [slowCard .OpenCL] 0 0 := by
    apply List.mem_append_left
    exact List.mem_map.mpr ⟨(8, 128), by decide, rfl⟩
  obtain ⟨d, hd, hdecoded⟩ := h machine [slowCard .OpenCL] _ hmem
  cases hd
  have hfits : (slowCard .OpenCL).index.toNat = 0 ∧
      ((slowCard .OpenCL).type = .CUDA ∨ (8 : UInt32) = 128) :=
    (decoded_iff ⟨by decide, by decide⟩).mp hdecoded
  exact absurd hfits.2 (by decide)

end RoundTrip

end MinerGate.Console
