import MinerGate.Coins.CoinSet
import MinerGate.Lib.Loops

/-!
# The first pass over the arguments

`main` goes over the arguments by index and, while it does, takes `--proxy` and its value out of
the list. The element that moves into their place is passed over.
-/

namespace MinerGate.Console

set_option autoImplicit false

open Loops

structure Url where
  scheme : QString
  host : QString
  port : Int
deriving DecidableEq, Repr

structure Proxy where
  hostName : QString
  port : Nat
deriving DecidableEq, Repr

/-- The parameters of a coin that the command line sets. -/
structure CoinSettings where
  speed : UInt32
  running : Bool
  mergedMining : QString

/-- What the program asks Qt, the machine and the configured coins for. An empty URL is none,
`minersByTicker` gives the key of the coin and `settings` what is stored under it. -/
structure Platform where
  fromUserInput : QString → Option Url
  toUInt : QString → Option UInt32
  toLower : QString → QString
  idealThreadCount : Int
  gpuDevices : List QString
  initialized : Bool
  minersByTicker : QString → Option QString
  settings : QString → CoinSettings
  coins : CoinSet

def proxyOption : QString := "--proxy".toList

/-- The options that end the program in the first pass. -/
inductive Command where
  | help
  | version
  | listGpu
  | adjustGpu
deriving DecidableEq, Repr

def commandOf (arg : QString) : Option Command :=
  if arg = "--help".toList ∨ arg = "-h".toList then some .help
  else if arg = "--version".toList ∨ arg = "-v".toList then some .version
  else if arg = "--list-gpu".toList ∨ arg = "-l".toList then some .listGpu
  else if arg = "--adjust-gpu".toList ∨ arg = "-a".toList then some .adjustGpu
  else none

def crashme (arg : QString) : Prop := arg = "--crashme".toList

instance (arg : QString) : Decidable (crashme arg) := inferInstanceAs (Decidable (_ = _))

/-- `takeAt` with an index that is not of the list is undefined behaviour: `none`. -/
def takeAt (args : List QString) (i : Nat) : Option (List QString) :=
  if i < args.length then some (args.eraseIdx i) else none

/-- `applied` is history, newest first: each value with the arguments that stood after it. -/
structure Scan where
  i : Nat
  args : List QString
  proxy : Option Proxy
  applied : List (QString × List QString)

inductive End where
  | command (c : Command)
  | crashed
  | outOfRange
  | finished
deriving DecidableEq, Repr

section Pass
variable (P : Platform)

def setApplicationProxy (proxy : Option Proxy) (value : QString) : Option Proxy :=
  match P.fromUserInput value with
  | none => proxy
  | some url =>
    if P.toLower url.scheme = "socks".toList then some ⟨url.host, (url.port % 65536).toNat⟩
    else proxy

/-- The branch for `--proxy`, with the index of its value. -/
def takeProxy (s : Scan) (i : Nat) : Round Scan (End × Scan) :=
  let value := s.args.getD i []
  let s := { s with
    proxy := setApplicationProxy P s.proxy value
    applied := (value, s.args.drop (i + 1)) :: s.applied }
  match takeAt s.args i with
  | none => .exit (.outOfRange, s)
  | some args =>
    match takeAt args (i - 1) with
    | none => .exit (.outOfRange, s)
    | some args => .next { s with args := args, i := i - 1 + 1 }

def scanRound (s : Scan) : Round Scan (End × Scan) :=
  if h : s.i < s.args.length then
    let arg := s.args[s.i]
    match commandOf arg with
    | some c => .exit (.command c, s)
    | none =>
      if arg = proxyOption then takeProxy P s (s.i + 1)
      else if crashme arg then .exit (.crashed, s)
      else .next { s with i := s.i + 1 }
  else .exit (.finished, s)

/-- Without arguments the program shows its help. -/
def arguments (argv : List QString) : List QString := if argv = [] then ["-h".toList] else argv

def preScan (rounds : Nat) (argv : List QString) : Option (End × Scan) :=
  run (scanRound P) rounds ⟨0, arguments argv, none, []⟩

end Pass

/-- What a pass does with arguments: how it ends, the pairs it takes, oldest first, the arguments
it keeps and those it does not come to. -/
structure Reading where
  ending : End
  applied : List (QString × List QString)
  kept : List QString
  after : List QString
deriving DecidableEq, Repr

namespace Reading

def keep (arg : QString) (r : Reading) : Reading := { r with kept := arg :: r.kept }

def pair (value : QString) (after : List QString) (r : Reading) : Reading :=
  { r with applied := (value, after) :: r.applied }

end Reading

/-- The pass as the code makes it, argument by argument. -/
def scanned : List QString → Reading
  | [] => ⟨.finished, [], [], []⟩
  | arg :: rest =>
    match commandOf arg with
    | some c => ⟨.command c, [], [], rest⟩
    | none =>
      if arg = proxyOption then
        match rest with
        | [] => ⟨.outOfRange, [([], [])], [], []⟩
        | [value] => ⟨.finished, [(value, [])], [], []⟩
        | value :: next :: rest => ((scanned rest).keep next).pair value (next :: rest)
      else if crashme arg then ⟨.crashed, [], [], rest⟩
      else (scanned rest).keep arg

/-- The pass as it is meant: every pair is taken, up to the first option that ends the program. -/
def meant : List QString → Reading
  | [] => ⟨.finished, [], [], []⟩
  | arg :: rest =>
    match commandOf arg with
    | some c => ⟨.command c, [], [], rest⟩
    | none =>
      match rest with
      | [] => ⟨.finished, [], [arg], []⟩
      | value :: rest =>
        if arg = proxyOption then (meant rest).pair value rest
        else (meant (value :: rest)).keep arg

namespace Reading

def prepend (applied : List (QString × List QString)) (kept : List QString) (r : Reading) :
    Reading :=
  { r with applied := applied ++ r.applied, kept := kept ++ r.kept }

variable {r : Reading}

@[simp] theorem prepend_nil : r.prepend [] [] = r := rfl

theorem prepend_keep (applied : List (QString × List QString)) (kept : List QString)
    (arg : QString) :
    (r.keep arg).prepend applied kept = r.prepend applied (kept ++ [arg]) := by
  simp [prepend, keep]

theorem prepend_pair (applied : List (QString × List QString)) (kept : List QString)
    (value : QString) (after : List QString) :
    (r.pair value after).prepend applied kept =
      r.prepend (applied ++ [(value, after)]) kept := by
  simp [prepend, pair]

end Reading

def reading (result : End × Scan) : Reading :=
  match result.1 with
  | .finished => ⟨.finished, result.2.applied.reverse, result.2.args, []⟩
  | e => ⟨e, result.2.applied.reverse, result.2.args.take result.2.i,
      result.2.args.drop (result.2.i + 1)⟩

section Refinement
variable {P : Platform} {s t : Scan} {arg value : QString} {rest : List QString}

theorem takeAt_append (before : List QString) (arg : QString) (rest : List QString) :
    takeAt (before ++ arg :: rest) before.length = some (before ++ rest) := by
  rw [takeAt, if_pos (by simp), List.eraseIdx_append_of_length_le (Nat.le_refl _), Nat.sub_self]
  rfl

theorem takeAt_of_length_le {args : List QString} {i : Nat} (h : args.length ≤ i) :
    takeAt args i = none := if_neg (Nat.not_lt.mpr h)

theorem drop_length_succ (before : List QString) (arg : QString) (rest : List QString) :
    (before ++ arg :: rest).drop (before.length + 1) = rest := by
  rw [← List.drop_drop, List.drop_left]
  rfl

theorem take_length_succ (before : List QString) (arg : QString) (rest : List QString) :
    (before ++ arg :: rest).take (before.length + 1) = before ++ [arg] := by
  rw [List.take_add, List.take_left, List.drop_left]
  rfl

/-- What the rounds from `s` on give: the reading of the arguments from the index on. -/
def Reads (P : Platform) (s : Scan) (result : End × Scan) : Prop :=
  reading result =
      (scanned (s.args.drop s.i)).prepend s.applied.reverse (s.args.take s.i) ∧
    result.2.proxy =
      ((scanned (s.args.drop s.i)).applied.map Prod.fst).foldl (setApplicationProxy P) s.proxy

section Split
variable (before : List QString) (proxy : Option Proxy) (applied : List (QString × List QString))

theorem takeProxy_value (arg value : QString) (rest : List QString) :
    takeProxy P ⟨before.length, before ++ arg :: value :: rest, proxy, applied⟩
        (before.length + 1) =
      .next ⟨before.length + 1, before ++ rest, setApplicationProxy P proxy value,
        (value, rest) :: applied⟩ := by
  have hassoc : before ++ arg :: value :: rest = (before ++ [arg]) ++ value :: rest := by simp
  have hlength : before.length + 1 = (before ++ [arg]).length := by simp
  have hvalue : (before ++ arg :: value :: rest).getD (before.length + 1) [] = value := by
    rw [hassoc, hlength]
    simp
  have hafter : (before ++ arg :: value :: rest).drop (before.length + 1 + 1) = rest := by
    rw [hassoc, hlength, drop_length_succ]
  have htake : takeAt (before ++ arg :: value :: rest) (before.length + 1) =
      some (before ++ arg :: rest) := by
    rw [hassoc, hlength, takeAt_append, List.append_assoc]
    rfl
  simp only [takeProxy, hvalue, hafter, htake, Nat.add_sub_cancel, takeAt_append]

theorem takeProxy_last (arg : QString) :
    takeProxy P ⟨before.length, before ++ [arg], proxy, applied⟩ (before.length + 1) =
      .exit (.outOfRange, ⟨before.length, before ++ [arg], setApplicationProxy P proxy [],
        ([], []) :: applied⟩) := by
  have hvalue : (before ++ [arg]).getD (before.length + 1) [] = [] := by simp
  have hafter : (before ++ [arg]).drop (before.length + 1 + 1) = [] := by simp
  have htake : takeAt (before ++ [arg]) (before.length + 1) = none :=
    takeAt_of_length_le (by simp)
  simp only [takeProxy, hvalue, hafter, htake]

end Split

/-- A round that is made finds an argument at the index. -/
theorem exists_split (h : s.i < s.args.length) : ∃ before arg rest,
    s = ⟨before.length, before ++ arg :: rest, s.proxy, s.applied⟩ := by
  refine ⟨s.args.take s.i, s.args[s.i], s.args.drop (s.i + 1), ?_⟩
  have hlength : (s.args.take s.i).length = s.i := List.length_take_of_le (Nat.le_of_lt h)
  rw [hlength, ← List.drop_eq_getElem_cons h, List.take_append_drop]

theorem scanRound_split {before : List QString} {proxy : Option Proxy}
    {applied : List (QString × List QString)} (hs : s = ⟨before.length, before ++ arg :: rest,
      proxy, applied⟩) :
    scanRound P s =
      match commandOf arg with
      | some c => .exit (.command c, s)
      | none =>
        if arg = proxyOption then takeProxy P s (s.i + 1)
        else if crashme arg then .exit (.crashed, s)
        else .next { s with i := s.i + 1 } := by
  subst hs
  have hlt : before.length < (before ++ arg :: rest).length := by simp
  have hget : (before ++ arg :: rest)[before.length] = arg := by simp
  rw [scanRound, dif_pos hlt]
  simp only [hget]

theorem scanned_cons_of_plain (hcommand : commandOf arg = none) (hproxy : arg ≠ proxyOption)
    (hcrash : ¬ crashme arg) : scanned (arg :: rest) = (scanned rest).keep arg := by
  rw [scanned.eq_def]
  simp only [hcommand, if_neg hproxy, if_neg hcrash]

theorem scanned_cons_of_command {c : Command} (hcommand : commandOf arg = some c) :
    scanned (arg :: rest) = ⟨.command c, [], [], rest⟩ := by
  rw [scanned.eq_def]
  simp only [hcommand]

theorem scanned_cons_of_crashme (hcommand : commandOf arg = none) (hproxy : arg ≠ proxyOption)
    (hcrash : crashme arg) : scanned (arg :: rest) = ⟨.crashed, [], [], rest⟩ := by
  rw [scanned.eq_def]
  simp only [hcommand, if_neg hproxy, if_pos hcrash]

theorem commandOf_proxy : commandOf proxyOption = none := by decide

theorem scanned_proxy :
    scanned (proxyOption :: rest) =
      match rest with
      | [] => ⟨.outOfRange, [([], [])], [], []⟩
      | [value] => ⟨.finished, [(value, [])], [], []⟩
      | value :: next :: rest => ((scanned rest).keep next).pair value (next :: rest) := by
  rw [scanned.eq_def]
  simp only [commandOf_proxy]
  rfl

theorem scan_exit {r : End × Scan} (h : scanRound P s = .exit r) : Reads P s r := by
  by_cases hlt : s.i < s.args.length
  · obtain ⟨before, arg, rest, hs⟩ := exists_split hlt
    rw [scanRound_split hs] at h
    rw [hs] at h ⊢
    unfold Reads
    rw [List.drop_left, List.take_left]
    cases hcommand : commandOf arg with
    | some c =>
      simp only [hcommand] at h
      cases h
      rw [scanned_cons_of_command hcommand]
      simp [reading, Reading.prepend]
    | none =>
      simp only [hcommand] at h
      split at h
      case isTrue hproxy =>
        subst hproxy
        cases rest with
        | nil =>
          rw [takeProxy_last] at h
          cases h
          rw [scanned_proxy]
          simp [reading, Reading.prepend]
        | cons value rest =>
          rw [takeProxy_value] at h
          cases h
      case isFalse hproxy =>
        split at h
        case isTrue hcrash =>
          cases h
          rw [scanned_cons_of_crashme hcommand hproxy hcrash]
          simp [reading, Reading.prepend]
        case isFalse => cases h
  · rw [scanRound, dif_neg hlt] at h
    cases h
    unfold Reads
    rw [List.drop_eq_nil_of_le (Nat.not_lt.mp hlt), List.take_of_length_le (Nat.not_lt.mp hlt)]
    simp [reading, Reading.prepend, scanned]

theorem scan_next (h : scanRound P s = .next t) :
    t.args.length - t.i < s.args.length - s.i ∧ ∀ r, Reads P t r → Reads P s r := by
  by_cases hlt : s.i < s.args.length
  · obtain ⟨before, arg, rest, hs⟩ := exists_split hlt
    rw [scanRound_split hs] at h
    rw [hs] at h ⊢
    unfold Reads
    rw [List.drop_left, List.take_left]
    cases hcommand : commandOf arg with
    | some c =>
      simp only [hcommand] at h
      cases h
    | none =>
      simp only [hcommand] at h
      split at h
      case isTrue hproxy =>
        subst hproxy
        cases rest with
        | nil =>
          rw [takeProxy_last] at h
          cases h
        | cons value rest =>
          rw [takeProxy_value] at h
          cases h
          refine ⟨?_, ?_⟩
          · simp only [List.length_append, List.length_cons]
            omega
          rw [scanned_proxy]
          cases rest with
          | nil =>
            have hdrop : (before ++ []).drop (before.length + 1) = [] := by simp
            have htake : (before ++ []).take (before.length + 1) = before := by
              rw [List.append_nil, List.take_of_length_le (Nat.le_succ _)]
            rw [hdrop, htake]
            intro r hr
            simpa [scanned, Reading.prepend] using hr
          | cons next rest =>
            rw [drop_length_succ, take_length_succ, ← Reading.prepend_keep]
            rintro r ⟨hr, hproxy⟩
            refine ⟨?_, hproxy⟩
            rw [hr, Reading.prepend_pair, List.reverse_cons]
      case isFalse hproxy =>
        split at h
        case isTrue hcrash => cases h
        case isFalse hcrash =>
          cases h
          refine ⟨?_, ?_⟩
          · simp only [List.length_append, List.length_cons]
            omega
          rw [drop_length_succ, take_length_succ, scanned_cons_of_plain hcommand hproxy hcrash,
            Reading.prepend_keep]
          exact fun r hr => hr
  · rw [scanRound, dif_neg hlt] at h
    cases h

theorem arguments_length_le (argv : List QString) :
    (arguments argv).length ≤ argv.length + 1 := by
  rw [arguments]
  split
  · exact Nat.le_add_left _ _
  · exact Nat.le_succ _

/-- The pass ends, and it reads the arguments as `scanned` says. -/
theorem preScan_eq (P : Platform) {argv : List QString} {rounds : Nat}
    (hrounds : argv.length + 1 < rounds) : ∃ r, preScan P rounds argv = some r ∧
      reading r = scanned (arguments argv) ∧
      r.2.proxy =
        ((scanned (arguments argv)).applied.map Prod.fst).foldl (setApplicationProxy P) none := by
  have hlength := arguments_length_le argv
  exact run_spec (I := fun _ => True) (P := Reads P) (v := fun s => s.args.length - s.i)
    (fun s r _ => scan_exit) (fun s t _ h => ⟨trivial, scan_next h⟩) trivial
    (by change (arguments argv).length - 0 < rounds; omega)

end Refinement

section Alignment
variable {arg value next : QString} {rest : List QString}

/-- An argument that ends the pass, or starts a pair, does not follow a pair; no `--proxy` that
is read is the last argument, and no `--crashme` is read. -/
def Aligned : List QString → Prop
  | [] => True
  | arg :: rest =>
    if (commandOf arg).isSome then True
    else if arg = proxyOption then
      match rest with
      | [] => False
      | [_] => True
      | _ :: next :: rest =>
        commandOf next = none ∧ (next = proxyOption → rest = []) ∧ Aligned rest
    else ¬ crashme arg ∧ Aligned rest

theorem aligned_of_command {c : Command} (hcommand : commandOf arg = some c) :
    Aligned (arg :: rest) := by
  rw [Aligned.eq_def]
  simp [hcommand]

theorem aligned_cons (hcommand : commandOf arg = none) (hproxy : arg ≠ proxyOption) :
    Aligned (arg :: rest) ↔ ¬ crashme arg ∧ Aligned rest := by
  rw [Aligned.eq_def]
  simp [hcommand, hproxy]

theorem aligned_proxy :
    Aligned (proxyOption :: value :: next :: rest) ↔
      commandOf next = none ∧ (next = proxyOption → rest = []) ∧ Aligned rest := by
  rw [Aligned.eq_def]
  simp [commandOf_proxy]

theorem meant_cons_of_command {c : Command} (hcommand : commandOf arg = some c) :
    meant (arg :: rest) = ⟨.command c, [], [], rest⟩ := by
  rw [meant.eq_def]
  simp only [hcommand]

theorem meant_cons (hcommand : commandOf arg = none) (hproxy : arg ≠ proxyOption) :
    meant (arg :: rest) = (meant rest).keep arg := by
  rw [meant.eq_def]
  simp only [hcommand, if_neg hproxy]
  cases rest with
  | nil => rfl
  | cons value rest => rfl

theorem meant_proxy :
    meant (proxyOption :: value :: rest) = (meant rest).pair value rest := by
  rw [meant.eq_def]
  simp only [commandOf_proxy, if_true]

theorem meant_ending (args : List QString) :
    (meant args).ending ≠ .crashed ∧ (meant args).ending ≠ .outOfRange := by
  induction args using meant.induct with
  | case1 => exact ⟨by decide, by decide⟩
  | case2 arg rest c hcommand =>
    rw [meant_cons_of_command hcommand]
    exact ⟨by simp, by simp⟩
  | case3 arg hcommand =>
    rw [meant.eq_def]
    simp [hcommand]
  | case4 value rest hcommand ih =>
    rw [meant_proxy]
    exact ih
  | case5 arg hcommand value rest hproxy ih =>
    rw [meant_cons hcommand hproxy]
    exact ih

/-- A pair is two arguments, so that fewer stand after it. -/
theorem applied_shorter {args : List QString} (hrange : (scanned args).ending ≠ .outOfRange)
    {p : QString × List QString} (hp : p ∈ (scanned args).applied) :
    p.2.length + 2 ≤ args.length := by
  induction args using scanned.induct with
  | case1 => cases hp
  | case2 arg rest c hcommand =>
    rw [scanned_cons_of_command hcommand] at hp
    cases hp
  | case3 hcommand => exact absurd rfl hrange
  | case4 value hcommand =>
    obtain rfl : p = (value, []) := List.mem_singleton.mp hp
    exact Nat.le_refl _
  | case5 value next rest hcommand ih =>
    rw [scanned_proxy] at hrange hp
    rcases List.mem_cons.mp hp with rfl | hp
    · exact Nat.le_refl _
    · have := ih hrange hp
      simp only [List.length_cons]
      omega
  | case6 rest hcommand hproxy =>
    rw [scanned_cons_of_crashme hcommand hproxy rfl] at hp
    cases hp
  | case7 arg rest hcommand hproxy hcrash ih =>
    rw [scanned_cons_of_plain hcommand hproxy hcrash] at hrange hp
    have := ih hrange hp
    simp only [List.length_cons]
    omega

theorem keep_inj {r r' : Reading} : r.keep arg = r'.keep arg ↔ r = r' := by
  cases r
  cases r'
  simp [Reading.keep]

theorem pair_inj {r r' : Reading} {after : List QString} :
    r.pair value after = r'.pair value after ↔ r = r' := by
  cases r
  cases r'
  simp [Reading.pair]

/-- After a pair, the pass reads on as it is meant to when the argument that follows is a plain
one. -/
theorem keep_eq_meant_iff (hrest : scanned rest = meant rest ↔ Aligned rest) :
    (scanned rest).keep next = meant (next :: rest) ↔
      commandOf next = none ∧ (next = proxyOption → rest = []) ∧ Aligned rest := by
  cases hcommand : commandOf next with
  | some c =>
    rw [meant_cons_of_command hcommand]
    have hkept : ((scanned rest).keep next).kept ≠ [] := List.cons_ne_nil _ _
    refine iff_of_false (fun h => hkept ?_) (fun h => by cases h.1)
    rw [h]
  | none =>
    by_cases hproxy : next = proxyOption
    · subst hproxy
      cases rest with
      | nil => exact iff_of_true rfl ⟨rfl, fun _ => rfl, trivial⟩
      | cons value rest =>
        refine iff_of_false (fun h => ?_) (fun h => by cases h.2.1 rfl)
        rw [meant_proxy] at h
        have hrange : (scanned (value :: rest)).ending ≠ .outOfRange := by
          have hending := congrArg Reading.ending h
          exact fun hout => (meant_ending rest).2 (hending.symm.trans hout)
        have hpair : (value, rest) ∈ (scanned (value :: rest)).applied := by
          have happlied := congrArg Reading.applied h
          change _ ∈ ((scanned (value :: rest)).keep proxyOption).applied
          rw [happlied]
          exact List.mem_cons_self
        have := applied_shorter hrange hpair
        simp only [List.length_cons] at this
        omega
    · rw [meant_cons hcommand hproxy, keep_inj, hrest]
      simp [hproxy]

theorem scanned_eq_meant_iff (args : List QString) : scanned args = meant args ↔ Aligned args := by
  induction args using scanned.induct with
  | case1 => exact iff_of_true rfl trivial
  | case2 arg rest c hcommand =>
    rw [scanned_cons_of_command hcommand, meant_cons_of_command hcommand]
    exact iff_of_true rfl (aligned_of_command hcommand)
  | case3 hcommand => exact iff_of_false (by decide) id
  | case4 value hcommand => exact iff_of_true rfl (by trivial)
  | case5 value next rest hcommand ih =>
    rw [aligned_proxy, meant_proxy, ← keep_eq_meant_iff ih]
    exact pair_inj
  | case6 rest hcommand hproxy =>
    rw [scanned_cons_of_crashme hcommand hproxy rfl, aligned_cons hcommand hproxy]
    refine iff_of_false (fun h => ?_) (fun h => h.1 rfl)
    exact (meant_ending _).1 (congrArg Reading.ending h).symm
  | case7 arg rest hcommand hproxy hcrash ih =>
    rw [scanned_cons_of_plain hcommand hproxy hcrash, aligned_cons hcommand hproxy,
      meant_cons hcommand hproxy, keep_inj, ih]
    simp [hcrash]

/-- The pass ends; it runs the first option that it is meant to run, applies and takes out each
pair before it, and leaves the other arguments as they are. -/
def ScansAsMeant (P : Platform) (argv : List QString) : Prop :=
  ∀ rounds, argv.length + 1 < rounds → ∃ r, preScan P rounds argv = some r ∧
    reading r = meant (arguments argv) ∧
    r.2.proxy =
      ((meant (arguments argv)).applied.map Prod.fst).foldl (setApplicationProxy P) none

theorem scans_as_meant_iff (P : Platform) (argv : List QString) :
    ScansAsMeant P argv ↔ Aligned (arguments argv) := by
  rw [← scanned_eq_meant_iff]
  constructor
  · intro h
    obtain ⟨r, hr, hmeant, -⟩ := h (argv.length + 2) (Nat.lt_succ_self _)
    obtain ⟨r', hr', hscanned, -⟩ := preScan_eq P (Nat.lt_succ_self (argv.length + 1))
    rw [hr, Option.some.injEq] at hr'
    rw [← hscanned, ← hr', hmeant]
  · intro h rounds hrounds
    rw [← h]
    exact preScan_eq P hrounds

def helpAfterProxy : List QString := [proxyOption, "socks://10.0.0.1:1080".toList, "--help".toList]

/-- The option that follows the pair is not run. -/
theorem help_after_proxy_ignored :
    ¬ ∀ (P : Platform) (argv : List QString), ScansAsMeant P argv := by
  intro h
  let P : Platform := ⟨fun _ => none, fun _ => none, id, 1, [], true, fun _ => none,
    fun _ => ⟨1, false, []⟩,
    ⟨[], fun _ => false, fun _ => false, fun _ => [], fun _ => [], fun _ _ => rfl⟩⟩
  obtain ⟨r, hr, hmeant, -⟩ := h P helpAfterProxy 5 (by decide)
  obtain ⟨r', hr', hscanned, -⟩ := preScan_eq P (show helpAfterProxy.length + 1 < 5 by decide)
  rw [hr, Option.some.injEq] at hr'
  rw [hr', hscanned] at hmeant
  exact absurd hmeant (by decide)

end Alignment

end MinerGate.Console
