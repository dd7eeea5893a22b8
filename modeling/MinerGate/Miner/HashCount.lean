import MinerGate.Lib.Tally
import MinerGate.Miner.CpuLoop
import MinerGate.Miner.HRCounter

/-!
# Counting hashes

The CPU loops count every hash in `m_cpuHashBuffer`, a GPU loop its batches in `m_hashCount`.
`updateHashRate` and `takeHashCount` load the counter, store zero in it, and pass what they have
loaded to `addHRItem`. Each access to the atomic counter is a step.
-/

namespace MinerGate

set_option autoImplicit false

open Transition

/-- What has been passed to `addHRItem` so far, and the number of hashes computed. -/
structure Counted where
  passed : List UInt64
  computed : Nat
deriving DecidableEq, Repr

namespace Counted

def none : Counted := ⟨[], 0⟩

def pass (c : Counted) (hashes : UInt32) : Counted :=
  { c with passed := c.passed ++ [hashes.toUInt64] }

def compute (c : Counted) (hashes : Nat) : Counted := { c with computed := c.computed + hashes }

def sum (c : Counted) : Nat := (c.passed.map UInt64.toNat).sum

@[simp] theorem computed_pass (c : Counted) (hashes : UInt32) :
    (c.pass hashes).computed = c.computed :=
  rfl

@[simp] theorem computed_compute (c : Counted) (hashes : Nat) :
    (c.compute hashes).computed = c.computed + hashes :=
  rfl

@[simp] theorem sum_compute (c : Counted) (hashes : Nat) : (c.compute hashes).sum = c.sum := rfl

@[simp] theorem sum_pass (c : Counted) (hashes : UInt32) :
    (c.pass hashes).sum = c.sum + hashes.toNat := by
  rw [sum, pass, List.map_append, List.sum_append_nat, List.map_singleton, List.sum_singleton,
    UInt32.toNat_toUInt64]
  rfl

end Counted

/-- A search, and whether it counts a nonce that it has hashed: the Ethereum worker does not count
one that fails `ethash_quick_check_difficulty`. -/
structure CountedSearch extends Search where
  counts : MiningJob → Nat → Bool

/-- `CryptonoteWorkerPrivate::search` counts every nonce. -/
def cryptonoteCounted (slowHash : QByteArray → QByteArray) : CountedSearch :=
  { cryptonoteSearch slowHash with counts := fun _ _ => true }

/-- Whether the next step of the loop computes a hash, and whether it counts it. -/
def CpuLoop.computes (l : CpuLoop) : Bool :=
  match l.pc with
  | .hash _ _ _ => true
  | _ => false

def CpuLoop.counts (search : CountedSearch) (l : CpuLoop) : Bool :=
  match l.pc with
  | .hash _ nonce _ => search.counts l.m_currentJob nonce
  | _ => false

theorem CpuLoop.computes_of_counts {search : CountedSearch} {l : CpuLoop}
    (h : l.counts search = true) : l.computes = true := by
  obtain ⟨pc, job⟩ := l
  cases pc with
  | hash originJob nonce last => rfl
  | _ => cases h

/-- The access that `updateHashRate` makes next. -/
inductive RatePc where
  | load
  | addHRItem (hashes : UInt32)
  | store
deriving DecidableEq, Repr

/-- The loops of all workers and the counter they share. -/
structure CpuHashRate where
  loops : List CpuLoop
  m_cpuHashBuffer : UInt32
  m_cpuHrCounter : HRCounter
  pc : RatePc
deriving DecidableEq, Repr

inductive CpuHashEvent where
  | startMining (worker : Nat)
  | loop (worker : Nat) (sh : Shared) (inp : Input)
  | updateHashRate (now : Int)

namespace CpuHashRate

def start (threads : Nat) (hrCounter : HRCounter) : CpuHashRate :=
  ⟨List.replicate threads .new, 0, hrCounter, .load⟩

def setLoop (s : CpuHashRate) (worker : Nat) (l : CpuLoop) : CpuHashRate :=
  { s with loops := s.loops.set worker l }

def updateHashRate (s : CpuHashRate) (now : Int) : CpuHashRate :=
  match s.pc with
  | .load => { s with pc := .addHRItem s.m_cpuHashBuffer }
  | .addHRItem hashes =>
    { s with m_cpuHrCounter := s.m_cpuHrCounter.addHRItem hashes.toUInt64 now, pc := .store }
  | .store => { s with m_cpuHashBuffer := 0, pc := .load }

def step (search : CountedSearch) (s : CpuHashRate) : CpuHashEvent → Option CpuHashRate
  | .startMining worker =>
    s.loops[worker]?.bind fun l =>
      if l.pc = .idle then some (s.setLoop worker (l.goto .entry)) else none
  | .loop worker sh inp =>
    s.loops[worker]?.bind fun l =>
      (l.step search.toSearch sh inp).map fun r =>
        let s := s.setLoop worker r.loop
        -- `m_hash_counter++`
        if l.counts search then { s with m_cpuHashBuffer := s.m_cpuHashBuffer + 1 } else s
  | .updateHashRate now => some (s.updateHashRate now)

def loopAt (s : CpuHashRate) (worker : Nat) : CpuLoop := (s.loops[worker]?).getD .new

def note (s : CpuHashRate) (e : CpuHashEvent) (c : Counted) : Counted :=
  match e with
  | .startMining _ => c
  | .loop worker _ _ => if (s.loopAt worker).computes then c.compute 1 else c
  | .updateHashRate _ =>
    match s.pc with
    | .addHRItem hashes => c.pass hashes
    | _ => c

/-- The step counts what it computes: not while `updateHashRate` has loaded the counter and not yet
stored zero, and not when the counter is full. -/
def CountsAll (search : CountedSearch) (s : CpuHashRate) : CpuHashEvent → Prop
  | .loop worker _ _ => (s.loopAt worker).computes = true →
      (s.loopAt worker).counts search = true ∧ s.pc = .load ∧
        s.m_cpuHashBuffer.toNat + 1 < 4294967296
  | _ => True

def held (s : CpuHashRate) : Nat :=
  match s.pc with
  | .addHRItem hashes => hashes.toNat
  | _ => 0

def tally (p : CpuHashRate × Counted) : Tally where
  counter := p.1.m_cpuHashBuffer.toNat
  passed := p.2.sum
  held := p.1.held
  resetting := p.1.pc ≠ .load
  made := p.2.computed

variable {search : CountedSearch} {s t : CpuHashRate} {c c' : Counted}

theorem held_of_load (h : s.pc = .load) : s.held = 0 := by
  rw [held, h]

theorem loop_cases {worker : Nat} {sh : Shared} {inp : Input}
    (h : s.step search (.loop worker sh inp) = some t) :
    t.pc = s.pc ∧ t.m_cpuHashBuffer = if (s.loopAt worker).counts search then
      s.m_cpuHashBuffer + 1 else s.m_cpuHashBuffer := by
  obtain ⟨l, hl, h⟩ := Option.bind_eq_some_iff.mp h
  obtain ⟨r, -, h⟩ := Option.map_eq_some_iff.mp h
  have hat : s.loopAt worker = l := by
    rw [loopAt, hl]
    rfl
  subst h
  rw [hat]
  split
  · exact ⟨rfl, rfl⟩
  · exact ⟨rfl, rfl⟩

theorem counts_loop {worker : Nat} {sh : Shared} {inp : Input}
    (h : s.step search (.loop worker sh inp) = some t) :
    (tally (t, s.note (.loop worker sh inp) c) = tally (s, c) ∧
      s.CountsAll search (.loop worker sh inp)) ∨
    ∃ e', Tally.step 4294967296 (tally (s, c)) e' =
        some (tally (t, s.note (.loop worker sh inp) c)) ∧
      (s.CountsAll search (.loop worker sh inp) ↔ Tally.Lossless 4294967296 (tally (s, c)) e') := by
  obtain ⟨hpc, hbuffer⟩ := loop_cases h
  have hheld : t.held = s.held := by
    rw [held, held, hpc]
  cases hcomputes : (s.loopAt worker).computes with
  | false =>
    left
    have hcounts : (s.loopAt worker).counts search = false := by
      by_contra hcounts
      rw [CpuLoop.computes_of_counts (Bool.eq_true_of_not_eq_false hcounts)] at hcomputes
      cases hcomputes
    rw [hcounts] at hbuffer
    refine ⟨?_, fun hnot => ?_⟩
    · simp [tally, note, hcomputes, hheld, hbuffer, hpc]
    · rw [hcomputes] at hnot
      cases hnot
  | true =>
    right
    refine ⟨.add 1 (if (s.loopAt worker).counts search = true then 1 else 0), ?_, ?_⟩
    · rw [Tally.step, if_pos (by split <;> omega)]
      have hlt := s.m_cpuHashBuffer.toNat_lt
      cases hcounts : (s.loopAt worker).counts search with
      | true => simp [tally, note, hcomputes, hheld, hbuffer, hpc, hcounts]
      | false =>
        simp [tally, note, hcomputes, hheld, hbuffer, hpc, hcounts,
          Nat.mod_eq_of_lt hlt]
    · simp only [CountsAll, hcomputes, Tally.Lossless, tally]
      by_cases hload : s.pc = .load
      · simp [hload]
      · simp [hload]

/-- What the loops and `updateHashRate` do is what a tally does. -/
theorem counts (search : CountedSearch) :
    Tally.Counts (watch (CpuHashRate.step search) note)
      (fun p e => CountsAll search p.1 e) 4294967296 tally := by
  refine ⟨fun ⟨s, c⟩ e ⟨t, c'⟩ h => ?_⟩
  obtain ⟨hstep, rfl⟩ := watch_eq_some.mp h
  cases e with
  | startMining worker =>
    left
    obtain ⟨l, -, hstep⟩ := Option.bind_eq_some_iff.mp hstep
    obtain ⟨-, hstep⟩ := Option.ite_none_right_eq_some.mp hstep
    cases hstep
    exact ⟨rfl, trivial⟩
  | loop worker sh inp => exact counts_loop hstep
  | updateHashRate now =>
    right
    cases hstep
    cases hpc : s.pc with
    | load =>
      refine ⟨.read, ?_, iff_of_true trivial trivial⟩
      simp [Tally.step, tally, note, updateHashRate, held, hpc]
    | addHRItem hashes =>
      refine ⟨.pass, ?_, iff_of_true trivial trivial⟩
      simp [Tally.step, tally, note, updateHashRate, held, hpc]
    | store =>
      refine ⟨.reset, ?_, iff_of_true trivial trivial⟩
      simp [Tally.step, tally, note, updateHashRate, held, hpc]

def CountedOnce (p : CpuHashRate × Counted) : Prop :=
  p.2.sum + p.1.m_cpuHashBuffer.toNat = p.2.computed

theorem countedOnce_iff {threads : Nat} {hrCounter : HRCounter} {es : List CpuHashEvent}
    (hrun : exec (watch (CpuHashRate.step search) note) (start threads hrCounter, .none) es =
      some (s, c)) (hload : s.pc = .load) :
    CountedOnce (s, c) ↔
      Along (CpuHashRate.step search) (CountsAll search) (start threads hrCounter) es := by
  have hlossless := (counts search).lossless_iff (by omega) hrun
  have hheld : (tally (s, c)).held = 0 := held_of_load hload
  have hreset : (tally (s, c)).resetting = false := by simp [tally, hload]
  have hstart : (tally (start threads hrCounter, Counted.none)).loss = 0 := rfl
  rw [along_watch, hstart, Tally.loss_eq_zero hheld hreset] at hlossless
  exact hlossless

end CpuHashRate

/-- The access that `takeHashCount` makes next. -/
inductive TakePc where
  | load
  | store (result : UInt32)
  | addHRItem (result : UInt32)
deriving DecidableEq, Repr

structure GpuHashRate where
  m_hashCount : UInt32
  m_deviceHRCounter : HRCounter
  pc : TakePc
deriving DecidableEq, Repr

/-- A GPU loop adds to `m_hashCount` for a batch of hashes, and sets it to zero where it starts and
where it ends. -/
inductive GpuHashEvent where
  | batch (hashes : Nat) (counted : UInt32)
  | clear
  | takeHashCount (now : Int)
deriving DecidableEq, Repr

namespace GpuHashRate

def start (hrCounter : HRCounter) : GpuHashRate := ⟨0, hrCounter, .load⟩

def takeHashCount (s : GpuHashRate) (now : Int) : GpuHashRate :=
  match s.pc with
  | .load => { s with pc := .store s.m_hashCount }
  | .store result =>
    { s with m_hashCount := 0, pc := if result = 0 then .load else .addHRItem result }
  | .addHRItem result =>
    { s with m_deviceHRCounter := s.m_deviceHRCounter.addHRItem result.toUInt64 now, pc := .load }

def step (s : GpuHashRate) : GpuHashEvent → Option GpuHashRate
  | .batch hashes counted =>
    if counted.toNat ≤ hashes then some { s with m_hashCount := s.m_hashCount + counted } else none
  | .clear => some { s with m_hashCount := 0 }
  | .takeHashCount now => some (s.takeHashCount now)

def note (s : GpuHashRate) (e : GpuHashEvent) (c : Counted) : Counted :=
  match e with
  | .batch hashes _ => c.compute hashes
  | .clear => c
  | .takeHashCount _ =>
    match s.pc with
    | .addHRItem result => c.pass result
    | _ => c

def resetting (s : GpuHashRate) : Bool :=
  match s.pc with
  | .store _ => true
  | _ => false

/-- The step loses no hashes: a batch is counted whole, and not between the load and the store of
`takeHashCount`; `m_hashCount` is set to zero there, or when it is zero. -/
def CountsAll (s : GpuHashRate) : GpuHashEvent → Prop
  | .batch hashes counted =>
    if s.resetting = true then hashes = 0
    else counted.toNat = hashes ∧ s.m_hashCount.toNat + hashes < 4294967296
  | .clear => s.resetting = true ∨ s.m_hashCount.toNat = 0
  | .takeHashCount _ => True

def held (s : GpuHashRate) : Nat :=
  match s.pc with
  | .load => 0
  | .store result => result.toNat
  | .addHRItem result => result.toNat

def tally (p : GpuHashRate × Counted) : Tally where
  counter := p.1.m_hashCount.toNat
  passed := p.2.sum
  held := p.1.held
  resetting := p.1.resetting
  made := p.2.computed

theorem counts_takeHashCount (s : GpuHashRate) (c : Counted) (now : Int) :
    ∃ e', Tally.step 4294967296 (tally (s, c)) e' =
        some (tally (s.takeHashCount now, s.note (.takeHashCount now) c)) ∧
      Tally.Lossless 4294967296 (tally (s, c)) e' := by
  cases hpc : s.pc with
  | load =>
    refine ⟨.read, ?_, trivial⟩
    simp [Tally.step, tally, note, takeHashCount, held, resetting, hpc]
  | store result =>
    refine ⟨.reset, ?_, trivial⟩
    by_cases hzero : result = 0
    · simp [Tally.step, tally, note, takeHashCount, held, resetting, hpc, hzero]
    · simp [Tally.step, tally, note, takeHashCount, held, resetting, hpc, hzero]
  | addHRItem result =>
    refine ⟨.pass, ?_, trivial⟩
    simp [Tally.step, tally, note, takeHashCount, held, resetting, hpc]

/-- What a GPU loop and `takeHashCount` do is what a tally does. -/
theorem counts : Tally.Counts (watch step note) (fun p e => CountsAll p.1 e) 4294967296 tally := by
  refine ⟨fun ⟨s, c⟩ e ⟨t, c'⟩ h => Or.inr ?_⟩
  obtain ⟨hstep, rfl⟩ := watch_eq_some.mp h
  cases e with
  | batch hashes counted =>
    obtain ⟨hle, hstep⟩ := Option.ite_none_right_eq_some.mp hstep
    cases hstep
    refine ⟨.add hashes counted.toNat, ?_, Iff.rfl⟩
    rw [Tally.step, if_pos hle]
    simp [tally, note, UInt32.toNat_add, held, resetting]
  | clear =>
    cases hstep
    exact ⟨.clear, rfl, Iff.rfl⟩
  | takeHashCount now =>
    cases hstep
    obtain ⟨e', he', hlossless⟩ := counts_takeHashCount s c now
    exact ⟨e', he', iff_of_true trivial hlossless⟩

def CountedOnce (p : GpuHashRate × Counted) : Prop :=
  p.2.sum + p.1.m_hashCount.toNat = p.2.computed

theorem countedOnce_iff {hrCounter : HRCounter} {es : List GpuHashEvent} {s : GpuHashRate}
    {c : Counted} (hrun : exec (watch step note) (start hrCounter, .none) es = some (s, c))
    (hload : s.pc = .load) :
    CountedOnce (s, c) ↔ Along step CountsAll (start hrCounter) es := by
  have hlossless := counts.lossless_iff (by omega) hrun
  have hheld : (tally (s, c)).held = 0 := by
    rw [tally, held, hload]
  have hreset : (tally (s, c)).resetting = false := by
    rw [tally, resetting, hload]
  have hstart : (tally (start hrCounter, Counted.none)).loss = 0 := rfl
  rw [along_watch, hstart, Tally.loss_eq_zero hheld hreset] at hlossless
  exact hlossless

end GpuHashRate

/-- Every hash is counted once, in any order of the loops and of the steps of `updateHashRate` and
`takeHashCount`, exactly when no step of the run loses one. -/
theorem hashes_counted_once_iff (search : CountedSearch) (threads : Nat) (hrCounter : HRCounter)
    (cpuEvents : List CpuHashEvent) (gpuEvents : List GpuHashEvent) :
    (∀ s c, exec (watch (CpuHashRate.step search) CpuHashRate.note)
        (.start threads hrCounter, .none) cpuEvents = some (s, c) → s.pc = .load →
      (CpuHashRate.CountedOnce (s, c) ↔
        Along (CpuHashRate.step search) (CpuHashRate.CountsAll search) (.start threads hrCounter)
          cpuEvents)) ∧
    ∀ s c, exec (watch GpuHashRate.step GpuHashRate.note) (.start hrCounter, .none) gpuEvents =
        some (s, c) → s.pc = .load →
      (GpuHashRate.CountedOnce (s, c) ↔
        Along GpuHashRate.step GpuHashRate.CountsAll (.start hrCounter) gpuEvents) := by
  constructor
  · intro s c hrun hload
    exact CpuHashRate.countedOnce_iff hrun hload
  · intro s c hrun hload
    exact GpuHashRate.countedOnce_iff hrun hload

section Run

/-- A CryptoNight worker that finds its job in this state. -/
def loopIn (m_state : MinerThreadState) : CpuHashEvent :=
  .loop 0 ⟨⟨m_state, ⟨[1], [], []⟩, .empty⟩, false, fun _ => .new⟩ ⟨false, .ok, 0, none, 0⟩

/-- The loop is about to hash the first nonce of its range. -/
def untilHash : List CpuHashEvent :=
  .startMining 0 :: loopIn .UpdateJob :: loopIn .UpdateJob :: List.replicate 6 (loopIn .Mining)

/-- After its first hash, of which `hashes` were passed on. -/
def afterHash (hashes : UInt64) : CpuHashRate × Counted :=
  (⟨[⟨.search none 1 1000000, ⟨[1], [], []⟩⟩], 0, (HRCounter.new 2).addHRItem hashes 0, .load⟩,
    ⟨[hashes], 1⟩)

/-- A hash that is counted before `updateHashRate` begins is recorded. -/
theorem hash_before_load_counted :
    Along (CpuHashRate.step (cryptonoteCounted id)) (CpuHashRate.CountsAll (cryptonoteCounted id))
        (.start 1 (.new 2)) (untilHash ++ loopIn .Mining :: List.replicate 3 (.updateHashRate 0)) ∧
      Along GpuHashRate.step GpuHashRate.CountsAll (.start (.new 2))
        (.batch 5 5 :: List.replicate 3 (.takeHashCount 0)) := by
  have hboth := hashes_counted_once_iff (cryptonoteCounted id) 1 (.new 2)
    (untilHash ++ loopIn .Mining :: List.replicate 3 (.updateHashRate 0))
    (.batch 5 5 :: List.replicate 3 (.takeHashCount 0))
  constructor
  · exact (hboth.1 (afterHash 1).1 (afterHash 1).2 rfl rfl).mp rfl
  · exact (hboth.2 ⟨0, (HRCounter.new 2).addHRItem 5 0, .load⟩ ⟨[5], 5⟩ rfl rfl).mp rfl

/-- A hash that is counted between the load and the store is lost. -/
theorem hash_after_load_lost :
    ¬ ∀ (search : CountedSearch) (threads : Nat) (hrCounter : HRCounter) (es : List CpuHashEvent)
      (s : CpuHashRate) (c : Counted),
      exec (watch (CpuHashRate.step search) CpuHashRate.note) (.start threads hrCounter, .none) es =
        some (s, c) → s.pc = .load → CpuHashRate.CountedOnce (s, c) := by
  intro h
  have hcounted := h (cryptonoteCounted id) 1 (.new 2)
    (untilHash ++ .updateHashRate 0 :: loopIn .Mining :: List.replicate 2 (.updateHashRate 0))
    (afterHash 0).1 (afterHash 0).2 rfl rfl
  cases hcounted

end Run
end MinerGate
