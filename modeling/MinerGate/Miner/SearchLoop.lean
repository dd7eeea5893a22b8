import MinerGate.Lib.CountedLoop
import MinerGate.Miner.CpuLoop

/-!
# The nonces that one search tries

A CPU worker that goes on mining takes a range and searches it. Its loop has an inclusive bound
and a counter of the width of the coin's nonces.
-/

namespace MinerGate

set_option autoImplicit false

open CountedLoop

/-- The workers of the CPU, each with its hash function. -/
inductive CpuSearch where
  | cryptonote (slowHash : QByteArray → QByteArray)
  | ethereum (ethSearch : MiningJob → Nat → Option QByteArray)

def CpuSearch.search : CpuSearch → Search
  | cryptonote slowHash => cryptonoteSearch slowHash
  | ethereum ethSearch => ethereumSearch ethSearch

/-- A restart of the counter, the amounts reserved since, and what the loop finds at each of its
steps from then on. -/
structure Searching where
  random : Option Nat
  reserved : List UInt64
  shared : Nat → Shared
  input : Nat → Input
  cpu : CpuSearch
  /-- The pool's job that is put aside while the loop mines for the fee. -/
  originJob : Option MiningJob
  job : MiningJob

namespace Searching
variable (s : Searching)

def ctl : NonceCtl :=
  s.reserved.foldl (fun ctl amount => (ctl.nextNonce amount.toNat).1)
    (NonceCtl.new.restart s.random)

def lastNonce : Nat := (s.ctl.nextNonce NONCE_INTERVAL).2

/-- The worker goes on mining, others take ranges meanwhile. -/
def sharedAt : Nat → Shared
  | 0 => { s.shared 0 with m_state := .Mining, nonceCtl := fun _ => s.ctl }
  | n + 1 => { s.shared (n + 1) with m_state := .Mining }

def start : CpuLoop := ⟨s.originJob.elim .reserve .reserveFee, s.job⟩

def loop : Nat → CpuLoop
  | 0 => s.start
  | n + 1 => match (loop n).step s.cpu.search (s.sharedAt n) (s.input n) with
    | some r => r.loop
    | none => loop n

/-- The loop leaves `search`. -/
def Ends : Prop := ∃ n, (s.loop n).pc = .switch

/-- The nonces that it hashes before. -/
def tried : Set Nat :=
  {nonce | ∃ n, (∀ m ≤ n, (s.loop m).pc ≠ .switch) ∧
    ∃ last, (s.loop n).pc = .hash s.originJob nonce last}

def modulus : Nat := s.cpu.search.modulus

def startNonce : Nat := (s.lastNonce - NONCE_INTERVAL) % s.modulus

def last : Nat := s.lastNonce % s.modulus

theorem modulus_cases : s.modulus = quint32Modulus ∨ s.modulus = nonceModulus := by
  unfold modulus
  cases s.cpu with
  | cryptonote _ => exact Or.inl rfl
  | ethereum _ => exact Or.inr rfl

theorem interval_lt_modulus : NONCE_INTERVAL + 1 < s.modulus := by
  rcases s.modulus_cases with h | h <;> rw [h] <;> decide

theorem ctl_lt : s.ctl.m_nonce < nonceModulus := by
  have hfold : ∀ (amounts : List UInt64) (ctl : NonceCtl), ctl.m_nonce < nonceModulus →
      (amounts.foldl (fun ctl amount => (ctl.nextNonce amount.toNat).1) ctl).m_nonce <
        nonceModulus := by
    intro amounts
    induction amounts with
    | nil => exact fun _ h => h
    | cons amount amounts ih =>
      intro ctl h
      exact ih _ (NonceCtl.newNonce_lt h amount.toNat_lt)
  apply hfold
  unfold NonceCtl.restart
  split
  · exact Nat.mod_lt _ (by decide)
  · decide

theorem interval_le_lastNonce : NONCE_INTERVAL ≤ s.lastNonce :=
  NonceCtl.le_newNonce s.ctl_lt (by decide)

theorem last_eq (h : s.startNonce ≤ s.last) : s.last = s.startNonce + NONCE_INTERVAL := by
  have hle := s.interval_le_lastNonce
  have hlt := s.interval_lt_modulus
  have hadd := Nat.add_mod (s.lastNonce - NONCE_INTERVAL) NONCE_INTERVAL s.modulus
  rw [Nat.sub_add_cancel hle, Nat.mod_eq_of_lt (show NONCE_INTERVAL < s.modulus by omega)] at hadd
  change s.last = (s.startNonce + NONCE_INTERVAL) % s.modulus at hadd
  have hstart : s.startNonce < s.modulus := Nat.mod_lt _ (by omega)
  by_cases hwrap : s.startNonce + NONCE_INTERVAL < s.modulus
  · rwa [Nat.mod_eq_of_lt hwrap] at hadd
  · rw [Nat.mod_eq_sub_mod (by omega), Nat.mod_eq_of_lt (by omega)] at hadd
    omega

section Loop
variable {s}

theorem loop_succ {n : Nat} {r : Result CpuLoop}
    (h : (s.loop n).step s.cpu.search (s.sharedAt n) (s.input n) = some r) :
    s.loop (n + 1) = r.loop := by
  rw [loop, h]

theorem sharedAt_mining (n : Nat) : (s.sharedAt n).m_state = .Mining := by cases n <;> rfl

theorem loop_one : (s.loop 1).pc = .search s.originJob s.startNonce s.last := by
  have h : (s.loop 1) = s.start.enter s.cpu.search s.originJob s.lastNonce := by
    cases horigin : s.originJob with
    | none =>
      apply loop_succ (r := .act (s.sharedAt 0) (.reserve false NONCE_INTERVAL) _)
      simp only [loop, start, horigin, CpuLoop.step]
      rfl
    | some originJob =>
      apply loop_succ (r := .act (s.sharedAt 0) (.reserve true NONCE_INTERVAL) _)
      simp only [loop, start, horigin, CpuLoop.step]
      rfl
  rw [h]
  rfl

/-- A test that succeeds. -/
theorem loop_hash {n nonce last : Nat} (h : (s.loop n).pc = .search s.originJob nonce last)
    (hle : nonce ≤ last) : (s.loop (n + 1)).pc = .hash s.originJob nonce last := by
  rw [loop_succ (r := .keep (s.sharedAt n) ((s.loop n).goto (.hash s.originJob nonce last)))]
  · rfl
  · rw [CpuLoop.step, h]
    exact if_pos ⟨hle, sharedAt_mining n⟩

/-- A test that fails. -/
theorem loop_switch {n nonce last : Nat} (h : (s.loop n).pc = .search s.originJob nonce last)
    (hlt : last < nonce) : (s.loop (n + 1)).pc = .switch := by
  rw [loop_succ (r := .keep (s.sharedAt n) ((s.loop n).leave s.originJob))]
  · rfl
  · rw [CpuLoop.step, h]
    exact if_neg fun hle => absurd hle.1 (Nat.not_le.mpr hlt)

theorem loop_next {n nonce last : Nat} (h : (s.loop n).pc = .hash s.originJob nonce last) :
    (s.loop (n + 1)).pc = .search s.originJob ((nonce + 1) % s.modulus) last := by
  obtain ⟨r, hr, hpc⟩ : ∃ r, (s.loop n).step s.cpu.search (s.sharedAt n) (s.input n) = some r ∧
      r.loop.pc = .search s.originJob ((nonce + 1) % s.modulus) last := by
    simp only [CpuLoop.step, h]
    split
    · exact ⟨_, rfl, rfl⟩
    · exact ⟨_, rfl, rfl⟩
  rw [loop_succ hr, hpc]

/-- Where the loop stands before the test of iteration `i`. -/
theorem loop_search {i : Nat} (h : ∀ j < i, value s.modulus s.startNonce j ≤ s.last) :
    (s.loop (2 * i + 1)).pc = .search s.originJob (value s.modulus s.startNonce i) s.last := by
  induction i with
  | zero =>
    have hstart : value s.modulus s.startNonce 0 = s.startNonce := by
      rw [value, Nat.add_zero, startNonce, Nat.mod_mod]
    rw [hstart]
    exact loop_one
  | succ i ih =>
    have hsearch := ih fun j hj => h j (by omega)
    have hvalue : (value s.modulus s.startNonce i + 1) % s.modulus =
        value s.modulus s.startNonce (i + 1) := by
      rw [value, value, Nat.mod_add_mod, Nat.add_assoc]
    rw [Nat.mul_succ, ← hvalue]
    exact loop_next (loop_hash hsearch (h i (by omega)))

theorem loop_hash_of_runs {i : Nat} (h : Runs s.modulus s.startNonce s.last i) :
    (s.loop (2 * i + 2)).pc = .hash s.originJob (value s.modulus s.startNonce i) s.last :=
  loop_hash (loop_search fun j hj => h j (by omega)) (h i (Nat.le_refl i))

/-- Before the first test that fails the loop stays in `search`. -/
theorem loop_ne_switch {n : Nat}
    (h : ∀ j, 2 * j + 1 < n → value s.modulus s.startNonce j ≤ s.last) :
    (s.loop n).pc ≠ .switch := by
  rcases Nat.even_or_odd' n with ⟨i, rfl | rfl⟩
  · cases i with
    | zero =>
      cases horigin : s.originJob <;> simp [loop, start, horigin]
    | succ i =>
      rw [Nat.mul_succ, loop_hash_of_runs fun j hj => h j (by omega)]
      intro hpc
      cases hpc
  · rw [loop_search fun j hj => h j (by omega)]
    intro hpc
    cases hpc

theorem ends_iff : s.Ends ↔ CountedLoop.Ends s.modulus s.startNonce s.last := by
  constructor
  · rintro ⟨n, hn⟩
    by_contra hnot
    refine loop_ne_switch (fun j _ => ?_) hn
    exact Nat.not_lt.mp fun hlt => hnot ⟨j, hlt⟩
  · intro hends
    classical
    have hfirst := Nat.find_spec hends
    refine ⟨2 * Nat.find hends + 2, loop_switch (loop_search fun j hj => ?_) hfirst⟩
    exact Nat.not_lt.mp (Nat.find_min hends hj)

theorem tried_eq : s.tried = CountedLoop.tried s.modulus s.startNonce s.last := by
  ext nonce
  constructor
  · rintro ⟨n, hin, last, hn⟩
    have hruns : ∀ j, 2 * j + 1 < n → value s.modulus s.startNonce j ≤ s.last := by
      intro j
      induction j using Nat.strongRecOn with
      | ind j ih =>
        intro hj
        by_contra hnot
        have hsearch := loop_search fun k hk => ih k hk (by omega)
        exact hin (2 * j + 2) (by omega) (loop_switch hsearch (Nat.not_le.mp hnot))
    rcases Nat.even_or_odd' n with ⟨i, rfl | rfl⟩
    · cases i with
      | zero => cases horigin : s.originJob <;> simp [loop, start, horigin] at hn
      | succ i =>
        have hi : Runs s.modulus s.startNonce s.last i := fun j hj => hruns j (by omega)
        have hhash := (loop_hash_of_runs hi).symm.trans hn
        cases hhash
        exact ⟨i, hi, rfl⟩
    · rw [loop_search fun j hj => hruns j (by omega)] at hn
      cases hn
  · rintro ⟨i, hi, rfl⟩
    refine ⟨2 * i + 2, fun m hm => ?_, s.last, loop_hash_of_runs hi⟩
    exact loop_ne_switch fun j hj => hi j (by omega)

end Loop

theorem startNonce_lt : s.startNonce < s.modulus :=
  Nat.mod_lt _ (Nat.zero_lt_of_lt s.interval_lt_modulus)

theorem last_lt : s.last < s.modulus := Nat.mod_lt _ (Nat.zero_lt_of_lt s.interval_lt_modulus)

theorem ends_iff_last : s.Ends ↔ s.last + 1 ≠ s.modulus := by
  rw [ends_iff, CountedLoop.ends_iff s.startNonce_lt s.last_lt]

/-- The search tries no nonce, all nonces of its width, or one more than it reserved. -/
theorem tried_ne (first : Nat) :
    s.tried ≠ (fun i => (first + i) % s.modulus) '' Set.Iio NONCE_INTERVAL := by
  intro heq
  have hinterval := s.interval_lt_modulus
  have hcard := congrArg Set.ncard heq
  have hinj : Set.InjOn (fun i => (first + i) % s.modulus) (Set.Iio NONCE_INTERVAL) := by
    intro i hi j hj hij
    rw [Set.mem_Iio] at hi hj
    have hmod : i % s.modulus = j % s.modulus := Nat.ModEq.add_left_cancel' first hij
    rwa [Nat.mod_eq_of_lt (by omega), Nat.mod_eq_of_lt (by omega)] at hmod
  rw [tried_eq, ncard_tried s.startNonce_lt s.last_lt s.last_eq, hinj.ncard_image,
    ← Finset.coe_Iio, Set.ncard_coe_finset, Nat.card_Iio] at hcard
  have hpos : 0 < NONCE_INTERVAL := by decide
  split at hcard
  · omega
  · split at hcard <;> omega

/-- Whatever the counter returns, the search ends exactly when the last nonce is not the largest of
its width, and it never tries just the nonces of one range of `NONCE_INTERVAL`. -/
theorem search_never_exact : (s.Ends ↔ s.last + 1 ≠ s.modulus) ∧
    ∀ first, s.tried ≠ (fun i => (first + i) % s.modulus) '' Set.Iio NONCE_INTERVAL :=
  ⟨s.ends_iff_last, s.tried_ne⟩

/-- A CryptoNight worker that goes on with its job after others reserved these amounts. -/
def cryptonoteAfter (reserved : List UInt64) : Searching where
  random := none
  reserved := reserved
  shared _ := ⟨⟨.Mining, .empty, .empty⟩, false, fun _ => .new⟩
  input _ := ⟨false, .ok, 0, none, 0⟩
  cpu := .cryptonote id
  originJob := none
  job := .empty

/-- The first search of a job tries nonce 1000000, and a range that ends on `2 ^ 32 - 1` is searched
for ever. -/
theorem search_overruns :
    (¬ ∀ s : Searching, s.Ends) ∧
      ¬ ∀ s : Searching,
        s.tried = (fun i => (s.startNonce + i) % s.modulus) '' Set.Iio NONCE_INTERVAL := by
  constructor
  · intro h
    have hends := (ends_iff_last _).mp (h (cryptonoteAfter [4293967295]))
    exact hends (by decide)
  · intro h
    exact tried_ne _ _ (h (cryptonoteAfter []))

end Searching

end MinerGate
