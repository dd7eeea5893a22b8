import Mathlib.Data.Nat.Find
import Mathlib.Data.Nat.ModEq
import Mathlib.Data.Set.Card
import Mathlib.Order.Interval.Finset.Nat

/-!
# Loops with an inclusive bound

`for (x = first; x <= last; x++)` over a counter that starts again from zero at the modulus.
When the bound is the largest value the test never fails. After it the loop
`for (x = first; x + stride <= last; x += stride)` of the same kind, whose test may overflow.
-/

namespace CountedLoop

set_option autoImplicit false

/-- The counter before the test of iteration `i`, were all the tests before it true. -/
def value (modulus first i : Nat) : Nat := (first + i) % modulus

/-- The body runs in iteration `i`. -/
def Runs (modulus first last i : Nat) : Prop := ∀ j ≤ i, value modulus first j ≤ last

def Ends (modulus first last : Nat) : Prop := ∃ i, last < value modulus first i

/-- The values that the body runs for. -/
def tried (modulus first last : Nat) : Set Nat :=
  {x | ∃ i, Runs modulus first last i ∧ value modulus first i = x}

variable {modulus first last : Nat}

theorem value_lt (h : 0 < modulus) (first i : Nat) : value modulus first i < modulus :=
  Nat.mod_lt _ h

theorem value_of_lt {i : Nat} (h : first + i < modulus) : value modulus first i = first + i :=
  Nat.mod_eq_of_lt h

theorem value_of_max (h : last + 1 = modulus) (first i : Nat) : value modulus first i ≤ last := by
  have : value modulus first i < modulus := value_lt (by omega) first i
  omega

theorem ends_iff (hfirst : first < modulus) (hlast : last < modulus) :
    Ends modulus first last ↔ last + 1 ≠ modulus := by
  constructor
  · rintro ⟨i, hi⟩ hmax
    have := value_of_max hmax first i
    omega
  · intro hne
    by_cases hle : first ≤ last
    · refine ⟨last + 1 - first, ?_⟩
      rw [value_of_lt (by omega)]
      omega
    · refine ⟨0, ?_⟩
      rw [value_of_lt (by omega)]
      omega

theorem tried_of_lt (hfirst : first < modulus) (h : last < first) :
    tried modulus first last = ∅ := by
  ext x
  simp only [tried, Set.mem_ofPred_eq, Set.mem_empty_iff_false, iff_false]
  rintro ⟨i, hruns, -⟩
  have hzero := hruns 0 (Nat.zero_le i)
  rw [value_of_lt (by omega)] at hzero
  omega

theorem tried_of_le (hle : first ≤ last) (hlast : last + 1 < modulus) :
    tried modulus first last = Set.Icc first last := by
  ext x
  simp only [tried, Set.mem_ofPred_eq, Set.mem_Icc]
  constructor
  · rintro ⟨i, hruns, rfl⟩
    have hi : first + i ≤ last := by
      by_contra hnot
      have hlast' := hruns (last + 1 - first) (by omega)
      rw [value_of_lt (by omega)] at hlast'
      omega
    rw [value_of_lt (by omega)]
    omega
  · rintro ⟨hx, hx'⟩
    refine ⟨x - first, ?_, ?_⟩
    · intro j hj
      rw [value_of_lt (by omega)]
      omega
    · rw [value_of_lt (by omega)]
      omega

theorem tried_of_max (hfirst : first < modulus) (hmax : last + 1 = modulus) :
    tried modulus first last = Set.Iio modulus := by
  ext x
  simp only [tried, Set.mem_ofPred_eq, Set.mem_Iio]
  constructor
  · rintro ⟨i, -, rfl⟩
    exact value_lt (by omega) first i
  · intro hx
    refine ⟨modulus - first + x, fun j _ => value_of_max hmax first j, ?_⟩
    have hsum : first + (modulus - first + x) = modulus + x := by omega
    rw [value, hsum, Nat.add_mod_left, Nat.mod_eq_of_lt hx]

/-- A range of `n` values, with `last` as far from `first` as it is long. -/
theorem ncard_tried {n : Nat} (hfirst : first < modulus) (hlast : last < modulus)
    (hn : first ≤ last → last = first + n) :
    (tried modulus first last).ncard =
      if last + 1 = modulus then modulus else if last < first then 0 else n + 1 := by
  split
  case isTrue hmax =>
    rw [tried_of_max hfirst hmax, ← Finset.coe_Iio, Set.ncard_coe_finset, Nat.card_Iio]
  case isFalse hmax =>
    split
    case isTrue hlt =>
      rw [tried_of_lt hfirst hlt, Set.ncard_empty]
    case isFalse hlt =>
      rw [tried_of_le (by omega) (by omega), ← Finset.coe_Icc, Set.ncard_coe_finset, Nat.card_Icc]
      have := hn (by omega)
      omega

end CountedLoop

namespace StridedLoop

set_option autoImplicit false

/-- The counter before the test of iteration `i`; the test compares the next value. -/
def value (modulus first stride i : Nat) : Nat := (first + i * stride) % modulus

/-- The body runs for exactly `k` iterations. -/
structure EndsAfter (modulus first last stride k : Nat) : Prop where
  runs : ∀ i < k, value modulus first stride (i + 1) ≤ last
  ends : last < value modulus first stride (k + 1)

/-- The `n` values below `last` are taken in as many whole strides as there are. -/
def Covers (modulus first last stride n : Nat) : Prop :=
  ∃ k, k * stride ≤ n ∧ n < (k + 1) * stride ∧ EndsAfter modulus first last stride k ∧
    ∀ i < k, last ≤ value modulus first stride i + n ∧ value modulus first stride i + stride ≤ last

variable {modulus first last stride n k : Nat}

theorem EndsAfter.unique {j : Nat} (hj : EndsAfter modulus first last stride j)
    (hk : EndsAfter modulus first last stride k) : j = k := by
  rcases Nat.lt_trichotomy j k with hlt | heq | hgt
  · have := hk.runs j hlt
    have := hj.ends
    omega
  · exact heq
  · have := hj.runs k hgt
    have := hk.ends
    omega

theorem value_of_lt {i : Nat} (h : first + i * stride < modulus) :
    value modulus first stride i = first + i * stride := Nat.mod_eq_of_lt h

theorem start_of_le (hlast : last < modulus) (h : n ≤ last) :
    (last + modulus - n) % modulus = last - n := by
  have hsum : last + modulus - n = last - n + modulus := by omega
  rw [hsum, Nat.add_mod_right, Nat.mod_eq_of_lt (by omega)]

theorem start_of_lt (hlast : last < modulus) (h : last < n) :
    (last + modulus - n) % modulus = last + modulus - n := Nat.mod_eq_of_lt (by omega)

theorem Covers.pos (h : Covers modulus first last stride n) : 0 < stride := by
  obtain ⟨k, -, hk, -⟩ := h
  apply Nat.pos_of_ne_zero
  rintro rfl
  omega

/-- The iterations are the whole strides in `n`. -/
theorem Covers.endsAfter_div (h : Covers modulus first last stride n) :
    EndsAfter modulus first last stride (n / stride) := by
  have hpos := h.pos
  obtain ⟨k, hle, hlt, hends, -⟩ := h
  rwa [Nat.div_eq_of_lt_le hle hlt]

/-- The value after the last whole stride. -/
theorem start_add (h : n ≤ last) :
    last - n + (n / stride + 1) * stride = last - n % stride + stride := by
  have hdiv := Nat.div_add_mod n stride
  rw [Nat.add_mul, Nat.one_mul, Nat.mul_comm (n / stride)]
  omega

theorem covers_of_le (hlast : last < modulus) (hpos : 0 < stride) (h : n ≤ last)
    (hfits : last + stride < modulus + n % stride) :
    Covers modulus (last - n) last stride n := by
  have hle : n / stride * stride ≤ n := Nat.div_mul_le_self n stride
  have hmul : ∀ i, i ≤ n / stride → i * stride ≤ n := fun i hi =>
    (Nat.mul_le_mul_right stride hi).trans hle
  have hlt : n < (n / stride + 1) * stride := by
    rw [Nat.mul_comm]
    exact Nat.lt_mul_div_succ n hpos
  refine ⟨n / stride, hle, hlt, ⟨fun i hi => ?_, ?_⟩, fun i hi => ?_⟩
  · have := hmul (i + 1) hi
    rw [value_of_lt (by omega)]
    omega
  · have hnext : last - n + (n / stride + 1) * stride = last - n % stride + stride := start_add h
    have := Nat.mod_le n stride
    rw [value_of_lt (by omega)]
    have := Nat.mod_lt n hpos
    omega
  · have hi' := hmul (i + 1) hi
    rw [Nat.add_mul, Nat.one_mul] at hi'
    rw [value_of_lt (by omega)]
    omega

theorem value_succ (modulus first stride i : Nat) :
    (value modulus first stride i + stride) % modulus = value modulus first stride (i + 1) := by
  rw [value, value, Nat.mod_add_mod, Nat.add_mul, Nat.one_mul, Nat.add_assoc]

/-- The loop goes on for ever, or ends after some number of iterations. -/
theorem runs_or_endsAfter (modulus first last stride : Nat) :
    (∀ i, value modulus first stride (i + 1) ≤ last) ∨
      ∃ k, EndsAfter modulus first last stride k := by
  by_cases h : ∃ i, last < value modulus first stride (i + 1)
  · right
    refine ⟨Nat.find h, fun i hi => ?_, Nat.find_spec h⟩
    exact Nat.not_lt.mp (Nat.find_min h hi)
  · left
    intro i
    exact Nat.not_lt.mp fun hi => h ⟨i, hi⟩

/-- The loop starts `n` below its bound, counted around the modulus. It takes all whole strides if
the bound is not too close to the end of the counter, nor to its beginning. -/
theorem covers_iff (hn : n < modulus) (hlast : last < modulus) (hstride : stride < modulus) :
    Covers modulus ((last + modulus - n) % modulus) last stride n ↔
      0 < stride ∧ (n < stride ∨ n ≤ last) ∧ last + stride < modulus + n % stride := by
  rcases Nat.lt_or_ge last n with hlt | hle
  · rw [start_of_lt hlast hlt]
    constructor
    · intro h
      have hpos := h.pos
      have hsmall : n < stride := by
        obtain ⟨k, -, hk, -, hinside⟩ := h
        by_contra hnot
        have hk' : 0 < k := by
          apply Nat.pos_of_ne_zero
          rintro rfl
          omega
        have hfirst := (hinside 0 hk').2
        rw [value_of_lt (by omega)] at hfirst
        omega
      refine ⟨hpos, Or.inl hsmall, ?_⟩
      rw [Nat.mod_eq_of_lt hsmall]
      omega
    · rintro ⟨hpos, hsmall, hfits⟩
      refine ⟨0, by omega, by omega, ⟨fun i hi => absurd hi (Nat.not_lt_zero i), ?_⟩,
        fun i hi => absurd hi (Nat.not_lt_zero i)⟩
      have hsum : last + modulus - n + (0 + 1) * stride = last + stride - n + modulus := by omega
      rw [value, hsum, Nat.add_mod_right, Nat.mod_eq_of_lt (by omega)]
      omega
  · rw [start_of_le hlast hle]
    constructor
    · intro h
      have hpos := h.pos
      refine ⟨hpos, Or.inr hle, ?_⟩
      by_contra hnot
      have hends := h.endsAfter_div.ends
      have hmod := Nat.mod_lt n hpos
      rw [value, start_add hle, Nat.mod_eq_sub_mod (by omega), Nat.mod_eq_of_lt (by omega)] at hends
      omega
    · rintro ⟨hpos, -, hfits⟩
      exact covers_of_le hlast hpos hle hfits

end StridedLoop
