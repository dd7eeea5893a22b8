import Mathlib.Data.UInt
import Mathlib.Order.Bounds.Basic
import MinerGate.Ethereum.CudaParams

/-!
# The work sizes of the OpenCL miners

Both miners set their sizes up in the same way from two numbers that the user may choose: the
local size, which is cut to the limit of the device, and the factor of the global one. `size_t`
has 64 bits.
-/

namespace MinerGate

set_option autoImplicit false

inductive OclDeviceParam where
  | GlobalWorkSize
  | LocalWorkSize
deriving DecidableEq, Repr

/-- `(int)OclDeviceParam` -/
def OclDeviceParam.toInt : OclDeviceParam → Int
  | GlobalWorkSize => 0
  | LocalWorkSize => 1

inductive HashFamily where
  | Unknown
  | CryptoNight
  | CryptoNightLite
  | Ethereum
deriving DecidableEq, Repr

namespace OclWorkSizes

/-- What the settings hold for the device and the family; nothing is 0. -/
structure ClSettings where
  localWork : UInt32
  globalWork : UInt32

def clLocalWork (settings : ClSettings) (family : HashFamily) : UInt32 :=
  if settings.localWork = 0 then if family = .Ethereum then 64 else 16
  else settings.localWork

def clGlobalWork (settings : ClSettings) (family : HashFamily) : UInt32 :=
  if settings.globalWork = 0 then if family = .Ethereum then 4096 else 16
  else settings.globalWork

/-- A parameter that is missing is taken from the settings and put in. -/
def resolve (param : OclDeviceParam) (default : UInt32) (params : DeviceParams) :
    UInt32 × DeviceParams :=
  match params param.toInt with
  | some v => (v, params)
  | none => (default, fun key => if key = param.toInt then some default else params key)

structure AlgoContext where
  globalWorkSize : UInt64
  workgroupSize : UInt64
  maxGlobalWorkSize : UInt64

def reduced (groupSize : UInt32) (maximumWorkGroupSize : UInt64) : UInt32 :=
  if groupSize.toUInt64 > maximumWorkGroupSize then maximumWorkGroupSize.toUInt32 else groupSize

/-- The sizes from the group size that is wanted; a remainder by 0 is undefined behaviour:
`none`. -/
def sizes (groupSize multiplier : UInt32) (maximumWorkGroupSize : UInt64) : Option AlgoContext :=
  let workgroupSize := (reduced groupSize maximumWorkGroupSize).toUInt64
  let maxGlobalWorkSize := workgroupSize * multiplier.toUInt64
  if workgroupSize = 0 then none
  else
    let newGlobalSize :=
      if maxGlobalWorkSize % workgroupSize ≠ 0 then
        (maxGlobalWorkSize / workgroupSize + 1) * workgroupSize
      else maxGlobalWorkSize
    some ⟨newGlobalSize, workgroupSize, maxGlobalWorkSize⟩

/-- The part of `setupAlgo` that both miners have. -/
def setupSizes (family : HashFamily) (settings : ClSettings) (maximumWorkGroupSize : UInt64)
    (params : DeviceParams) : Option AlgoContext × DeviceParams :=
  let (groupSize, params) := resolve .LocalWorkSize (clLocalWork settings family) params
  let (multiplier, params) := resolve .GlobalWorkSize (clGlobalWork settings family) params
  (sizes groupSize multiplier maximumWorkGroupSize, params)

def CryptonoteOCLMinerPrivate.setupAlgo := setupSizes .CryptoNight

def EthOCLMinerPrivate.setupAlgo := setupSizes .Ethereum

/-- The global size of a branch kernel in `CryptonoteOCLMinerPrivate::findShares`. -/
def branchSize (localThreads branchNonces : UInt64) : UInt64 :=
  branchNonces + (branchNonces + (localThreads - (branchNonces &&& (localThreads - 1))))

section Sizes
variable {groupSize multiplier : UInt32} {limit : UInt64} {ctx : AlgoContext}

/-- The local size is within the limit, the global size is a multiple of it, and neither is 0. The
global size is what the parameters ask for, with no overflow of 32 bits. -/
def ValidSizes (limit : UInt64) (multiplier : UInt32) (ctx : AlgoContext) : Prop :=
  0 < ctx.workgroupSize ∧ ctx.workgroupSize ≤ limit ∧ 0 < ctx.globalWorkSize ∧
    ctx.workgroupSize.toNat ∣ ctx.globalWorkSize.toNat ∧
    ctx.globalWorkSize.toNat = ctx.workgroupSize.toNat * multiplier.toNat ∧
    ctx.globalWorkSize.toNat < 2 ^ 32

theorem reduced_toNat (groupSize : UInt32) (limit : UInt64) :
    (reduced groupSize limit).toUInt64.toNat = min groupSize.toNat limit.toNat := by
  have hlt := groupSize.toNat_lt
  rw [reduced]
  split
  case isTrue hcut =>
    rw [gt_iff_lt, UInt64.lt_iff_toNat_lt, UInt32.toNat_toUInt64] at hcut
    rw [UInt32.toNat_toUInt64, UInt64.toNat_toUInt32, Nat.min_eq_right (Nat.le_of_lt hcut)]
    exact Nat.mod_eq_of_lt (by omega)
  case isFalse hcut =>
    rw [gt_iff_lt, UInt64.lt_iff_toNat_lt, UInt32.toNat_toUInt64, Nat.not_lt] at hcut
    rw [UInt32.toNat_toUInt64, Nat.min_eq_left hcut]

/-- The product of two 32-bit numbers fits into `size_t`. -/
theorem toNat_product (a b : UInt32) :
    (a.toUInt64 * b.toUInt64).toNat = a.toNat * b.toNat := by
  have ha := a.toNat_lt
  have hb := b.toNat_lt
  have hlt : a.toNat * b.toNat < 2 ^ 32 * 2 ^ 32 := Nat.mul_lt_mul'' ha hb
  rw [UInt64.toNat_mul, UInt32.toNat_toUInt64, UInt32.toNat_toUInt64]
  exact Nat.mod_eq_of_lt hlt

/-- The product is a multiple already, so that nothing is rounded. -/
theorem sizes_eq (groupSize multiplier : UInt32) (limit : UInt64) :
    sizes groupSize multiplier limit =
      if (reduced groupSize limit).toUInt64 = 0 then none
      else some ⟨(reduced groupSize limit).toUInt64 * multiplier.toUInt64,
        (reduced groupSize limit).toUInt64,
        (reduced groupSize limit).toUInt64 * multiplier.toUInt64⟩ := by
  have hmultiple : (reduced groupSize limit).toUInt64 * multiplier.toUInt64 %
      (reduced groupSize limit).toUInt64 = 0 := by
    apply UInt64.toNat_inj.mp
    rw [UInt64.toNat_mod, toNat_product, UInt32.toNat_toUInt64]
    exact Nat.mul_mod_right _ _
  rw [sizes]
  simp only [hmultiple, ne_eq, not_true_eq_false, if_false]

/-- What the miners make of the numbers that are asked for. -/
def Valid (limit : UInt64) (multiplier : UInt32) (result : Option AlgoContext) : Prop :=
  ∃ ctx, result = some ctx ∧ ValidSizes limit multiplier ctx

theorem sizes_valid_iff (groupSize multiplier : UInt32) (limit : UInt64) :
    Valid limit multiplier (sizes groupSize multiplier limit) ↔
      0 < groupSize ∧ 0 < limit ∧ 0 < multiplier ∧
        min groupSize.toNat limit.toNat * multiplier.toNat < 2 ^ 32 := by
  have hreduced := reduced_toNat groupSize limit
  have hproduct := toNat_product (reduced groupSize limit) multiplier
  rw [← UInt32.toNat_toUInt64 (reduced groupSize limit), hreduced] at hproduct
  simp only [UInt32.lt_iff_toNat_lt, UInt64.lt_iff_toNat_lt, UInt32.toNat_zero, UInt64.toNat_zero]
  rw [sizes_eq]
  split
  case isTrue hzero =>
    have hmin : min groupSize.toNat limit.toNat = 0 := by
      rw [← hreduced, hzero]
      rfl
    refine iff_of_false (fun ⟨_, h, _⟩ => by cases h) ?_
    omega
  case isFalse hpos =>
    have hmin : min groupSize.toNat limit.toNat ≠ 0 := by
      intro hmin
      apply hpos
      apply UInt64.toNat_inj.mp
      rw [hreduced, hmin]
      rfl
    constructor
    · rintro ⟨ctx, hctx, -, -, hglobal, -, -, hlt⟩
      cases hctx
      rw [UInt64.lt_iff_toNat_lt] at hglobal
      rw [hproduct] at hglobal hlt
      have hfactor : 0 < multiplier.toNat := Nat.pos_of_mul_pos_left hglobal
      exact ⟨by omega, by omega, hfactor, hlt⟩
    · rintro ⟨-, -, hfactor, hlt⟩
      refine ⟨_, rfl, ?_, ?_, ?_, ?_, ?_, ?_⟩
      · rw [UInt64.lt_iff_toNat_lt, hreduced]
        exact Nat.pos_of_ne_zero hmin
      · rw [UInt64.le_iff_toNat_le, hreduced]
        exact Nat.min_le_right _ _
      · rw [UInt64.lt_iff_toNat_lt, hproduct]
        exact Nat.mul_pos (Nat.pos_of_ne_zero hmin) hfactor
      · rw [hproduct, hreduced]
        exact Nat.dvd_mul_right _ _
      · rw [hproduct, hreduced]
      · rw [hproduct]
        exact hlt

end Sizes

section Branches

/-- The least multiple of `d` that is at least `n` is less than `n + d`. -/
theorem lt_of_isLeast_multiple {d n m : Nat} (h : IsLeast {k | d ∣ k ∧ n ≤ k} m) (hn : 0 < n) :
    m < n + d := by
  obtain ⟨⟨⟨q, hq⟩, hle⟩, hleast⟩ := h
  by_contra hnot
  have hq0 : q ≠ 0 := by
    rintro rfl
    omega
  obtain ⟨p, rfl⟩ := Nat.exists_eq_succ_of_ne_zero hq0
  rw [Nat.mul_succ] at hq
  have hsmaller : d * p ∈ {k | d ∣ k ∧ n ≤ k} := ⟨Nat.dvd_mul_right d p, by omega⟩
  have := hleast hsmaller
  have hd : 0 < d := by
    by_contra hd
    have : d = 0 := by omega
    subst this
    omega
  omega

/-- The count is added twice, and the padding is at least 1. -/
theorem le_branchSize {localThreads branchNonces : UInt64} (hpos : 0 < localThreads.toNat)
    (hlocal : localThreads.toNat < 2 ^ 32) (hbranch : branchNonces.toNat < 2 ^ 32) :
    branchNonces.toNat + localThreads.toNat ≤ (branchSize localThreads branchNonces).toNat := by
  have hone : (1 : UInt64) ≤ localThreads := UInt64.le_iff_toNat_le.mpr hpos
  have hmask : (localThreads - 1).toNat = localThreads.toNat - 1 :=
    UInt64.toNat_sub_of_le _ _ hone
  have hand : (branchNonces &&& (localThreads - 1)).toNat ≤ branchNonces.toNat := by
    rw [UInt64.toNat_and]
    exact Nat.and_le_left
  have hand' : (branchNonces &&& (localThreads - 1)).toNat ≤ localThreads.toNat - 1 := by
    rw [UInt64.toNat_and, hmask]
    exact Nat.and_le_right
  have hpad : (localThreads - (branchNonces &&& (localThreads - 1))).toNat =
      localThreads.toNat - (branchNonces &&& (localThreads - 1)).toNat :=
    UInt64.toNat_sub_of_le _ _ (UInt64.le_iff_toNat_le.mpr (by omega))
  rw [branchSize, UInt64.toNat_add, UInt64.toNat_add, hpad, Nat.mod_eq_of_lt (by omega),
    Nat.mod_eq_of_lt (by omega)]
  omega

theorem branchSize_not_least {localThreads branchNonces : UInt64} (hpos : 0 < localThreads.toNat)
    (hlocal : localThreads.toNat < 2 ^ 32) (hbranch : branchNonces.toNat < 2 ^ 32)
    (hn : 0 < branchNonces.toNat) :
    ¬ IsLeast {k | localThreads.toNat ∣ k ∧ branchNonces.toNat ≤ k}
      (branchSize localThreads branchNonces).toNat := by
  intro h
  have hlt := lt_of_isLeast_multiple h hn
  have hle := le_branchSize hpos hlocal hbranch
  omega

end Branches

section Setup
variable (settings : ClSettings) (params : DeviceParams) (limit : UInt64)

def groupSizeOf (family : HashFamily) : UInt32 :=
  (params OclDeviceParam.LocalWorkSize.toInt).getD (clLocalWork settings family)

def multiplierOf (family : HashFamily) : UInt32 :=
  (params OclDeviceParam.GlobalWorkSize.toInt).getD (clGlobalWork settings family)

theorem params_ne : OclDeviceParam.GlobalWorkSize.toInt ≠ OclDeviceParam.LocalWorkSize.toInt := by
  decide

theorem setupSizes_fst (family : HashFamily) :
    (setupSizes family settings limit params).1 =
      sizes (groupSizeOf settings params family) (multiplierOf settings params family) limit := by
  cases hlocal : params OclDeviceParam.LocalWorkSize.toInt with
  | none =>
    cases hglobal : params OclDeviceParam.GlobalWorkSize.toInt with
    | none => simp [setupSizes, resolve, groupSizeOf, multiplierOf, hlocal, hglobal, params_ne]
    | some v => simp [setupSizes, resolve, groupSizeOf, multiplierOf, hlocal, hglobal, params_ne]
  | some v =>
    cases hglobal : params OclDeviceParam.GlobalWorkSize.toInt with
    | none => simp [setupSizes, resolve, groupSizeOf, multiplierOf, hlocal, hglobal]
    | some w => simp [setupSizes, resolve, groupSizeOf, multiplierOf, hlocal, hglobal]

/-- Neither number is 0, and the global size they give has 32 bits. -/
def Fits (family : HashFamily) : Prop :=
  0 < groupSizeOf settings params family ∧ 0 < multiplierOf settings params family ∧
    min (groupSizeOf settings params family).toNat limit.toNat *
      (multiplierOf settings params family).toNat < 2 ^ 32

def SetupRight (family : HashFamily) : Prop :=
  Valid limit (multiplierOf settings params family) (setupSizes family settings limit params).1

/-- The size of a branch kernel is the least multiple of the local size that is enough. -/
def BranchRight (n : UInt32) : Prop :=
  ∃ ctx, (CryptonoteOCLMinerPrivate.setupAlgo settings limit params).1 = some ctx ∧
    IsLeast {k | ctx.workgroupSize.toNat ∣ k ∧ n.toNat ≤ k}
      (branchSize ctx.workgroupSize n.toUInt64).toNat

variable {settings params limit}

theorem setupRight_iff {family : HashFamily} (hlimit : 0 < limit) :
    SetupRight settings params limit family ↔ Fits settings params limit family := by
  rw [SetupRight, setupSizes_fst, sizes_valid_iff, Fits]
  simp [hlimit]

theorem not_branchRight {n : UInt32} (hn : 0 < n) : ¬ BranchRight settings params limit n := by
  rintro ⟨ctx, hctx, hleast⟩
  rw [CryptonoteOCLMinerPrivate.setupAlgo, setupSizes_fst, sizes_eq] at hctx
  split at hctx
  case isTrue => cases hctx
  case isFalse hne =>
    cases hctx
    have hn' : n.toUInt64.toNat = n.toNat := UInt32.toNat_toUInt64 n
    have hpos : 0 < (reduced (groupSizeOf settings params .CryptoNight) limit).toUInt64.toNat := by
      apply Nat.pos_of_ne_zero
      intro hzero
      exact hne (UInt64.toNat_inj.mp hzero)
    have hlocal := (reduced (groupSizeOf settings params .CryptoNight) limit).toNat_lt
    rw [← hn'] at hleast
    refine branchSize_not_least hpos ?_ ?_ ?_ hleast
    · rw [UInt32.toNat_toUInt64]
      exact hlocal
    · rw [hn']
      exact n.toNat_lt
    · rw [hn']
      exact UInt32.lt_iff_toNat_lt.mp hn

/-- The set-up of both miners is right exactly when the numbers fit; the size of a branch kernel is
never right. -/
theorem work_sizes_iff (settings : ClSettings) (params : DeviceParams) (hlimit : 0 < limit) :
    (SetupRight settings params limit .CryptoNight ↔ Fits settings params limit .CryptoNight) ∧
    (SetupRight settings params limit .Ethereum ↔ Fits settings params limit .Ethereum) ∧
    ∀ n : UInt32, 0 < n → ¬ BranchRight settings params limit n :=
  ⟨setupRight_iff hlimit, setupRight_iff hlimit, fun _ => not_branchRight⟩

/-- The numbers of `cl-localsize` and `cl-globalsize`. -/
def asked (localSize globalSize : UInt32) : DeviceParams := fun key =>
  if key = 1 then some localSize else if key = 0 then some globalSize else none

theorem default_sizes_right :
    SetupRight ⟨0, 0⟩ (asked 64 4096) 256 .Ethereum ∧
      ¬ BranchRight ⟨0, 0⟩ (asked 64 4096) 256 1 := by
  obtain ⟨-, hsetup, hbranch⟩ := work_sizes_iff ⟨0, 0⟩ (asked 64 4096)
    (show (0 : UInt64) < 256 by decide)
  refine ⟨hsetup.mpr ?_, hbranch 1 (by decide)⟩
  unfold Fits
  decide

/-- A local size 0 is accepted, and the set-up divides by it. -/
theorem local_size_zero :
    ¬ ∀ (settings : ClSettings) (params : DeviceParams) (limit : UInt64), 0 < limit →
      SetupRight settings params limit .CryptoNight ∧ SetupRight settings params limit .Ethereum ∧
        ∀ n : UInt32, 0 < n → BranchRight settings params limit n := by
  intro h
  obtain ⟨⟨ctx, hctx, -⟩, -⟩ := h ⟨0, 0⟩ (asked 0 4096) 256 (by decide)
  have hnone : (setupSizes .CryptoNight ⟨0, 0⟩ 256 (asked 0 4096)).1.isNone = true := by decide
  rw [hctx] at hnone
  cases hnone

end Setup

end OclWorkSizes
end MinerGate
