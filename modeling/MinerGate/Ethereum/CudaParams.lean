import MinerGate.Lib.Transition

/-!
# The grid and block size of the Ethereum CUDA miner

`start` and `benchmark` resolve both sizes from the parameters of the device. A parameter that is
missing gets a default, which each of the two writes back to the parameters in its own way.
-/

namespace MinerGate

set_option autoImplicit false

open Transition

inductive CudaDeviceParam where
  | GridSize
  | BlockSize
  | Intensity
deriving DecidableEq, Repr

/-- `(int)CudaDeviceParam` -/
def CudaDeviceParam.toInt : CudaDeviceParam → Int
  | GridSize => 0
  | BlockSize => 1
  | Intensity => 2

/-- `QMap<int, QVariant>`; all values put in are 32-bit numbers. -/
abbrev DeviceParams := Int → Option UInt32

namespace DeviceParams

def value (params : DeviceParams) (param : CudaDeviceParam) : Option UInt32 := params param.toInt

def insert (params : DeviceParams) (param : CudaDeviceParam) (v : UInt32) : DeviceParams :=
  fun key => if key = param.toInt then some v else params key

theorem value_insert (params : DeviceParams) (param other : CudaDeviceParam) (v : UInt32) :
    (params.insert param v).value other = if other = param then some v else params.value other := by
  cases param <;> cases other <;> rfl

end DeviceParams

def AVAILABLE_BLOCK_SIZE : List UInt16 := [32, 64, 128, 256]

def DEFAULT_BLOCK_SIZE_INDEX : Fin AVAILABLE_BLOCK_SIZE.length := ⟨1, by decide⟩

def defaultBlockSize : UInt16 := AVAILABLE_BLOCK_SIZE.get DEFAULT_BLOCK_SIZE_INDEX

structure EthCudaSizes where
  m_deviceParams : DeviceParams
  m_gridSize : UInt32
  m_blockSize : UInt16

namespace EthCudaSizes

def new : EthCudaSizes := ⟨fun _ => none, 0, 0⟩

def setGpuParams (d : EthCudaSizes) (params : DeviceParams) : EthCudaSizes :=
  { d with m_deviceParams := params }

/-- The two statements that resolve the sizes. `gridEntry` and `blockEntry` are what is written back
for a missing one, when it has its default. -/
def resolve (gridEntry blockEntry : EthCudaSizes → UInt32) (ethCudaGridSize : UInt32)
    (d : EthCudaSizes) : EthCudaSizes :=
  let d := match d.m_deviceParams.value .GridSize with
    | none =>
      let d := { d with m_gridSize := ethCudaGridSize }
      { d with m_deviceParams := d.m_deviceParams.insert .GridSize (gridEntry d) }
    | some v => { d with m_gridSize := v }
  match d.m_deviceParams.value .BlockSize with
  | none =>
    let d := { d with m_blockSize := defaultBlockSize }
    { d with m_deviceParams := d.m_deviceParams.insert .BlockSize (blockEntry d) }
  | some v => { d with m_blockSize := v.toUInt16 }

/-- `EthCUDAMiner::start` writes each size under the key of the other. -/
def start : UInt32 → EthCudaSizes → EthCudaSizes :=
  resolve (fun d => d.m_blockSize.toUInt32) (fun d => d.m_gridSize)

def benchmark : UInt32 → EthCudaSizes → EthCudaSizes :=
  resolve (fun d => d.m_gridSize) (fun d => d.m_blockSize.toUInt32)

end EthCudaSizes

namespace CudaParams

/-- A call of one of the two; it resolves the sizes unless `init` has failed. -/
inductive Call where
  | start (init : Bool)
  | benchmark (init : Bool)
deriving DecidableEq, Repr

def Call.resolves : Call → Bool
  | start init => init
  | benchmark init => init

variable (ethCudaGridSize : UInt32)

def step (d : EthCudaSizes) : Call → Option EthCudaSizes
  | .start init => some (if init then d.start ethCudaGridSize else d)
  | .benchmark init => some (if init then d.benchmark ethCudaGridSize else d)

/-- The sizes that are set, and for those that are not the one of the settings and the default. -/
def wanted (params : DeviceParams) : UInt32 × UInt32 :=
  ((params.value .GridSize).getD ethCudaGridSize,
    (params.value .BlockSize).getD defaultBlockSize.toUInt32)

def Resolves (sizes : UInt32 × UInt32) (d : EthCudaSizes) (call : Call) : Prop :=
  call.resolves = true → ∀ t ∈ step ethCudaGridSize d call,
    (t.m_gridSize, t.m_blockSize.toUInt32) = sizes

/-- Every call resolves the sizes that are wanted from the parameters at the beginning. -/
def Stable (d : EthCudaSizes) (calls : List Call) : Prop :=
  Along (step ethCudaGridSize) (Resolves ethCudaGridSize (wanted ethCudaGridSize d.m_deviceParams))
    d calls

/-- What `start` writes back is what it should. -/
def WritesRight (d : EthCudaSizes) : Prop :=
  (d.m_deviceParams.value .GridSize = none → d.m_blockSize.toUInt32 = ethCudaGridSize) ∧
  (d.m_deviceParams.value .BlockSize = none →
    (wanted ethCudaGridSize d.m_deviceParams).1.toUInt16 = defaultBlockSize)

/-- A block size that is set has 16 bits; and `start` is not the first of several calls, or it
writes back what it should. -/
def Undisturbed (d : EthCudaSizes) (calls : List Call) : Prop :=
  match calls.filter Call.resolves with
  | [] => True
  | first :: others =>
    (∀ v ∈ d.m_deviceParams.value .BlockSize, v < 65536) ∧
      (first = .start true → others ≠ [] → WritesRight ethCudaGridSize d)

end CudaParams

namespace EthCudaSizes
variable {gridEntry blockEntry : EthCudaSizes → UInt32} {ethCudaGridSize grid block : UInt32}
  {d : EthCudaSizes}

/-- What a call resolves, whatever it writes back. -/
theorem sizes_resolve (gridEntry blockEntry : EthCudaSizes → UInt32) (ethCudaGridSize : UInt32)
    (d : EthCudaSizes) :
    (d.resolve gridEntry blockEntry ethCudaGridSize).m_gridSize =
        (CudaParams.wanted ethCudaGridSize d.m_deviceParams).1 ∧
      (d.resolve gridEntry blockEntry ethCudaGridSize).m_blockSize =
        (CudaParams.wanted ethCudaGridSize d.m_deviceParams).2.toUInt16 := by
  cases hgrid : d.m_deviceParams.value .GridSize <;>
    cases hblock : d.m_deviceParams.value .BlockSize <;>
      simp [resolve, CudaParams.wanted, hgrid, hblock, DeviceParams.value_insert]

/-- Parameters that are set stay. -/
theorem resolve_of_set (hgrid : d.m_deviceParams.value .GridSize = some grid)
    (hblock : d.m_deviceParams.value .BlockSize = some block) :
    d.resolve gridEntry blockEntry ethCudaGridSize =
      { d with m_gridSize := grid, m_blockSize := block.toUInt16 } := by
  simp [resolve, hgrid, hblock]

theorem params_start (ethCudaGridSize : UInt32) (d : EthCudaSizes) :
    (d.start ethCudaGridSize).m_deviceParams.value .GridSize =
        some ((d.m_deviceParams.value .GridSize).getD d.m_blockSize.toUInt32) ∧
      (d.start ethCudaGridSize).m_deviceParams.value .BlockSize =
        some ((d.m_deviceParams.value .BlockSize).getD
          (CudaParams.wanted ethCudaGridSize d.m_deviceParams).1) := by
  cases hgrid : d.m_deviceParams.value .GridSize <;>
    cases hblock : d.m_deviceParams.value .BlockSize <;>
      simp [start, resolve, CudaParams.wanted, hgrid, hblock, DeviceParams.value_insert]

theorem params_benchmark (ethCudaGridSize : UInt32) (d : EthCudaSizes) :
    (d.benchmark ethCudaGridSize).m_deviceParams.value .GridSize =
        some (CudaParams.wanted ethCudaGridSize d.m_deviceParams).1 ∧
      (d.benchmark ethCudaGridSize).m_deviceParams.value .BlockSize =
        some (CudaParams.wanted ethCudaGridSize d.m_deviceParams).2 := by
  cases hgrid : d.m_deviceParams.value .GridSize <;>
    cases hblock : d.m_deviceParams.value .BlockSize <;>
      simp [benchmark, resolve, CudaParams.wanted, hgrid, hblock, DeviceParams.value_insert]

end EthCudaSizes

namespace CudaParams
variable {ethCudaGridSize grid block : UInt32} {d : EthCudaSizes} {calls : List Call} {call : Call}
  {sizes : UInt32 × UInt32}

theorem step_of_not_resolves (h : call.resolves = false) :
    step ethCudaGridSize d call = some d := by
  cases call with
  | start init =>
    obtain rfl : init = false := h
    rfl
  | benchmark init =>
    obtain rfl : init = false := h
    rfl

/-- Once both parameters are set, every call resolves what they say. -/
theorem along_of_set (hgrid : d.m_deviceParams.value .GridSize = some grid)
    (hblock : d.m_deviceParams.value .BlockSize = some block) :
    Along (step ethCudaGridSize) (Resolves ethCudaGridSize sizes) d calls ↔
      (calls.filter Call.resolves ≠ [] → (grid, block.toUInt16.toUInt32) = sizes) := by
  induction calls generalizing d with
  | nil => simp
  | cons call calls ih =>
    cases hcall : call.resolves with
    | false =>
      rw [along_cons (step_of_not_resolves hcall), ih hgrid hblock, List.filter_cons,
        if_neg (by simp [hcall])]
      have hfree : Resolves ethCudaGridSize sizes d call := by
        intro h
        rw [hcall] at h
        cases h
      exact ⟨fun h => h.2, fun h => ⟨hfree, h⟩⟩
    | true =>
      have hstep : step ethCudaGridSize d call =
          some { d with m_gridSize := grid, m_blockSize := block.toUInt16 } := by
        cases call with
        | start init =>
          obtain rfl : init = true := hcall
          rw [step, if_pos rfl]
          exact congrArg some (EthCudaSizes.resolve_of_set hgrid hblock)
        | benchmark init =>
          obtain rfl : init = true := hcall
          rw [step, if_pos rfl]
          exact congrArg some (EthCudaSizes.resolve_of_set hgrid hblock)
      have hresolves : Resolves ethCudaGridSize sizes d call ↔
          (grid, block.toUInt16.toUInt32) = sizes := by
        simp [Resolves, hcall, hstep]
      rw [along_cons hstep, hresolves, List.filter_cons, if_pos hcall]
      constructor
      · intro h _
        exact h.1
      · intro h
        refine ⟨h (by simp), (ih ?_ ?_).mpr fun _ => h (by simp)⟩
        · exact hgrid
        · exact hblock

theorem toUInt16_toUInt32_eq_iff (v : UInt32) : v.toUInt16.toUInt32 = v ↔ v < 65536 := by
  rw [← UInt32.toNat_inj, UInt16.toNat_toUInt32, UInt32.toNat_toUInt16, UInt32.lt_iff_toNat_lt]
  exact Nat.mod_eq_iff_lt (by decide)

theorem wanted_fits_iff (ethCudaGridSize : UInt32) (d : EthCudaSizes) :
    (wanted ethCudaGridSize d.m_deviceParams).2.toUInt16.toUInt32 =
        (wanted ethCudaGridSize d.m_deviceParams).2 ↔
      ∀ v ∈ d.m_deviceParams.value .BlockSize, v < 65536 := by
  rw [toUInt16_toUInt32_eq_iff]
  cases hblock : d.m_deviceParams.value .BlockSize with
  | none => simpa [wanted, hblock] using (by decide : defaultBlockSize.toUInt32 < 65536)
  | some v => simp [wanted, hblock]

theorem writesRight_iff (hfits : ∀ v ∈ d.m_deviceParams.value .BlockSize, v < 65536) :
    ((d.m_deviceParams.value .GridSize).getD d.m_blockSize.toUInt32,
        ((d.m_deviceParams.value .BlockSize).getD
          (wanted ethCudaGridSize d.m_deviceParams).1).toUInt16.toUInt32) =
        wanted ethCudaGridSize d.m_deviceParams ↔
      WritesRight ethCudaGridSize d := by
  have hgrid : (d.m_deviceParams.value .GridSize).getD d.m_blockSize.toUInt32 =
        (wanted ethCudaGridSize d.m_deviceParams).1 ↔
      (d.m_deviceParams.value .GridSize = none → d.m_blockSize.toUInt32 = ethCudaGridSize) := by
    cases h : d.m_deviceParams.value .GridSize <;> simp [wanted, h]
  have hblock : ((d.m_deviceParams.value .BlockSize).getD
        (wanted ethCudaGridSize d.m_deviceParams).1).toUInt16.toUInt32 =
        (wanted ethCudaGridSize d.m_deviceParams).2 ↔
      (d.m_deviceParams.value .BlockSize = none →
        (wanted ethCudaGridSize d.m_deviceParams).1.toUInt16 = defaultBlockSize) := by
    cases h : d.m_deviceParams.value .BlockSize with
    | none =>
      have hwanted : (wanted ethCudaGridSize d.m_deviceParams).2 = defaultBlockSize.toUInt32 := by
        rw [wanted, h, Option.getD_none]
      rw [Option.getD_none, hwanted, UInt16.toUInt32_inj]
      exact ⟨fun heq _ => heq, fun heq => heq rfl⟩
    | some v =>
      have hwanted : (wanted ethCudaGridSize d.m_deviceParams).2 = v := by
        rw [wanted, h, Option.getD_some]
      rw [Option.getD_some, hwanted, toUInt16_toUInt32_eq_iff]
      simpa using hfits v h
  rw [Prod.ext_iff]
  exact and_congr hgrid hblock

theorem resolves_first_iff {t : EthCudaSizes} (hcall : call.resolves = true)
    (hstep : step ethCudaGridSize d call = some t)
    (hgrid : t.m_gridSize = (wanted ethCudaGridSize d.m_deviceParams).1)
    (hblock : t.m_blockSize = (wanted ethCudaGridSize d.m_deviceParams).2.toUInt16) :
    Resolves ethCudaGridSize (wanted ethCudaGridSize d.m_deviceParams) d call ↔
      ∀ v ∈ d.m_deviceParams.value .BlockSize, v < 65536 := by
  rw [← wanted_fits_iff ethCudaGridSize d]
  simp [Resolves, hcall, hstep, hgrid, hblock, Prod.ext_iff]

/-- The sizes are stable over all sequences of calls, unless a block size is too large or `start`
writes back a wrong one that a later call reads. -/
theorem stable_iff (ethCudaGridSize : UInt32) (d : EthCudaSizes) (calls : List Call) :
    Stable ethCudaGridSize d calls ↔ Undisturbed ethCudaGridSize d calls := by
  induction calls with
  | nil => exact iff_of_true trivial trivial
  | cons call calls ih =>
    unfold Stable Undisturbed at *
    cases hcall : call.resolves with
    | false =>
      rw [along_cons (step_of_not_resolves hcall), ih, List.filter_cons, if_neg (by simp [hcall])]
      have hfree : Resolves ethCudaGridSize (wanted ethCudaGridSize d.m_deviceParams) d call := by
        intro h
        rw [hcall] at h
        cases h
      exact ⟨fun h => h.2, fun h => ⟨hfree, h⟩⟩
    | true =>
      rw [List.filter_cons, if_pos hcall]
      cases call with
      | start init =>
        obtain rfl : init = true := hcall
        have hstep : step ethCudaGridSize d (.start true) = some (d.start ethCudaGridSize) := rfl
        obtain ⟨hgrid, hblock⟩ := d.sizes_resolve (fun d => d.m_blockSize.toUInt32)
          (fun d => d.m_gridSize) ethCudaGridSize
        rw [along_cons hstep, resolves_first_iff rfl hstep hgrid hblock,
          along_of_set (d.params_start ethCudaGridSize).1 (d.params_start ethCudaGridSize).2]
        apply and_congr_right
        intro hfits
        rw [writesRight_iff hfits]
        exact ⟨fun h _ => h, fun h => h rfl⟩
      | benchmark init =>
        obtain rfl : init = true := hcall
        have hstep : step ethCudaGridSize d (.benchmark true) =
          some (d.benchmark ethCudaGridSize) := rfl
        obtain ⟨hgrid, hblock⟩ := d.sizes_resolve (fun d => d.m_gridSize)
          (fun d => d.m_blockSize.toUInt32) ethCudaGridSize
        rw [along_cons hstep, resolves_first_iff rfl hstep hgrid hblock,
          along_of_set (d.params_benchmark ethCudaGridSize).1
            (d.params_benchmark ethCudaGridSize).2]
        apply and_congr_right
        intro hfits
        have hsizes : ((wanted ethCudaGridSize d.m_deviceParams).1,
            (wanted ethCudaGridSize d.m_deviceParams).2.toUInt16.toUInt32) =
              wanted ethCudaGridSize d.m_deviceParams := by
          rw [(wanted_fits_iff ethCudaGridSize d).mpr hfits]
        exact iff_of_true (fun _ => hsizes) (fun h => by cases h)

/-- On a miner without parameters the second `start` finds a grid of size 0. -/
theorem second_start_differs :
    ¬ ∀ (ethCudaGridSize : UInt32) (d : EthCudaSizes) (calls : List Call),
      Stable ethCudaGridSize d calls := by
  intro h
  have hsecond :=
    (h 32 EthCudaSizes.new [.start true, .start true]).2 (EthCudaSizes.new.start 32) rfl
  have hsizes := hsecond.1 rfl ((EthCudaSizes.new.start 32).start 32) rfl
  exact absurd hsizes (by decide)

end CudaParams
end MinerGate
