import MinerGate.Miner.CpuLoop
import MinerGate.Pool.JobMessages

/-!
# What a CryptoNight device hashes and accepts

A device gets the first 76 bytes of a blob and the target, writes the nonce of each of its
threads into its copy of the bytes and reports the nonces whose hash passes its own
comparison. Every nonce it reports is hashed again and compared on the host.
-/

namespace MinerGate

set_option autoImplicit false

open QByteArray

/-- `((quint32*)&hash)[i]` -/
def hashWord (hash : QByteArray) (i : Nat) : Nat := arrayToQuint32 (hash.drop (4 * i))

theorem arrayToQuint32_lt (ar : QByteArray) : arrayToQuint32 ar < quint32Modulus :=
  calc arrayToQuint32 ar < 256 ^ (ar.take 4).length := readLittleEndian_lt _
    _ ≤ 256 ^ 4 := Nat.pow_le_pow_right (by decide) (by simp)

section Acceptance

/-- The array `target` of the CUDA miner. -/
def targetWord (target : QByteArray) (i : Nat) : Nat :=
  if i = 7 then arrayToQuint32 target else 0xffffffff

/-- What `cryptonight_extra_gpu_final` does with word `i`, with its `position` and `rc`. -/
def compareWord (hash target : Nat → Nat) (s : Int × Bool) (i : Nat) : Int × Bool :=
  let s := if hash i > target i ∧ s.1 < i then (↑i, false) else s
  if hash i < target i ∧ s.1 < i then (↑i, true) else s

def cryptonight_extra_gpu_final (hash target : Nat → Nat) : Bool :=
  ([7, 6, 5, 4, 3, 2, 1, 0].foldl (compareWord hash target) (-1, true)).2

/-- The last line of the kernels `Blake`, `Groestl`, `JH` and `Skein`: each of them compares the
last word of its hash. -/
def branchKernel (hash : QByteArray) (Target : Nat) : Bool := hashWord7 hash ≤ Target

/-- The argument `Target` that `setKernelArgs` sets: the first four bytes not of the target but of
the `QByteArray`, which is a pointer to its data. -/
def kernelTarget (targetData : Nat) : Nat := targetData % quint32Modulus

inductive CryptonoteBackEnd where
  | cpu
  | cpuLite
  | cuda
  | openCl
deriving DecidableEq, Repr

/-- A nonce with this hash gives a share. -/
def CryptonoteBackEnd.accepts (job : MiningJob) (targetData : Nat) (hash : QByteArray) :
    CryptonoteBackEnd → Bool
  | cpu | cpuLite => ((cryptonoteSearch fun _ => hash).tryNonce job 0).2.isSome
  | cuda =>
    cryptonight_extra_gpu_final (hashWord hash) (targetWord job.target) &&
      (checkCryptonote (fun _ => hash) job 0).isSome
  | openCl =>
    branchKernel hash (kernelTarget targetData) && (checkCryptonote (fun _ => hash) job 0).isSome

variable {hash target : Nat → Nat} {words : List Nat}

theorem compareWord_of_le {s : Int × Bool} {i : Nat} (h : ↑i ≤ s.1) :
    compareWord hash target s i = s := by
  have hnot : ¬ s.1 < ↑i := by omega
  simp only [compareWord, hnot, and_false, if_false]

/-- Once a word has decided, the lower ones are not looked at. -/
theorem foldl_compareWord_of_le {s : Int × Bool} (h : ∀ i ∈ words, ↑i ≤ s.1) :
    words.foldl (compareWord hash target) s = s := by
  induction words with
  | nil => rfl
  | cons i words ih =>
    rw [List.foldl_cons, compareWord_of_le (h i List.mem_cons_self)]
    exact ih fun j hj => h j (List.mem_cons_of_mem i hj)

theorem foldl_compareWord_true {s : Int × Bool} (h : ∀ i ∈ words, hash i ≤ target i)
    (hs : s.2 = true) : (words.foldl (compareWord hash target) s).2 = true := by
  induction words generalizing s with
  | nil => exact hs
  | cons i words ih =>
    rw [List.foldl_cons]
    apply ih fun j hj => h j (List.mem_cons_of_mem i hj)
    have hle : ¬ hash i > target i := Nat.not_lt.mpr (h i List.mem_cons_self)
    simp only [compareWord, hle, false_and, if_false]
    split
    · rfl
    · exact hs

/-- With the words below the last one at their maximum the last word decides. -/
theorem cryptonight_extra_gpu_final_iff (h : ∀ i < 7, hash i ≤ target i) :
    cryptonight_extra_gpu_final hash target = true ↔ hash 7 ≤ target 7 := by
  have hlower : ∀ i ∈ [6, 5, 4, 3, 2, 1, 0], i < 7 := by decide
  rw [cryptonight_extra_gpu_final, List.foldl_cons]
  by_cases hle : hash 7 ≤ target 7
  · have hs : (compareWord hash target (-1, true) 7).2 = true := by
      have hnot : ¬ hash 7 > target 7 := Nat.not_lt.mpr hle
      simp only [compareWord, hnot, false_and, if_false]
      split <;> rfl
    simp only [hle, iff_true]
    exact foldl_compareWord_true (fun i hi => h i (hlower i hi)) hs
  · have hs : compareWord hash target (-1, true) 7 = (7, false) := by
      have hgt : hash 7 > target 7 := Nat.not_le.mp hle
      simp [compareWord, hgt]
    rw [hs, foldl_compareWord_of_le]
    · simp [hle]
    · intro i hi
      have := hlower i hi
      simp only
      omega

end Acceptance

namespace CryptonoteBackEnd
variable (job : MiningJob) (targetData : Nat) (hash : QByteArray)

theorem checkCryptonote_isSome : (checkCryptonote (fun _ => hash) job 0).isSome = true ↔
    hashWord7 hash ≤ arrayToQuint32 job.target := by
  simp only [checkCryptonote]
  by_cases hle : hashWord7 hash ≤ arrayToQuint32 job.target
  · simp only [hle, if_true, Option.isSome_some]
  · simp [hle]

theorem accepts_cpu : cpu.accepts job targetData hash = true ↔
    hashWord7 hash < arrayToQuint32 job.target := by
  simp only [accepts, cryptonoteSearch, MiningJob.setNonce]
  by_cases hlt : hashWord7 hash < arrayToQuint32 job.target
  · simp only [hlt, if_true, Option.isSome_some]
  · simp [hlt]

theorem accepts_cuda : cuda.accepts job targetData hash = true ↔
    hashWord7 hash ≤ arrayToQuint32 job.target := by
  have hwords : ∀ i < 7, hashWord hash i ≤ targetWord job.target i := by
    intro i hi
    rw [targetWord, if_neg (by omega)]
    exact Nat.le_of_lt_succ (arrayToQuint32_lt _)
  rw [accepts, Bool.and_eq_true, checkCryptonote_isSome, cryptonight_extra_gpu_final_iff hwords]
  exact and_self_iff

theorem accepts_openCl : openCl.accepts job targetData hash = true ↔
    hashWord7 hash ≤ kernelTarget targetData ∧ hashWord7 hash ≤ arrayToQuint32 job.target := by
  rw [accepts, Bool.and_eq_true, checkCryptonote_isSome, branchKernel, decide_eq_true_iff]

/-- The back ends agree on a hash unless it is on the target, or below it and above what the OpenCL
kernels were given for it. -/
theorem accept_alike_iff :
    (∃ p : Prop, ∀ b : CryptonoteBackEnd, b.accepts job targetData hash = true ↔ p) ↔
      hashWord7 hash ≠ arrayToQuint32 job.target ∧
        (hashWord7 hash < arrayToQuint32 job.target →
          hashWord7 hash ≤ kernelTarget targetData) := by
  constructor
  · rintro ⟨p, h⟩
    have hcpu := (accepts_cpu job targetData hash).symm.trans (h cpu)
    have hcuda := (accepts_cuda job targetData hash).symm.trans (h cuda)
    have hopenCl := (accepts_openCl job targetData hash).symm.trans (h openCl)
    have hle_lt := hcuda.trans hcpu.symm
    constructor
    · intro heq
      exact absurd (hle_lt.mp (Nat.le_of_eq heq)) (by omega)
    · intro hlt
      exact (hopenCl.mpr (hcpu.mp hlt)).1
  · rintro ⟨hne, hkernel⟩
    refine ⟨hashWord7 hash < arrayToQuint32 job.target, fun b => ?_⟩
    have hle_lt : hashWord7 hash ≤ arrayToQuint32 job.target ↔
        hashWord7 hash < arrayToQuint32 job.target := by omega
    cases b with
    | cpu | cpuLite => exact accepts_cpu job targetData hash
    | cuda => exact (accepts_cuda job targetData hash).trans hle_lt
    | openCl =>
      rw [accepts_openCl, hle_lt]
      exact ⟨fun h => h.2, fun h => ⟨hkernel h, h⟩⟩

/-- A hash on the target is a share for the devices and none for the CPU loops. -/
theorem hash_on_target_differs :
    ¬ ∃ P : Nat → Nat → Prop, ∀ (job : MiningJob) (targetData : Nat) (hash : QByteArray),
      job.target.length = 4 → hash.length = 32 →
        ∀ b : CryptonoteBackEnd, b.accepts job targetData hash = true ↔
          P (hashWord7 hash) (arrayToQuint32 job.target) := by
  rintro ⟨P, h⟩
  have h := h ⟨[1], [], [5, 0, 0, 0]⟩ 0 (List.replicate 28 0 ++ [5, 0, 0, 0]) rfl rfl
  have hboth := (h cuda).trans (h cpu).symm
  exact absurd (hboth.mp (by decide)) (by decide)

end CryptonoteBackEnd

section Input

/-- The size of the buffers for the blob, in the host's copy and in the kernels. -/
def inputSize : Nat := 76

/-- The bytes that a copy of `inputSize` bytes from the start of the blob reads; `beyond` is what
lies in memory after it. -/
def upload (blob : QByteArray) (beyond : Nat → UInt8) : QByteArray :=
  (List.range inputSize).map fun i => blob[i]?.getD (beyond i)

/-- The bytes that thread `thread` of `cryptonight_extra_gpu_prepare` hashes. -/
def cryptonight_extra_gpu_prepare (d_input : QByteArray) (startNonce thread : Nat) : QByteArray :=
  setNonce d_input ((startNonce + thread) % quint32Modulus)

/-- `((uint *)State)[i]` and a store to it. -/
def word (State : QByteArray) (i : Nat) : Nat := arrayToQuint32 (State.drop (4 * i))

def setWord (State : QByteArray) (i : Nat) (w : Nat) : QByteArray :=
  State.take (4 * i) ++ littleEndian 4 w ++ State.drop (4 * i + 4)

/-- The bytes that `cn0` hashes; its global id has 64 bits. -/
def cn0 (input : QByteArray) (globalId : Nat) : QByteArray :=
  let State := setWord input 9 (word input 9 &&& 0x00FFFFFF ||| (globalId &&& 0xFF) <<< 24)
  setWord State 10 (word State 10 &&& 0xFF000000 ||| (globalId >>> 8) % quint32Modulus)

/-- What the CPU worker and the checks on the host hash. -/
def hostInput (job : MiningJob) (nonce : Nat) : QByteArray := (job.setNonce nonce).blob

/-- The pool's blob is uploaded with its nonce cleared. -/
def cudaInput (job : MiningJob) (beyond : Nat → UInt8) (startNonce thread : Nat) : QByteArray :=
  cryptonight_extra_gpu_prepare (upload (job.setNonce 0).blob beyond) startNonce thread

def cudaFeeInput (job : MiningJob) (beyond : Nat → UInt8) (startNonce thread : Nat) : QByteArray :=
  cryptonight_extra_gpu_prepare (upload job.blob beyond) startNonce thread

def openClInput (job : MiningJob) (beyond : Nat → UInt8) (startNonce thread : Nat) : QByteArray :=
  cn0 (upload job.blob beyond) ((startNonce + thread) % nonceModulus)

section Bytes
variable {b : QByteArray} {p q : QByteArray}

theorem length_upload (blob : QByteArray) (beyond : Nat → UInt8) :
    (upload blob beyond).length = inputSize := by
  simp [upload]

theorem upload_eq {blob : QByteArray} (beyond : Nat → UInt8) (h : blob.length = inputSize) :
    upload blob beyond = blob := by
  apply List.ext_getElem
  · rw [length_upload, h]
  · intro i hi hblob
    simp [upload, hblob]

theorem setNonce_mod (blob : QByteArray) (nonce : Nat) :
    setNonce blob (nonce % quint32Modulus) = setNonce blob nonce := by
  have hmod : littleEndian 4 (nonce % quint32Modulus) = littleEndian 4 nonce :=
    littleEndian_mod 4 nonce
  simp only [setNonce, hmod]

theorem littleEndian_word (hb : b.length = 4) (m n : Nat) (hp : p.length = 4 * m) :
    littleEndian 4 (word (p ++ b ++ q) m &&& n) = List.zipWith (· &&& ·) b (littleEndian 4 n) := by
  have hword : word (p ++ b ++ q) m = readLittleEndian b := by
    rw [word, List.append_assoc, ← hp, List.drop_left, arrayToQuint32, List.take_left' hb]
  have hread := littleEndian_readLittleEndian b
  rw [hb] at hread
  rw [littleEndian_and, hword, hread]

theorem setWord_append (hb : b.length = 4) (m w : Nat) (hp : p.length = 4 * m) :
    setWord (p ++ b ++ q) m w = p ++ littleEndian 4 w ++ q := by
  have hpb : (p ++ b).length = 4 * m + 4 := by rw [List.length_append, hp, hb]
  rw [setWord, List.drop_left' hpb, List.append_assoc p b q, List.take_left' hp]

theorem littleEndian_shiftLeft (g : Nat) :
    littleEndian 4 ((g &&& 0xFF) <<< 24) = [0, 0, 0, UInt8.ofNat g] := by
  have hand : g &&& 0xFF = g % 256 := Nat.and_two_pow_sub_one_eq_mod g 8
  rw [hand, Nat.shiftLeft_eq]
  simp only [littleEndian, List.cons.injEq, and_true]
  refine ⟨?_, ?_, ?_, ?_⟩ <;>
  · apply UInt8.toNat_inj.mp
    simp only [UInt8.toNat_ofNat', UInt8.toNat_zero]
    omega

theorem word_nine (b0 b1 b2 b3 : UInt8) (g : Nat) (hp : p.length = 36) :
    littleEndian 4 (word (p ++ [b0, b1, b2, b3] ++ q) 9 &&& 0x00FFFFFF ||| (g &&& 0xFF) <<< 24) =
      [b0, b1, b2, UInt8.ofNat g] := by
  have hmask : littleEndian 4 0x00FFFFFF = [0xFF, 0xFF, 0xFF, 0] := by decide
  rw [littleEndian_or, littleEndian_word rfl 9 _ hp, littleEndian_shiftLeft, hmask]
  have hand (x : UInt8) : x &&& 0xFF = x := UInt8.and_neg_one
  simp [hand]

theorem word_ten (b0 b1 b2 b3 : UInt8) (g : Nat) (hp : p.length = 40) :
    littleEndian 4 (word (p ++ [b0, b1, b2, b3] ++ q) 10 &&& 0xFF000000 |||
        (g >>> 8) % quint32Modulus) =
      [UInt8.ofNat (g / 256), UInt8.ofNat (g / 256 / 256), UInt8.ofNat (g / 256 / 256 / 256),
        b3 ||| UInt8.ofNat (g / quint32Modulus)] := by
  have hmask : littleEndian 4 0xFF000000 = [0, 0, 0, 0xFF] := by decide
  have hshift : littleEndian 4 ((g >>> 8) % quint32Modulus) = littleEndian 4 (g / 256) := by
    rw [Nat.shiftRight_eq_div_pow]
    exact littleEndian_mod 4 _
  have hdiv : g / 256 / 256 / 256 / 256 = g / quint32Modulus := by
    simp only [Nat.div_div_eq_div_mul, quint32Modulus]
  rw [littleEndian_or, littleEndian_word rfl 10 _ hp, hshift, hmask]
  have hand (x : UInt8) : x &&& 0xFF = x := UInt8.and_neg_one
  simp [hand, littleEndian, hdiv]

/-- The kernel writes the nonce to bytes 39 to 42 and what is above its 32 bits over byte 43. -/
theorem cn0_eq {input : QByteArray} (h : 44 ≤ input.length) (g : Nat) :
    cn0 input g = input.take 39 ++ littleEndian 4 g ++
      (input.drop 43).modifyHead (· ||| UInt8.ofNat (g / quint32Modulus)) := by
  obtain ⟨p, b0, b1, b2, b3, c0, c1, c2, c3, q, hp, rfl⟩ :
      ∃ p b0 b1 b2 b3 c0 c1 c2 c3 q, p.length = 36 ∧
        input = p ++ [b0, b1, b2, b3] ++ ([c0, c1, c2, c3] ++ q) := by
    have hrest : 8 ≤ (input.drop 36).length := by
      rw [List.length_drop]
      omega
    have hsplit := List.take_append_drop 36 input
    match hdrop : input.drop 36, hrest with
    | b0 :: b1 :: b2 :: b3 :: c0 :: c1 :: c2 :: c3 :: q, _ =>
      refine ⟨input.take 36, b0, b1, b2, b3, c0, c1, c2, c3, q, ?_, ?_⟩
      · rw [List.length_take]
        omega
      · rw [hdrop] at hsplit
        simpa using hsplit.symm
  have hten : (p ++ [b0, b1, b2, UInt8.ofNat g]).length = 40 := by simp [hp]
  have htake : (p ++ [b0, b1, b2, b3] ++ ([c0, c1, c2, c3] ++ q)).take 39 = p ++ [b0, b1, b2] := by
    have h39 : (p ++ [b0, b1, b2]).length = 39 := by simp [hp]
    have hlist : p ++ [b0, b1, b2, b3] ++ ([c0, c1, c2, c3] ++ q) =
        p ++ [b0, b1, b2] ++ (b3 :: c0 :: c1 :: c2 :: c3 :: q) := by simp
    rw [hlist, List.take_left' h39]
  have hdrop : (p ++ [b0, b1, b2, b3] ++ ([c0, c1, c2, c3] ++ q)).drop 43 = c3 :: q := by
    have h43 : (p ++ [b0, b1, b2, b3, c0, c1, c2]).length = 43 := by simp [hp]
    have hlist : p ++ [b0, b1, b2, b3] ++ ([c0, c1, c2, c3] ++ q) =
        p ++ [b0, b1, b2, b3, c0, c1, c2] ++ (c3 :: q) := by simp
    rw [hlist, List.drop_left' h43]
  rw [htake, hdrop, cn0, setWord_append rfl 9 _ hp, word_nine b0 b1 b2 b3 g hp, ← List.append_assoc,
    setWord_append rfl 10 _ hten, word_ten c0 c1 c2 c3 g hten]
  simp [littleEndian]

/-- Every path hashes the same bytes and reads the blob alone, whatever lies behind it. -/
def HashesSameBytes (job : MiningJob) (startNonce thread : Nat) : Prop :=
  inputSize ≤ job.blob.length ∧ ∀ beyond,
    cudaInput job beyond startNonce thread = hostInput job (startNonce + thread) ∧
    cudaFeeInput job beyond startNonce thread = hostInput job (startNonce + thread) ∧
    openClInput job beyond startNonce thread = hostInput job (startNonce + thread)

theorem HashesSameBytes.length {job : MiningJob} {startNonce thread : Nat}
    (h : HashesSameBytes job startNonce thread) : job.blob.length = inputSize := by
  have hlength := congrArg List.length (h.2 fun _ => 0).1
  rw [cudaInput, cryptonight_extra_gpu_prepare, length_setNonce, length_upload, hostInput,
    MiningJob.setNonce, length_setNonce] at hlength
  exact hlength.symm

theorem openClInput_eq {job : MiningJob} (h : job.blob.length = inputSize)
    (beyond : Nat → UInt8) (startNonce thread : Nat) :
    openClInput job beyond startNonce thread =
      job.blob.take 39 ++ littleEndian 4 (startNonce + thread) ++
        (job.blob.drop 43).modifyHead
          (· ||| UInt8.ofNat ((startNonce + thread) % nonceModulus / quint32Modulus)) := by
  have hmod : littleEndian 4 ((startNonce + thread) % nonceModulus) =
      littleEndian 4 (startNonce + thread) := by
    rw [← littleEndian_mod, ← littleEndian_mod 4 (startNonce + thread)]
    congr 1
    simp only [nonceModulus]
    omega
  rw [openClInput, upload_eq beyond h, cn0_eq (by rw [h]; decide), hmod]

/-- The devices and the host hash the same bytes exactly for blobs of 76 bytes and nonces whose bits
from 32 to 39 are set in byte 43 of the blob. -/
theorem hashesSameBytes_iff (job : MiningJob) (startNonce thread : Nat) :
    HashesSameBytes job startNonce thread ↔ job.blob.length = inputSize ∧
      ∀ b ∈ job.blob[43]?,
        b ||| UInt8.ofNat ((startNonce + thread) % nonceModulus / quint32Modulus) = b := by
  have hhost {nonce : Nat} (h : job.blob.length = inputSize) : hostInput job nonce =
      job.blob.take 39 ++ littleEndian 4 nonce ++ job.blob.drop 43 :=
    if_pos (by rw [h]; decide)
  constructor
  · intro h
    have hlen := h.length
    obtain ⟨-, -, hopenCl⟩ := h.2 fun _ => 0
    refine ⟨hlen, fun b hb => ?_⟩
    rw [openClInput_eq hlen, hhost hlen, List.append_cancel_left_eq] at hopenCl
    obtain ⟨hlt, rfl⟩ := List.getElem?_eq_some_iff.mp hb
    rw [List.drop_eq_getElem_cons hlt, List.modifyHead_cons] at hopenCl
    exact (List.cons.inj hopenCl).1
  · rintro ⟨hlen, hbyte⟩
    refine ⟨Nat.le_of_eq hlen.symm, fun beyond => ⟨?_, ?_, ?_⟩⟩
    · have hzero : (job.setNonce 0).blob.length = inputSize := (length_setNonce _ _).trans hlen
      rw [cudaInput, upload_eq beyond hzero, cryptonight_extra_gpu_prepare, setNonce_mod]
      exact setNonce_setNonce job.blob 0 _
    · rw [cudaFeeInput, upload_eq beyond hlen, cryptonight_extra_gpu_prepare, setNonce_mod]
      rfl
    · have hlt : 43 < job.blob.length := by rw [hlen]; decide
      rw [openClInput_eq hlen, hhost hlen, List.drop_eq_getElem_cons hlt, List.modifyHead_cons,
        hbyte _ (List.getElem?_eq_getElem hlt)]

/-- A blob of 77 bytes is hashed to its end by the host and not by the devices. -/
theorem long_blob_differs :
    ¬ ∀ (s : Pool.Client) (jobMap : JsonObject) (job : MiningJob),
      Pool.StratumClient.EmitsJob s jobMap job →
        ∀ startNonce thread, HashesSameBytes job startNonce thread := by
  intro h
  have hemits := Pool.StratumClient.emitsJob_message (.new ⟨"pool", 1⟩ "" "" "") (.replicate 77 0)
    [1, 0, 0, 0]
  have hlength := (h _ _ _ hemits 0 0).length
  rw [Pool.StratumClient.blob_jobOf, Pool.StratumClient.blobBytes_message,
    List.length_replicate] at hlength
  exact absurd hlength (by decide)

end Bytes

end Input

end MinerGate
