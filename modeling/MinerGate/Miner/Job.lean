import MinerGate.Qt.Bytes

/-!
# Mining jobs
-/

namespace MinerGate

set_option autoImplicit false

open QByteArray

/-- For Ethereum the three fields hold the header hash, the seed hash and the boundary. -/
structure MiningJob where
  job_id : QByteArray
  blob : QByteArray
  target : QByteArray
deriving DecidableEq, Repr

/-- `MiningJob()`, which stops the search. -/
def MiningJob.empty : MiningJob := ⟨[], [], []⟩

def quint32ToArray (n : Nat) : QByteArray := littleEndian 4 n

def arrayToQuint32 (ar : QByteArray) : Nat := readLittleEndian (ar.take 4)

/-- The blob with the nonce written to bytes 39 to 42, where CryptoNote has it. A blob that
does not reach that far is left as it is. -/
def setNonce (blob : QByteArray) (nonce : Nat) : QByteArray :=
  if 43 ≤ blob.length then blob.take 39 ++ littleEndian 4 nonce ++ blob.drop 43 else blob

theorem length_setNonce (blob : QByteArray) (nonce : Nat) :
    (setNonce blob nonce).length = blob.length := by
  unfold setNonce
  split
  · simp only [List.length_append, List.length_take, List.length_drop, length_littleEndian]
    omega
  · rfl

theorem setNonce_setNonce (blob : QByteArray) (m n : Nat) :
    setNonce (setNonce blob m) n = setNonce blob n := by
  by_cases h : 43 ≤ blob.length
  · have h39 : (blob.take 39).length = 39 := by rw [List.length_take]; omega
    have h43 : (blob.take 39 ++ littleEndian 4 m).length = 43 := by
      rw [List.length_append, h39, length_littleEndian]
    have htake : (setNonce blob m).take 39 = blob.take 39 := by
      rw [setNonce, if_pos h, List.append_assoc, List.take_left' h39]
    have hdrop : (setNonce blob m).drop 43 = blob.drop 43 := by
      rw [setNonce, if_pos h, List.drop_left' h43]
    have hlen : 43 ≤ (setNonce blob m).length := by rwa [length_setNonce]
    rw [setNonce, if_pos hlen, htake, hdrop, setNonce, if_pos h]
  · have hm : setNonce blob m = blob := by rw [setNonce, if_neg h]
    rw [hm]

namespace MiningJob

def setNonce (job : MiningJob) (nonce : Nat) : MiningJob :=
  { job with blob := MinerGate.setNonce job.blob nonce }

/-- The same job, whatever nonces have been written into the two blobs. -/
def Agrees (j k : MiningJob) : Prop :=
  j.job_id = k.job_id ∧ j.target = k.target ∧
    MinerGate.setNonce j.blob 0 = MinerGate.setNonce k.blob 0

instance (j k : MiningJob) : Decidable (j.Agrees k) := inferInstanceAs (Decidable (_ ∧ _))

theorem Agrees.refl (j : MiningJob) : j.Agrees j := ⟨rfl, rfl, rfl⟩

theorem Agrees.trans {i j k : MiningJob} (hij : i.Agrees j) (hjk : j.Agrees k) : i.Agrees k :=
  ⟨hij.1.trans hjk.1, hij.2.1.trans hjk.2.1, hij.2.2.trans hjk.2.2⟩

theorem agrees_setNonce (j : MiningJob) (nonce : Nat) : (j.setNonce nonce).Agrees j :=
  ⟨rfl, rfl, setNonce_setNonce j.blob nonce 0⟩

theorem Agrees.setNonce_eq {j k : MiningJob} (h : j.Agrees k) (nonce : Nat) :
    MinerGate.setNonce j.blob nonce = MinerGate.setNonce k.blob nonce := by
  rw [← setNonce_setNonce j.blob 0 nonce, h.2.2, setNonce_setNonce]

theorem Agrees.blob_nil {j k : MiningJob} (h : j.Agrees k) : j.blob = [] ↔ k.blob = [] := by
  have hlen : j.blob.length = k.blob.length := by
    rw [← length_setNonce j.blob 0, h.2.2, length_setNonce]
  rw [← List.length_eq_zero_iff, hlen, List.length_eq_zero_iff]

end MiningJob

end MinerGate
