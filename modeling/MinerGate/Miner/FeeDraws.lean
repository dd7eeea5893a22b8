import MinerGate.Miner.Batches

/-!
# Draws for the fee

A loop that draws the fee spends one turn on the fee job. Beside it runs the same loop with
those turns taken out: it goes on at its `switch` where the first one draws the fee, and
stands still until that one is back.
-/

namespace MinerGate

set_option autoImplicit false

open Transition

namespace CpuLoop

/-- The loop is in a turn for the fee. -/
def inFee (l : CpuLoop) : Bool := l.pc = .copyFeeJob || l.originJob.isSome

def drawsFee (l : CpuLoop) (sh : Shared) (inp : Input) : Bool :=
  l.pc = .draw && sh.m_fee && inp.lucky

/-- A step of the loop whose draws of the fee are taken out. -/
def stepWithoutFee (l : CpuLoop) (search : Search) (sh : Shared) (inp : Input) :
    Option (Result CpuLoop) :=
  if l.drawsFee sh inp then some (.keep sh (l.goto .switch)) else l.step search sh inp

/-- The loop that did not begin the turn. -/
def withoutFee (l : CpuLoop) : CpuLoop := if l.inFee then l.leave l.originJob else l

end CpuLoop

namespace CryptonoteCuda

def inFee (l : CryptonoteCuda) : Bool := l.pc = .copyFeeJob || l.feeJob.isSome

def drawsFee (l : CryptonoteCuda) (sh : Shared) (inp : Input) : Bool :=
  l.pc = .draw && sh.m_fee && inp.lucky

def stepWithoutFee (l : CryptonoteCuda) (slowHash : QByteArray → QByteArray) (sh : Shared)
    (inp : Input) : Option (Result CryptonoteCuda) :=
  if l.drawsFee sh inp then some (.keep sh (l.goto .switch)) else l.step slowHash sh inp

def withoutFee (l : CryptonoteCuda) : CryptonoteCuda := if l.inFee then l.goto .switch else l

/-- The last copy to the device before a search for the pool succeeded, of whichever job it was, and
no set-up in a turn for the fee has given the device other threads. -/
def FeeApart (inp : Input) (b : Batches) (l : CryptonoteCuda) : Prop :=
  match l.pc with
  | .feeDevice _ | .feeSearch _ => inp.outcome = .fail → inp.threads.toNat = b.threads
  | .search => b.device.isSome
  | _ => True

instance (inp : Input) (b : Batches) (l : CryptonoteCuda) : Decidable (l.FeeApart inp b) := by
  unfold FeeApart
  split <;> infer_instance

end CryptonoteCuda

namespace CryptonoteOcl

def inFee (l : CryptonoteOcl) : Bool :=
  match l.pc with
  | .copyFeeJob => true
  | .setKernelArgs | .findShares | .findLoop | .findWait | .findReserve | .kernels | .checkStop
  | .report => l.isFee
  | _ => false

def ends (l : CryptonoteOcl) : Bool := l.pc = .setExit || l.pc = .returned

def drawsFee (l : CryptonoteOcl) (sh : Shared) (inp : Input) : Bool :=
  l.pc = .draw && inp.outcome = .ok && sh.m_fee && inp.lucky

def stepWithoutFee (l : CryptonoteOcl) (slowHash : QByteArray → QByteArray) (sh : Shared)
    (inp : Input) : Option (Result CryptonoteOcl) :=
  if l.drawsFee sh inp then some (.keep sh (l.goto .switch)) else l.step slowHash sh inp

/-- The fee job has a blob, and the loop copies the pool's job again only while that is the job it
had. -/
def FeeApart (sh : Shared) (b : Batches) (l : CryptonoteOcl) : Prop :=
  match l.pc with
  | .copyFeeJob => sh.m_feeJob.blob ≠ []
  | .copyJob => ∀ job ∈ b.mainJob, sh.m_job = job
  | _ => True

instance (sh : Shared) (b : Batches) (l : CryptonoteOcl) : Decidable (l.FeeApart sh b) := by
  unfold FeeApart
  split <;> infer_instance

end CryptonoteOcl

namespace BatchLoop

def inFee : BatchLoop → Bool
  | cpu l => l.inFee
  | cryptonoteCuda l => l.inFee
  | cryptonoteOcl l => l.inFee
  | ethOcl _ => false

/-- The loop has returned, or is about to. -/
def ends : BatchLoop → Bool
  | cpu l => l.pc = .idle
  | cryptonoteCuda l => l.pc = .returned
  | cryptonoteOcl l => l.ends
  | ethOcl l => l.pc = .returned

def stepWithoutFee (backend : Backend) (sh : Shared) (inp : Input) :
    BatchLoop → Option (Result BatchLoop)
  | cpu l => (l.stepWithoutFee backend.search sh inp).map (.map .cpu)
  | cryptonoteCuda l =>
    (l.stepWithoutFee backend.hashing.slowHash sh inp).map (.map .cryptonoteCuda)
  | cryptonoteOcl l => (l.stepWithoutFee backend.hashing.slowHash sh inp).map (.map .cryptonoteOcl)
  | ethOcl l => (l.step backend.hashing.ethEval sh inp).map (.map .ethOcl)

end BatchLoop

namespace Session

def Event.isLoop : Event → Bool
  | .loop _ _ _ => true
  | _ => false

/-- The turns for the fee leave the pool's turns as they are. -/
def FeeApart (backend : Backend) (s : Session) : Event → Prop
  | .loop nonceCtl nonceFeeCtl inp =>
    match s.loop with
    | .cryptonoteCuda l => l.FeeApart inp s.batches
    | .cryptonoteOcl l => l.FeeApart (s.shared backend nonceCtl nonceFeeCtl) s.batches
    | _ => True
  | _ => True

instance (backend : Backend) (s : Session) (e : Event) : Decidable (s.FeeApart backend e) := by
  unfold FeeApart
  split
  · split <;> infer_instance
  · infer_instance

/-- In a turn for the fee the loop goes on mining, unless a call to the device fails. -/
def FeeGoesOn (backend : Backend) (s : Session) (e : Event) : Prop :=
  match e with
  | .loop _ _ inp =>
    inp.outcome = .ok → s.loop.inFee = true → ∀ t ∈ Session.step backend s e,
      t.loop.ends = false ∧ t.worker.m_state = s.worker.m_state
  | _ => True

instance (backend : Backend) (s : Session) (e : Event) : Decidable (s.FeeGoesOn backend e) := by
  unfold FeeGoesOn
  split <;> infer_instance

end Session

namespace Batches

/-- The two loops have the same variables for the pool's turns and have launched the same ones. -/
structure Alike (b c : Batches) : Prop where
  finishNonce : c.finishNonce false = b.finishNonce false
  startNonce : c.startNonce false = b.startNonce false
  reserved : c.reserved false = b.reserved false
  ofMain : c.ofMain = b.ofMain

namespace Alike
variable {b c : Batches}

theorem refl (b : Batches) : b.Alike b := ⟨rfl, rfl, rfl, rfl⟩

theorem reserve (h : b.Alike c) (hthreads : c.threads = b.threads) (size : Nat) (ctl : NonceCtl) :
    (b.reserve false size ctl).Alike (c.reserve false size ctl) := by
  constructor
  · simp only [Batches.reserve, hthreads, Function.update_self]
  · exact h.startNonce
  · simp only [Batches.reserve, hthreads, Function.update_self]
  · exact h.ofMain

theorem setStart (h : b.Alike c) (hthreads : c.threads = b.threads) (size : Nat) :
    (b.setStart false size).Alike (c.setStart false size) := by
  refine ⟨h.finishNonce, ?_, h.reserved, h.ofMain⟩
  simp only [Batches.setStart, hthreads, h.finishNonce, Function.update_self]

theorem setUnreserved (h : b.Alike c) (hthreads : c.threads = b.threads) (size n : Nat) :
    (b.setUnreserved false size n).Alike (c.setUnreserved false size n) := by
  refine ⟨h.finishNonce, ?_, h.reserved, h.ofMain⟩
  simp only [Batches.setUnreserved, hthreads, Function.update_self]

theorem launch (h : b.Alike c) (hthreads : c.threads = b.threads) (hdevice : c.device = b.device) :
    (b.launch false).Alike (c.launch false) := by
  refine ⟨h.finishNonce, h.startNonce, by simp only [Batches.launch, Function.update_self], ?_⟩
  have hmain := h.ofMain
  simp only [Batches.ofMain] at hmain
  simp only [Batches.launch, Batches.ofMain, List.filter_cons, Bool.not_false, if_true, hmain,
    hthreads,
    hdevice, h.startNonce, h.reserved]

theorem launch_fee (h : b.Alike c) : (b.launch true).Alike c :=
  ⟨h.finishNonce, h.startNonce, h.reserved, h.ofMain⟩

end Alike
end Batches

namespace CpuLoop
variable {l : CpuLoop} {search : Search} {sh : Shared} {inp : Input} {r : Result CpuLoop}

theorem step_inFee (h : l.step search sh inp = some r) (hfee : l.inFee = true) :
    r.m_state = sh.m_state ∧ r.loop.pc ≠ .idle ∧ r.loop.withoutFee = l.withoutFee := by
  cases step_cases h with
  | goes hgoes =>
    cases hgoes with
    | noFeeJob => exact ⟨rfl, CpuPc.noConfusion, rfl⟩
    | @nonce origin nonce last =>
      cases origin with
      | none => cases hfee
      | some origin => exact ⟨rfl, CpuPc.noConfusion, rfl⟩
    | _ => cases hfee
  | copyFeeJob job hid | reserveFee origin job => exact ⟨rfl, CpuPc.noConfusion, rfl⟩
  | leave origin nonce last job | found origin nonce last job hhash
  | missed origin nonce last job hhash =>
    cases origin with
    | none => cases hfee
    | some origin => exact ⟨rfl, CpuPc.noConfusion, rfl⟩
  | _ => cases hfee

/-- Outside a turn for the fee only a draw of the fee makes a difference. -/
theorem step_apart (h : l.step search sh inp = some r) (hfee : l.inFee = false)
    (hdraw : l.drawsFee sh inp = false) : r.loop.inFee = false := by
  cases step_cases h with
  | goes hgoes =>
    cases hgoes with
    | drawFee hlucky => simp [drawsFee, hlucky] at hdraw
    | nonce => exact hfee
    | _ => rfl
  | copyFeeJob job hid | reserveFee origin job => cases hfee
  | found | missed => exact hfee
  | _ => rfl

theorem note_inFee (hfee : l.inFee = true) (b : Batches) :
    (l.note sh b search).ofMain = b.ofMain := by
  obtain ⟨pc, job⟩ := l
  cases pc with
  | reserve => cases hfee
  | _ => rfl

theorem note_ofMain {b c : Batches} (h : c.ofMain = b.ofMain) :
    (l.note sh c search).ofMain = (l.note sh b search).ofMain := by
  obtain ⟨pc, job⟩ := l
  cases pc with
  | reserve =>
    simp only [Batches.ofMain] at h
    simp only [note, Batches.ofMain, List.filter_cons, Bool.not_false, if_true, h]
  | _ => exact h

structure Behind (b c : Batches) (l l' : CpuLoop) : Prop where
  loop : l' = l.withoutFee
  ofMain : c.ofMain = b.ofMain

theorem Behind.step {l' : CpuLoop} {b c : Batches} (hR : Behind b c l l')
    (h : l.step search sh inp = some r) :
    (r.m_state = sh.m_state ∧ Behind (l.note sh b search) c r.loop l') ∨
    ∃ r', l'.stepWithoutFee search sh inp = some r' ∧ r'.m_state = r.m_state ∧
      Behind (l.note sh b search) (l'.note sh c search) r.loop r'.loop := by
  obtain ⟨rfl, hmain⟩ := hR
  cases hfee : l.inFee with
  | true =>
    obtain ⟨hstate, -, hloop⟩ := step_inFee h hfee
    exact Or.inl ⟨hstate, hloop.symm, hmain.trans (note_inFee hfee b).symm⟩
  | false =>
    have hself : l.withoutFee = l := by simp [withoutFee, hfee]
    rw [hself]
    right
    cases hdraw : l.drawsFee sh inp with
    | true =>
      obtain ⟨pc, job⟩ := l
      simp only [drawsFee, Bool.and_eq_true, decide_eq_true_eq] at hdraw
      obtain ⟨⟨rfl, hm_fee⟩, hlucky⟩ := hdraw
      simp only [CpuLoop.step, hm_fee, hlucky, Bool.and_self, if_true] at h
      cases h
      simp only [stepWithoutFee, drawsFee, hm_fee, hlucky]
      exact ⟨_, rfl, rfl, rfl, hmain⟩
    | false =>
      refine ⟨r, by rw [stepWithoutFee, if_neg (by simp [hdraw]), h], rfl, ?_, note_ofMain hmain⟩
      rw [withoutFee, if_neg (by simp [step_apart h hfee hdraw])]

end CpuLoop

namespace CryptonoteCuda

/-- `OnDevice` of the loop's job: while the loop mines, and once it has copied that job. In a turn
for the fee the device may have the fee job. -/
def HasJob (m_state : MinerThreadState) (OnDevice : MiningJob → Prop) (l : CryptonoteCuda) : Prop :=
  match l.pc with
  | .switch => m_state = .Mining → OnDevice (l.job.setNonce 0)
  | .copyJob | .firstWait | .firstStopped | .firstReserve | .firstDone | .copyDevice =>
    m_state ≠ .Mining
  | .returned | .feeSearch _ => True
  | _ => OnDevice (l.job.setNonce 0)

/-- What holds between the loop and the one without draws for the fee. Where a copy in a turn for
the fee failed, nobody knows what the device has. -/
structure Behind (m_state : MinerThreadState) (b c : Batches) (l l' : CryptonoteCuda) : Prop where
  loop : l' = l.withoutFee
  alike : b.Alike c
  threads : c.threads = b.threads
  hasJob : l.HasJob m_state fun job => ∀ j ∈ b.device, j = job
  hasJob' : l'.HasJob m_state fun job => c.device = some job

variable {l l' : CryptonoteCuda} {slowHash : QByteArray → QByteArray} {sh : Shared} {inp : Input}
  {r : Result CryptonoteCuda} {b c : Batches} {OnDevice : MiningJob → Prop}

theorem HasJob.mono {m m' : MinerThreadState} (h : l.HasJob m OnDevice)
    (hm : m' = .Mining → m = .Mining) : l.HasJob m' OnDevice := by
  obtain ⟨pc, job⟩ := l
  cases pc with
  | switch => exact fun hmining => h (hm hmining)
  | copyJob | firstWait | firstStopped | firstReserve | firstDone | copyDevice =>
    exact fun hmining => h (hm hmining)
  | _ => exact h

theorem step_inFee (h : l.step slowHash sh inp = some r) (hfee : l.inFee = true) :
    r.m_state = sh.m_state ∧ r.loop.pc ≠ .returned ∧ r.loop.withoutFee = l.withoutFee := by
  cases step_cases h with
  | goes hgoes =>
    cases hgoes with
    | noFeeJob | feeJob | feeLoop | feeLeft | feeValid | feeWait | feeEnds | feeDone | feeCopied
    | feeCopyFails | feeMissed => exact ⟨rfl, CryptonoteCudaPc.noConfusion, rfl⟩
    | _ => cases hfee
  | feeReserve | feeFound => exact ⟨rfl, CryptonoteCudaPc.noConfusion, rfl⟩
  | _ => cases hfee

theorem device_uploadOrReinit {job j : MiningJob} (h : j ∈ (b.uploadOrReinit inp job).device) :
    inp.outcome = .ok ∧ j = job.setNonce 0 := by
  rw [Batches.uploadOrReinit] at h
  split at h
  case isTrue => cases h
  case isFalse =>
    obtain ⟨hok, h⟩ := Option.ite_none_right_eq_some.mp h
    exact ⟨hok, (Option.some.inj h).symm⟩

/-- A turn for the fee leaves the pool's job on the device unless a copy fails. -/
theorem HasJob.step_inFee (h : l.step slowHash sh inp = some r) (hfee : l.inFee = true)
    (hjob : l.HasJob sh.m_state fun job => ∀ j ∈ b.device, j = job) :
    r.loop.HasJob r.m_state fun job => ∀ j ∈ (l.note sh inp b).device, j = job := by
  cases step_cases h with
  | goes hgoes =>
    cases hgoes with
    | noFeeJob => exact fun _ => hjob
    | feeJob | feeLoop | feeLeft | feeValid | feeWait => exact hjob
    | feeEnds hstops =>
      intro _
      simp only [note, if_pos hstops]
      exact hjob
    | feeDone hstops =>
      simp only [note, hstops, Bool.false_eq_true, if_false]
      exact hjob
    | feeCopied => trivial
    | feeCopyFails hfail => exact fun _ j hj => absurd (device_uploadOrReinit hj).1 hfail
    | feeMissed => exact fun _ j hj => (device_uploadOrReinit hj).2
    | _ => cases hfee
  | feeReserve => exact hjob
  | feeFound => exact fun _ j hj => (device_uploadOrReinit hj).2
  | _ => cases hfee

theorem note_inFee (hfee : l.inFee = true) (hapart : l.FeeApart inp b) (h : b.Alike c) :
    (l.note sh inp b).Alike c ∧ (l.note sh inp b).threads = b.threads := by
  obtain ⟨pc, job⟩ := l
  cases pc with
  | copyFeeJob | feeWait feeJob => exact ⟨h, rfl⟩
  | feeLoop feeJob | feeReserve feeJob =>
    exact ⟨⟨h.finishNonce, h.startNonce, h.reserved, h.ofMain⟩, rfl⟩
  | feeDone feeJob =>
    simp only [note]
    split
    · exact ⟨h, rfl⟩
    · exact ⟨⟨h.finishNonce, h.startNonce, h.reserved, h.ofMain⟩, rfl⟩
  | feeDevice feeJob =>
    simp only [note, Batches.uploadOrReinit]
    split
    case isTrue hfail =>
      exact ⟨⟨h.finishNonce, h.startNonce, h.reserved, h.ofMain⟩, hapart hfail⟩
    case isFalse => exact ⟨⟨h.finishNonce, h.startNonce, h.reserved, h.ofMain⟩, rfl⟩
  | feeSearch feeJob =>
    have hlaunch := h.launch_fee
    simp only [note, Batches.uploadOrReinit]
    split
    case isTrue hfail =>
      exact ⟨⟨hlaunch.finishNonce, hlaunch.startNonce, hlaunch.reserved, hlaunch.ofMain⟩,
        hapart hfail⟩
    case isFalse =>
      exact ⟨⟨hlaunch.finishNonce, hlaunch.startNonce, hlaunch.reserved, hlaunch.ofMain⟩, rfl⟩
  | _ => cases hfee

theorem step_apart (h : l.step slowHash sh inp = some r) (hfee : l.inFee = false)
    (hdraw : l.drawsFee sh inp = false) : r.loop.inFee = false := by
  cases step_cases h with
  | goes hgoes =>
    cases hgoes with
    | drawFee hlucky => simp [drawsFee, hlucky] at hdraw
    | feeJob | feeLoop | feeLeft | feeValid | feeWait | feeDone | feeCopied => cases hfee
    | _ => rfl
  | feeReserve => cases hfee
  | _ => rfl

/-- The copy of the pool's job puts it on the device, where the loop leaves it. -/
theorem HasJob.step_apart {P : Option MiningJob → MiningJob → Prop} (hP : ∀ job, P (some job) job)
    (h : l.step slowHash sh inp = some r) (hfee : l.inFee = false)
    (hdraw : l.drawsFee sh inp = false) (hjob : l.HasJob sh.m_state (P b.device)) :
    r.loop.HasJob r.m_state (P (l.note sh inp b).device) := by
  have hmining : sh.m_state.stops = true → sh.m_state ≠ .Mining := by
    intro hstops hm
    rw [hm] at hstops
    cases hstops
  cases step_cases h with
  | goes hgoes =>
    cases hgoes with
    | update hm =>
      show sh.m_state ≠ .Mining
      rw [hm]
      exact MinerThreadState.noConfusion
    | mine hm => exact hjob hm
    | stop | copyFails => trivial
    | firstValid | firstWait | firstStopped | firstAgain | first => exact hjob
    | firstEnds | copyAgain => exact fun hm => absurd hm hjob
    | copied hok =>
      simp only [note, Batches.upload, if_pos hok]
      exact hP _
    | copiedEnds => exact fun _ => hjob
    | copiedGoes | draw | missed | nextLoop | nextLeft | nextValid | nextWait => exact hjob
    | next =>
      simp only [note]
      split <;> exact fun _ => hjob
    | drawFee hlucky => simp [drawsFee, hlucky] at hdraw
    | _ => cases hfee
  | noJob job hid => exact fun hm => absurd hm hjob
  | setMining job => exact fun _ => hjob
  | found job hcheck =>
    have hsame : ∀ nonce, (job.setNonce nonce).setNonce 0 = job.setNonce 0 := fun nonce =>
      congrArg (fun blob => { job with blob := blob }) (setNonce_setNonce job.blob nonce 0)
    show P b.device ((job.setNonce _).setNonce 0)
    rw [hsame]
    exact hjob
  | copyJob | firstReserve | nextReserve => exact hjob
  | _ => cases hfee

theorem note_apart (hfee : l.inFee = false) (h : b.Alike c) (hthreads : c.threads = b.threads)
    (hdevice : l.pc = .search → c.device = b.device) :
    (l.note sh inp b).Alike (l.note sh inp c) ∧
      (l.note sh inp c).threads = (l.note sh inp b).threads := by
  obtain ⟨pc, job⟩ := l
  cases pc with
  | copyFeeJob | feeLoop feeJob | feeWait feeJob | feeReserve feeJob | feeDone feeJob
  | feeDevice feeJob | feeSearch feeJob => cases hfee
  | firstReserve | nextReserve => exact ⟨h.reserve hthreads _ _, hthreads⟩
  | firstDone | nextDone =>
    simp only [note]
    split
    · exact ⟨h, hthreads⟩
    · exact ⟨h.setStart hthreads _, hthreads⟩
  | copyJob | firstStopped | copyDevice =>
    exact ⟨⟨h.finishNonce, h.startNonce, h.reserved, h.ofMain⟩, hthreads⟩
  | search => exact ⟨h.launch hthreads (hdevice rfl), hthreads⟩
  | _ => exact ⟨h, hthreads⟩

theorem Behind.step (hR : Behind sh.m_state b c l l') (hapart : l.FeeApart inp b)
    (h : l.step slowHash sh inp = some r) :
    (r.m_state = sh.m_state ∧ Behind r.m_state (l.note sh inp b) c r.loop l') ∨
    ∃ r', l'.stepWithoutFee slowHash sh inp = some r' ∧ r'.m_state = r.m_state ∧
      Behind r.m_state (l.note sh inp b) (l'.note sh inp c) r.loop r'.loop := by
  obtain ⟨rfl, halike, hthreads, hjob, hjob'⟩ := hR
  cases hfee : l.inFee with
  | true =>
    obtain ⟨hstate, -, hloop⟩ := CryptonoteCuda.step_inFee h hfee
    obtain ⟨halike', hthreads'⟩ := note_inFee hfee hapart halike
    exact Or.inl ⟨hstate, hloop.symm, halike', hthreads.trans hthreads'.symm,
      hjob.step_inFee h hfee, hstate ▸ hjob'⟩
  | false =>
    have hself : l.withoutFee = l := by simp [withoutFee, hfee]
    rw [hself] at hjob' ⊢
    right
    cases hdraw : l.drawsFee sh inp with
    | true =>
      obtain ⟨pc, job⟩ := l
      simp only [drawsFee, Bool.and_eq_true, decide_eq_true_eq] at hdraw
      obtain ⟨⟨rfl, hm_fee⟩, hlucky⟩ := hdraw
      simp only [CryptonoteCuda.step, hm_fee, hlucky, Bool.and_self, if_true] at h
      cases h
      simp only [stepWithoutFee, drawsFee, hm_fee, hlucky]
      exact ⟨_, rfl, rfl, rfl, halike, hthreads, hjob, fun _ => hjob'⟩
    | false =>
      have hdevice : l.pc = .search → c.device = b.device := by
        intro hpc
        obtain ⟨pc, job⟩ := l
        obtain rfl : pc = .search := hpc
        obtain ⟨j, hj⟩ := Option.isSome_iff_exists.mp hapart
        rw [hj, hjob j hj]
        exact hjob'
      obtain ⟨halike', hthreads'⟩ := note_apart hfee halike hthreads hdevice
      refine ⟨r, by rw [stepWithoutFee, if_neg (by simp [hdraw]), h], rfl, ?_, halike', hthreads',
        hjob.step_apart (P := fun device job => ∀ j ∈ device, j = job) (by simp) h hfee hdraw,
        hjob'.step_apart (P := fun device job => device = some job) (fun _ => rfl) h hfee hdraw⟩
      rw [withoutFee, if_neg (by simp [CryptonoteCuda.step_apart h hfee hdraw])]

end CryptonoteCuda

namespace CryptonoteOcl

/-- A loop that has not copied the fee job has cached what the other one has. -/
def Cached (l l' : CryptonoteOcl) : Prop :=
  l.lastJobKind ≠ .KindFee →
    l'.lastJobKind = l.lastJobKind ∧ (l.lastJobKind = .KindNormal → l'.job = l.job)

/-- Where the loop without draws for the fee stands. It need not copy its job again after a turn
for the fee. -/
def Beside (b c : Batches) (l l' : CryptonoteOcl) : Prop :=
  match l.pc with
  | .init | .switch | .checkEmpty | .checkUpdate | .setMining | .draw =>
    l'.pc = l.pc ∧ l.Cached l'
  | .copyFeeJob => l'.pc = .switch
  | .copyJob => l'.pc = .copyJob ∨ l'.pc = .setKernelArgs ∧ l'.lastJobKind = .KindNormal
  | .setKernelArgs | .checkStop | .report => l.isFee = true ∧ l'.pc = .switch ∨ l' = l
  | .findShares => l.isFee = true ∧ l'.pc = .switch ∨ l' = l ∧ c.device = b.device
  | .findLoop | .findWait | .findReserve | .kernels =>
    l.isFee = true ∧ l'.pc = .switch ∨ l' = l ∧ c.device = b.device ∧ c.threads = b.threads
  | .setExit | .returned => True

structure Behind (b c : Batches) (l l' : CryptonoteOcl) : Prop where
  kind : l'.lastJobKind ≠ .KindFee
  mainJob : l'.lastJobKind = .KindNormal → b.mainJob = some l'.job
  alike : b.Alike c
  beside : l.Beside b c l'

variable {l l' : CryptonoteOcl} {slowHash : QByteArray → QByteArray} {sh : Shared} {inp : Input}
  {r : Result CryptonoteOcl} {b c : Batches}

/-- A fee job once copied has a blob. -/
def FeeBlob (l : CryptonoteOcl) : Prop := l.lastJobKind = .KindFee → l.job.blob ≠ []

theorem step_feeBlob (h : l.step slowHash sh inp = some r) (hapart : l.FeeApart sh b)
    (hl : l.FeeBlob) : r.loop.FeeBlob := by
  cases step_cases h with
  | forget job kind hid | copyJob job kind => exact JobKind.noConfusion
  | copyFeeJob job kind => exact fun _ => hapart
  | _ => exact hl

theorem step_inFee (h : l.step slowHash sh inp = some r) (hfee : l.inFee = true) :
    r.m_state = sh.m_state ∧ (l'.pc = .switch → r.loop.Beside (l.note sh inp b) c l') := by
  cases step_cases h with
  | goes hgoes =>
    cases hgoes with
    | setKernelArgs | findShares | findLoop | findValid | findWait | kernels | report | missed =>
      exact ⟨rfl, fun hswitch => Or.inl ⟨hfee, hswitch⟩⟩
    | noBlob | findFails | kernelsFail => exact ⟨rfl, fun _ => trivial⟩
    | stops | reported =>
      exact ⟨rfl, fun hswitch => ⟨hswitch, fun hkind => absurd (of_decide_eq_true hfee) hkind⟩⟩
    | _ => cases hfee
  | copyFeeJob job kind => exact ⟨rfl, fun hswitch => Or.inl ⟨rfl, hswitch⟩⟩
  | unreserved | findReserve | found => exact ⟨rfl, fun hswitch => Or.inl ⟨hfee, hswitch⟩⟩
  | _ => cases hfee

theorem step_goesOn (h : l.step slowHash sh inp = some r) (hfee : l.inFee = true)
    (hblob : l.FeeBlob) (hok : inp.outcome = .ok) : r.loop.ends = false := by
  cases step_cases h with
  | goes hgoes =>
    cases hgoes with
    | noBlob hset => exact absurd ⟨hblob (of_decide_eq_true hfee), hok⟩ hset
    | findFails hfail | kernelsFail hfail => exact absurd hok hfail
    | setKernelArgs | findShares | findLoop | findValid | findWait | kernels | stops | report
    | reported | missed => rfl
    | _ => cases hfee
  | copyFeeJob | unreserved | findReserve | found => rfl
  | _ => cases hfee

theorem note_inFee (hfee : l.inFee = true) (h : b.Alike c) :
    (l.note sh inp b).Alike c ∧ (l.note sh inp b).mainJob = b.mainJob := by
  obtain ⟨pc, job, lastJobKind⟩ := l
  cases pc with
  | copyFeeJob => exact ⟨h, rfl⟩
  | setKernelArgs | findLoop =>
    cases of_decide_eq_true hfee
    simp only [note]
    split
    · exact ⟨h, rfl⟩
    · exact ⟨⟨h.finishNonce, h.startNonce, h.reserved, h.ofMain⟩, rfl⟩
  | findShares | findReserve =>
    cases of_decide_eq_true hfee
    exact ⟨⟨h.finishNonce, h.startNonce, h.reserved, h.ofMain⟩, rfl⟩
  | kernels =>
    cases of_decide_eq_true hfee
    exact ⟨h.launch_fee, rfl⟩
  | findWait | checkStop | report => exact ⟨h, rfl⟩
  | _ => cases hfee

theorem Behind.step_inFee (hR : l.Behind b c l') (hfee : l.inFee = true)
    (h : l.step slowHash sh inp = some r) :
    r.m_state = sh.m_state ∧ r.loop.Behind (l.note sh inp b) c l' := by
  obtain ⟨hkind, hmain, halike, hbeside⟩ := hR
  obtain ⟨hstate, hbeside'⟩ := CryptonoteOcl.step_inFee h hfee
  obtain ⟨halike', hmain'⟩ := note_inFee hfee halike
  refine ⟨hstate, hkind, fun hk => hmain'.trans (hmain hk), halike', hbeside' ?_⟩
  obtain ⟨pc, job, kind⟩ := l
  cases pc with
  | copyFeeJob => exact hbeside
  | setKernelArgs | checkStop | report =>
    refine (hbeside.resolve_right fun heq => hkind ?_).2
    rw [heq]
    exact of_decide_eq_true hfee
  | findShares | findLoop | findWait | findReserve | kernels =>
    refine (hbeside.resolve_right fun heq => hkind ?_).2
    rw [heq.1]
    exact of_decide_eq_true hfee
  | _ => cases hfee

theorem Behind.step_ends (hR : l.Behind b c l') (hends : l.ends = true)
    (h : l.step slowHash sh inp = some r) :
    r.loop.ends = true ∧ r.loop.Behind (l.note sh inp b) c l' := by
  obtain ⟨hkind, hmain, halike, -⟩ := hR
  obtain ⟨pc, job, kind⟩ := l
  cases pc with
  | returned => cases h
  | setExit =>
    cases h
    exact ⟨rfl, hkind, hmain, halike, trivial⟩
  | _ => cases hends

theorem stepWithoutFee_of_ne {pc : CryptonoteOclPc} (h : pc ≠ .draw) (job : MiningJob)
    (kind : JobKind) : stepWithoutFee ⟨pc, job, kind⟩ slowHash sh inp =
      step ⟨pc, job, kind⟩ slowHash sh inp := by
  simp [stepWithoutFee, drawsFee, h]

/-- Where the loop stands while it searches one batch. -/
def turnPcs : List CryptonoteOclPc :=
  [.setKernelArgs, .findShares, .findLoop, .findWait, .findReserve, .kernels, .checkStop, .report]

theorem Beside.eq (h : l.Beside b c l') (hfee : l.isFee = false) (hturn : l.pc ∈ turnPcs) :
    l' = l := by
  obtain ⟨pc, job, kind⟩ := l
  have hdiff : ∀ {P : Prop}, isFee ⟨pc, job, kind⟩ = true ∧ P → False := fun h => by
    rw [hfee] at h
    cases h.1
  cases pc with
  | setKernelArgs | checkStop | report => exact h.resolve_left hdiff
  | findShares | findLoop | findWait | findReserve | kernels => exact (h.resolve_left hdiff).1
  | _ => simp [turnPcs] at hturn

/-- In a turn for the pool's job the loops do the same. -/
theorem step_turn (h : l.step slowHash sh inp = some r) (hfee : l.isFee = false)
    (halike : b.Alike c) (hbeside : l.Beside b c l) (hturn : l.pc ∈ turnPcs) :
    (l.note sh inp b).Alike (l.note sh inp c) ∧ (l.note sh inp b).mainJob = b.mainJob ∧
      r.loop.lastJobKind = l.lastJobKind ∧ r.loop.job = l.job ∧
      r.loop.Beside (l.note sh inp b) (l.note sh inp c) r.loop := by
  have hself : ∀ k : CryptonoteOcl, k.Cached k := fun k _ => ⟨rfl, fun _ => rfl⟩
  have hdiff : ∀ {P : Prop}, l.isFee = true ∧ P → False := fun h => by
    rw [hfee] at h
    cases h.1
  cases step_cases h with
  | goes hgoes =>
    cases hgoes with
    | setKernelArgs hblob =>
      simp only [note, if_neg hblob]
      exact ⟨⟨halike.finishNonce, halike.startNonce, halike.reserved, halike.ofMain⟩, rfl, rfl, rfl,
        Or.inr ⟨rfl, rfl⟩⟩
    | noBlob =>
      simp only [note]
      split
      · exact ⟨halike, rfl, rfl, rfl, trivial⟩
      · exact ⟨⟨halike.finishNonce, halike.startNonce, halike.reserved, halike.ofMain⟩, rfl, rfl,
          rfl, trivial⟩
    | findShares =>
      obtain ⟨-, hdevice⟩ := hbeside.resolve_left hdiff
      exact ⟨⟨halike.finishNonce, halike.startNonce, halike.reserved, halike.ofMain⟩, rfl, rfl, rfl,
        Or.inr ⟨rfl, hdevice, rfl⟩⟩
    | findFails =>
      exact ⟨⟨halike.finishNonce, halike.startNonce, halike.reserved, halike.ofMain⟩, rfl, rfl, rfl,
        trivial⟩
    | findLoop hm =>
      obtain ⟨-, hdevice, hthreads⟩ := hbeside.resolve_left hdiff
      refine ⟨?_, ?_, rfl, rfl, Or.inr ⟨rfl, ?_⟩⟩ <;> simp only [note, if_pos hm]
      · exact halike
      · exact ⟨hdevice, hthreads⟩
    | findValid | findWait =>
      have hturn := hbeside.resolve_left hdiff
      exact ⟨halike, rfl, rfl, rfl, Or.inr ⟨rfl, hturn.2⟩⟩
    | kernels | kernelsFail =>
      obtain ⟨-, hdevice, hthreads⟩ := hbeside.resolve_left hdiff
      simp only [note, hfee]
      have hlaunch := halike.launch hthreads hdevice
      first
        | exact ⟨hlaunch, rfl, rfl, rfl, Or.inr rfl⟩
        | exact ⟨hlaunch, rfl, rfl, rfl, trivial⟩
    | stops | reported => exact ⟨halike, rfl, rfl, rfl, rfl, hself _⟩
    | report | missed => exact ⟨halike, rfl, rfl, rfl, Or.inr rfl⟩
    | _ => simp [turnPcs] at hturn
  | unreserved job kind finishNonce hm =>
    obtain ⟨-, hdevice, hthreads⟩ := hbeside.resolve_left hdiff
    simp only [note, if_neg hm, hfee]
    exact ⟨halike.setUnreserved hthreads _ _, rfl, rfl, rfl, Or.inr ⟨rfl, hdevice, hthreads⟩⟩
  | findReserve job kind =>
    obtain ⟨-, hdevice, hthreads⟩ := hbeside.resolve_left hdiff
    simp only [note, hfee]
    have hreserve := halike.reserve hthreads nonceModulus (sh.nonceCtl false)
    exact ⟨hreserve.setStart hthreads nonceModulus, rfl, rfl, rfl, Or.inr ⟨rfl, hdevice, hthreads⟩⟩
  | found job kind hcheck => exact ⟨halike, rfl, rfl, rfl, Or.inr rfl⟩
  | _ => simp [turnPcs] at hturn

theorem Behind.step_draw {job job' : MiningJob} {kind kind' : JobKind}
    (hR : Behind b c ⟨.draw, job, kind⟩ ⟨.draw, job', kind'⟩)
    (h : CryptonoteOcl.step ⟨.draw, job, kind⟩ slowHash sh inp = some r) :
    ∃ r', stepWithoutFee ⟨.draw, job', kind'⟩ slowHash sh inp = some r' ∧
      r'.m_state = r.m_state ∧ r.loop.Behind b c r'.loop := by
  obtain ⟨hkind, hmain, halike, -, hcached⟩ := hR
  simp only [CryptonoteOcl.step] at h
  rw [stepWithoutFee]
  split at h
  case isTrue hfail =>
    cases h
    rw [if_neg (by simp [drawsFee, hfail]), CryptonoteOcl.step, if_pos hfail]
    exact ⟨_, rfl, rfl, hkind, hmain, halike, trivial⟩
  case isFalse hok =>
    have hok : inp.outcome = .ok := not_not.mp hok
    split at h
    case isTrue hlucky =>
      have hdraw : drawsFee ⟨.draw, job', kind'⟩ sh inp = true := by
        simpa [drawsFee, hok] using hlucky
      rw [if_pos hdraw]
      split at h
      case isTrue hfee =>
        cases h
        exact ⟨_, rfl, rfl, hkind, hmain, halike, Or.inl ⟨decide_eq_true hfee, rfl⟩⟩
      case isFalse =>
        cases h
        exact ⟨_, rfl, rfl, hkind, hmain, halike, rfl⟩
    case isFalse hlucky =>
      have hdraw : ¬ drawsFee ⟨.draw, job', kind'⟩ sh inp = true := by
        simpa [drawsFee, hok] using hlucky
      simp only [if_neg hdraw, CryptonoteOcl.step, if_neg (not_not.mpr hok), if_neg hlucky]
      split at h
      case isTrue hnormal =>
        cases h
        obtain rfl : kind = .KindNormal := hnormal
        obtain ⟨hk, hj⟩ := hcached (by simp)
        obtain rfl : kind' = .KindNormal := hk
        obtain rfl : job' = job := hj rfl
        exact ⟨_, rfl, rfl, hkind, hmain, halike, Or.inr rfl⟩
      case isFalse =>
        cases h
        split
        case isTrue hnormal =>
          exact ⟨_, rfl, rfl, hkind, hmain, halike, Or.inr ⟨rfl, hnormal⟩⟩
        case isFalse => exact ⟨_, rfl, rfl, hkind, hmain, halike, Or.inl rfl⟩

/-- Outside a turn for the fee the other loop takes the same step, but for a copy of the job that it
has already. -/
theorem Behind.step (hR : l.Behind b c l') (hapart : l.FeeApart sh b) (hfee : l.inFee = false)
    (hends : l.ends = false) (h : l.step slowHash sh inp = some r) :
    (r.m_state = sh.m_state ∧ r.loop.Behind (l.note sh inp b) c l') ∨
    ∃ r', l'.stepWithoutFee slowHash sh inp = some r' ∧ r'.m_state = r.m_state ∧
      r.loop.Behind (l.note sh inp b) (l'.note sh inp c) r'.loop := by
  obtain ⟨hkind, hmain, halike, hbeside⟩ := hR
  by_cases hturn : l.pc ∈ turnPcs
  · have hisFee : l.isFee = false := by
      obtain ⟨pc, job, kind⟩ := l
      cases pc <;> first | exact hfee | simp [turnPcs] at hturn
    obtain rfl := hbeside.eq hisFee hturn
    obtain ⟨halike', hmain', hkind', hjob', hbeside'⟩ := step_turn h hisFee halike hbeside hturn
    refine Or.inr ⟨r, ?_, rfl, hkind' ▸ hkind, fun hk => ?_, halike', hbeside'⟩
    · rw [stepWithoutFee, if_neg, h]
      intro hdraw
      simp only [drawsFee, Bool.and_eq_true, decide_eq_true_eq] at hdraw
      rw [hdraw.1.1.1] at hturn
      simp [turnPcs] at hturn
    · rw [hmain', hjob', hmain (hkind' ▸ hk)]
  obtain ⟨pc, job, kind⟩ := l
  obtain ⟨pc', job', kind'⟩ := l'
  cases pc with
  | returned | setExit => cases hends
  | copyFeeJob => cases hfee
  | init =>
    obtain ⟨hpc, hcached⟩ := hbeside
    obtain rfl : pc' = .init := hpc
    right
    rw [stepWithoutFee_of_ne (by decide)]
    simp only [CryptonoteOcl.step] at h ⊢
    split at h
    case isTrue hset =>
      cases h
      rw [if_pos hset]
      exact ⟨_, rfl, rfl, hkind, hmain, halike, rfl, hcached⟩
    case isFalse hset =>
      cases h
      rw [if_neg hset]
      exact ⟨_, rfl, rfl, hkind, hmain, halike, trivial⟩
  | switch =>
    obtain ⟨hpc, hcached⟩ := hbeside
    obtain rfl : pc' = .switch := hpc
    right
    rw [stepWithoutFee_of_ne (by decide)]
    simp only [CryptonoteOcl.step] at h ⊢
    cases hm : sh.m_state <;> rw [hm] at h <;> cases h
    all_goals first
      | exact ⟨_, rfl, rfl, hkind, hmain, halike, rfl, hcached⟩
      | exact ⟨_, rfl, rfl, hkind, hmain, halike, trivial⟩
  | checkEmpty =>
    obtain ⟨hpc, hcached⟩ := hbeside
    obtain rfl : pc' = .checkEmpty := hpc
    right
    rw [stepWithoutFee_of_ne (by decide)]
    simp only [CryptonoteOcl.step, note] at h ⊢
    split at h
    case isTrue hempty =>
      cases h
      rw [if_pos hempty, if_pos hempty, if_pos hempty]
      exact ⟨_, rfl, rfl, hkind, hmain, halike, rfl, hcached⟩
    case isFalse hempty =>
      cases h
      rw [if_neg hempty, if_neg hempty, if_neg hempty]
      refine ⟨_, rfl, rfl, fun hk => (by cases hk), fun hk => (by cases hk),
        ⟨halike.finishNonce, halike.startNonce, halike.reserved, halike.ofMain⟩, rfl, ?_⟩
      exact fun _ => ⟨rfl, fun hk => by cases hk⟩
  | checkUpdate =>
    obtain ⟨hpc, hcached⟩ := hbeside
    obtain rfl : pc' = .checkUpdate := hpc
    right
    rw [stepWithoutFee_of_ne (by decide)]
    simp only [CryptonoteOcl.step] at h ⊢
    split at h
    case isTrue hm =>
      cases h
      rw [if_pos hm]
      exact ⟨_, rfl, rfl, hkind, hmain, halike, rfl, hcached⟩
    case isFalse hm =>
      cases h
      rw [if_neg hm]
      exact ⟨_, rfl, rfl, hkind, hmain, halike, rfl, hcached⟩
  | setMining =>
    obtain ⟨hpc, hcached⟩ := hbeside
    obtain rfl : pc' = .setMining := hpc
    cases h
    exact Or.inr ⟨_, rfl, rfl, hkind, hmain, halike, rfl, hcached⟩
  | draw =>
    obtain ⟨hpc, hcached⟩ := hbeside
    obtain rfl : pc' = .draw := hpc
    have hR : Behind b c ⟨.draw, job, kind⟩ ⟨.draw, job', kind'⟩ :=
      ⟨hkind, hmain, halike, rfl, hcached⟩
    exact Or.inr (hR.step_draw h)
  | copyJob =>
    cases h
    rcases hbeside with rfl | ⟨rfl, rfl⟩
    · exact Or.inr ⟨_, rfl, rfl, fun hk => (by cases hk), fun _ => rfl,
        ⟨halike.finishNonce, halike.startNonce, halike.reserved, halike.ofMain⟩, Or.inr rfl⟩
    · have hjob : sh.m_job = job' := hapart job' (hmain rfl)
      refine Or.inl ⟨rfl, fun hk => (by cases hk), fun _ => congrArg some hjob,
        ⟨halike.finishNonce, halike.startNonce, halike.reserved, halike.ofMain⟩, Or.inr ?_⟩
      simp [Result.keep, hjob]
  | _ => simp [turnPcs] at hturn

end CryptonoteOcl

namespace Session

/-- The session and the one whose loop does not draw the fee. -/
inductive Behind : Session → Session → Prop where
  | cpu {worker : Worker} {l l' : CpuLoop} {b c : Batches} (h : l.Behind b c l') :
    Behind ⟨worker, .cpu l, b⟩ ⟨worker, .cpu l', c⟩
  | cryptonoteCuda {worker : Worker} {l l' : CryptonoteCuda} {b c : Batches}
    (h : l.Behind worker.m_state b c l') :
    Behind ⟨worker, .cryptonoteCuda l, b⟩ ⟨worker, .cryptonoteCuda l', c⟩
  | cryptonoteOcl {worker worker' : Worker} {l l' : CryptonoteOcl} {b c : Batches}
    (hworker : l.ends = false → worker' = worker) (h : l.Behind b c l') :
    Behind ⟨worker, .cryptonoteOcl l, b⟩ ⟨worker', .cryptonoteOcl l', c⟩
  | ethOcl (worker : Worker) (l : EthOcl) (b : Batches) :
    Behind ⟨worker, .ethOcl l, b⟩ ⟨worker, .ethOcl l, b⟩

variable {backend : Backend} {s s' t : Session} {e : Event} {es : List Event}

theorem Behind.ofMain (h : Behind s s') : s'.batches.ofMain = s.batches.ofMain := by
  cases h with
  | cpu h => exact h.ofMain
  | cryptonoteCuda h => exact h.alike.ofMain
  | cryptonoteOcl hworker h => exact h.alike.ofMain
  | ethOcl worker l b => rfl

theorem Initial.behind (h0 : s.Initial) : Behind s s := by
  obtain ⟨worker, loop, batches⟩ := s
  have hstate := h0.state
  cases loop with
  | cpu l =>
    obtain ⟨pc, job⟩ := l
    obtain rfl : pc = .entry := h0.loop
    exact .cpu ⟨rfl, rfl⟩
  | cryptonoteCuda l =>
    obtain rfl : l = .new := h0.loop
    exact .cryptonoteCuda ⟨rfl, .refl batches, rfl, fun hm => absurd hm hstate,
      fun hm => absurd hm hstate⟩
  | cryptonoteOcl l =>
    obtain rfl : l = .new := h0.loop
    refine .cryptonoteOcl (fun _ => rfl) ⟨by decide, fun hk => (by cases hk), .refl batches, rfl, ?_⟩
    exact fun _ => ⟨rfl, fun _ => rfl⟩
  | ethOcl l => exact .ethOcl worker l batches

/-- What the main thread writes to the one worker it writes to the other. -/
theorem Behind.write (h : Behind s s') (f : Worker → Worker)
    (hf : (f s.worker).m_state = .Mining → s.worker.m_state = .Mining) :
    Behind { s with worker := f s.worker } { s' with worker := f s'.worker } := by
  cases h with
  | cpu h => exact .cpu h
  | cryptonoteCuda h =>
    exact .cryptonoteCuda ⟨h.loop, h.alike, h.threads, h.hasJob.mono hf, h.hasJob'.mono hf⟩
  | cryptonoteOcl hworker h => exact .cryptonoteOcl (fun hends => congrArg f (hworker hends)) h
  | ethOcl worker l b => exact .ethOcl (f worker) l b

theorem Behind.step_store (hR : Behind s s') (he : e.isLoop = false)
    (h : Session.step backend s e = some t) :
    ∃ t', stepWith backend (BatchLoop.stepWithoutFee backend) s' e = some t' ∧ Behind t t' := by
  cases e with
  | store m_state =>
    obtain ⟨hm, h⟩ := Option.ite_none_left_eq_some.mp h
    cases h
    exact ⟨s'.setState m_state, if_neg hm,
      hR.write ({ · with m_state := m_state }) fun hmining => absurd hmining hm⟩
  | storeJob job =>
    cases h
    exact ⟨_, rfl, hR.write ({ · with m_job := job }) id⟩
  | storeFeeJob job =>
    cases h
    exact ⟨_, rfl, hR.write ({ · with m_feeJob := job }) id⟩
  | loop c d inp => cases he

theorem stepWith_eq {loopStep : Shared → Input → BatchLoop → Option (Result BatchLoop)}
    {nonceCtl nonceFeeCtl : NonceCtl} {inp : Input} {r : Result BatchLoop}
    (h : loopStep (s.shared backend nonceCtl nonceFeeCtl) inp s.loop = some r) :
    stepWith backend loopStep s (.loop nonceCtl nonceFeeCtl inp) =
      some ⟨{ s.worker with m_state := r.m_state }, r.loop,
        s.loop.note backend (s.shared backend nonceCtl nonceFeeCtl) inp s.batches⟩ := by
  simp only [stepWith, runLoop, h, Option.map_some, setState]

theorem Behind.step_loop {nonceCtl nonceFeeCtl : NonceCtl} {inp : Input} (hR : Behind s s')
    (hapart : s.FeeApart backend (.loop nonceCtl nonceFeeCtl inp))
    (h : Session.step backend s (.loop nonceCtl nonceFeeCtl inp) = some t) :
    Behind t s' ∨
    ∃ t', stepWith backend (BatchLoop.stepWithoutFee backend) s'
      (.loop nonceCtl nonceFeeCtl inp) = some t' ∧ Behind t t' := by
  obtain ⟨r, hr, rfl⟩ := stepWith_loop h
  cases hR with
  | cpu hl =>
    obtain ⟨q, hq, rfl⟩ := Option.map_eq_some_iff.mp hr
    rcases hl.step hq with ⟨hstate, hl⟩ | ⟨q', hq', hstate, hl⟩
    · left
      simp only [Result.map, hstate]
      exact .cpu hl
    · right
      refine ⟨_, stepWith_eq (congrArg (Option.map _) hq'), ?_⟩
      simp only [Result.map, hstate]
      exact .cpu hl
  | cryptonoteCuda hl =>
    obtain ⟨q, hq, rfl⟩ := Option.map_eq_some_iff.mp hr
    rcases hl.step hapart hq with ⟨hstate, hl⟩ | ⟨q', hq', hstate, hl⟩
    · left
      rw [hstate] at hl
      simp only [Result.map, hstate]
      exact .cryptonoteCuda hl
    · right
      refine ⟨_, stepWith_eq (congrArg (Option.map _) hq'), ?_⟩
      simp only [Result.map, hstate]
      exact .cryptonoteCuda hl
  | @cryptonoteOcl worker worker' l l' b c hworker hl =>
    obtain ⟨q, hq, rfl⟩ := Option.map_eq_some_iff.mp hr
    cases hends : l.ends with
    | true =>
      obtain ⟨hends', hl⟩ := hl.step_ends hends hq
      exact Or.inl (.cryptonoteOcl (fun h => absurd (hends'.symm.trans h) (by decide)) hl)
    | false =>
      obtain rfl := hworker hends
      cases hfee : l.inFee with
      | true =>
        obtain ⟨hstate, hl⟩ := hl.step_inFee hfee hq
        left
        simp only [Result.map, hstate]
        exact .cryptonoteOcl (fun _ => rfl) hl
      | false =>
        rcases hl.step hapart hfee hends hq with ⟨hstate, hl⟩ | ⟨q', hq', hstate, hl⟩
        · left
          simp only [Result.map, hstate]
          exact .cryptonoteOcl (fun _ => rfl) hl
        · right
          refine ⟨_, stepWith_eq (congrArg (Option.map _) hq'), ?_⟩
          simp only [Result.map, hstate]
          exact .cryptonoteOcl (fun _ => rfl) hl
  | ethOcl worker l b =>
    have heq := hr
    obtain ⟨q, hq, rfl⟩ := Option.map_eq_some_iff.mp hr
    exact Or.inr ⟨_, stepWith_eq heq, .ethOcl _ _ _⟩

theorem follows (backend : Backend) :
    Follows (Session.step backend) (stepWith backend (BatchLoop.stepWithoutFee backend))
      (FeeApart backend) Event.isLoop Behind := by
  constructor
  intro s e t s' hR hapart h
  cases e with
  | loop nonceCtl nonceFeeCtl inp => exact (hR.step_loop hapart h).imp_left fun ht => ⟨rfl, ht⟩
  | store m_state | storeJob job | storeFeeJob job => exact Or.inr (hR.step_store rfl h)

/-- A fee job that the OpenCL loop has copied has a blob. -/
def FeeBlob (s : Session) : Prop :=
  match s.loop with
  | .cryptonoteOcl l => l.FeeBlob
  | _ => True

theorem FeeBlob.step (hs : s.FeeBlob) (hapart : s.FeeApart backend e)
    (h : Session.step backend s e = some t) : t.FeeBlob := by
  by_cases he : ∃ c d i, e = .loop c d i
  · obtain ⟨c, d, i, rfl⟩ := he
    obtain ⟨r, hr, rfl⟩ := stepWith_loop h
    obtain ⟨worker, loop, batches⟩ := s
    cases loop with
    | cryptonoteOcl l =>
      obtain ⟨q, hq, rfl⟩ := Option.map_eq_some_iff.mp hr
      exact CryptonoteOcl.step_feeBlob hq hapart hs
    | cpu l | cryptonoteCuda l | ethOcl l =>
      obtain ⟨q, hq, rfl⟩ := Option.map_eq_some_iff.mp hr
      trivial
  · obtain ⟨hloop, -⟩ := stepWith_store (fun c d i heq => he ⟨c, d, i, heq⟩) h
    rw [FeeBlob, hloop]
    exact hs

theorem Initial.feeBlob (h0 : s.Initial) : s.FeeBlob := by
  obtain ⟨worker, loop, batches⟩ := s
  cases loop with
  | cryptonoteOcl l =>
    obtain rfl : l = .new := h0.loop
    exact fun hk => by cases hk
  | cpu l | cryptonoteCuda l | ethOcl l => trivial

theorem FeeBlob.goesOn (hs : s.FeeBlob) : s.FeeGoesOn backend e := by
  cases e with
  | store m_state | storeJob job | storeFeeJob job => trivial
  | loop c d inp =>
    intro hok hfee t ht
    obtain ⟨r, hr, rfl⟩ := stepWith_loop ht
    obtain ⟨worker, loop, batches⟩ := s
    cases loop with
    | cpu l =>
      obtain ⟨q, hq, rfl⟩ := Option.map_eq_some_iff.mp hr
      obtain ⟨hstate, hpc, -⟩ := CpuLoop.step_inFee hq hfee
      exact ⟨decide_eq_false hpc, hstate⟩
    | cryptonoteCuda l =>
      obtain ⟨q, hq, rfl⟩ := Option.map_eq_some_iff.mp hr
      obtain ⟨hstate, hpc, -⟩ := CryptonoteCuda.step_inFee hq hfee
      exact ⟨decide_eq_false hpc, hstate⟩
    | cryptonoteOcl l =>
      obtain ⟨q, hq, rfl⟩ := Option.map_eq_some_iff.mp hr
      have hfeeStep : _ ∧ (l.pc = .switch → q.loop.Beside (l.note _ inp batches) batches l) :=
        CryptonoteOcl.step_inFee hq hfee
      exact ⟨CryptonoteOcl.step_goesOn hq hfee hs hok, hfeeStep.1⟩
    | ethOcl l => cases hfee

/-- The loop goes on through all its turns for the fee, and the batches it searches for the pool are
those of a run without them. -/
theorem fee_draws_apart (h0 : s.Initial) (hrun : exec (Session.step backend) s es = some t)
    (hapart : Along (Session.step backend) (FeeApart backend) s es) :
    Along (Session.step backend) (FeeGoesOn backend) s es ∧
      ∃ es' t', es'.Sublist es ∧ es'.filter (!·.isLoop) = es.filter (!·.isLoop) ∧
        exec (stepWith backend (BatchLoop.stepWithoutFee backend)) s es' = some t' ∧
        t'.batches.ofMain = t.batches.ofMain := by
  constructor
  · exact Along.of_invariant (fun _ _ _ hI hC h => FeeBlob.step hI hC h) (fun _ _ hI _ => hI.goesOn)
      h0.feeBlob hapart
  · obtain ⟨es', t', hsub, hfilter, hrun', hR⟩ := (follows backend).exec h0.behind hapart hrun
    exact ⟨es', t', hsub, hfilter, hrun', hR.ofMain⟩

def feeBackend : Backend :=
  ⟨true, cryptonoteSearch id, ⟨id, id, fun _ _ => none, fun _ _ => none⟩⟩

/-- A call of the OpenCL loop with a job to search and the given fee job. -/
def openClWithFee (feeJob : MiningJob) : Session :=
  ⟨⟨.UpdateJob, ⟨[1], [1], []⟩, feeJob⟩, .cryptonoteOcl .new, .new 64⟩

theorem initial_openClWithFee (feeJob : MiningJob) : (openClWithFee feeJob).Initial :=
  ⟨rfl, fun hm => (by cases hm), 64, rfl⟩

/-- Steps of the loop whose draws are all for the fee, or all for the pool. -/
def turns (lucky : Bool) (n : Nat) : List Event :=
  List.replicate n (.loop .new .new ⟨lucky, .ok, 64, none, 7⟩)

/-- A turn for the fee and one for the pool. -/
theorem openCl_fee_draw_apart :
    ∃ t, exec (Session.step feeBackend) (openClWithFee ⟨[2], [2], []⟩)
        (turns true 17 ++ turns false 8) = some t ∧ t.batches.launches.map (·.fee) = [false, true] ∧
      ∃ es' t', es'.Sublist (turns true 17 ++ turns false 8) ∧
        exec (stepWith feeBackend (BatchLoop.stepWithoutFee feeBackend))
          (openClWithFee ⟨[2], [2], []⟩) es' = some t' ∧
        t'.batches.ofMain = t.batches.ofMain := by
  have h : (exec (Session.step feeBackend) (openClWithFee ⟨[2], [2], []⟩)
      (turns true 17 ++ turns false 8)).map (·.batches.launches.map (·.fee)) =
        some [false, true] := by decide +kernel
  obtain ⟨t, hrun, hlaunches⟩ := Option.map_eq_some_iff.mp h
  obtain ⟨-, es', t', hsub, -, hrun', hmain⟩ :=
    fee_draws_apart (initial_openClWithFee _) hrun (by decide +kernel)
  exact ⟨t, hrun, hlaunches, es', t', hsub, hrun', hmain⟩

/-- With no fee job the OpenCL loop returns at its first draw for the fee. -/
theorem empty_fee_job_stops_openCl :
    ¬ ∀ (backend : Backend) (s t : Session) (es : List Event), s.Initial →
      s.worker.m_job ≠ .empty → exec (Session.step backend) s es = some t →
      Along (Session.step backend) (FeeGoesOn backend) s es ∧
        ∃ es' t', es'.Sublist es ∧ es'.filter (!·.isLoop) = es.filter (!·.isLoop) ∧
          exec (stepWith backend (BatchLoop.stepWithoutFee backend)) s es' = some t' ∧
          t'.batches.ofMain = t.batches.ofMain := by
  intro h
  have hsome : (exec (Session.step feeBackend) (openClWithFee .empty) (turns true 9)).isSome := by
    decide +kernel
  obtain ⟨t, hrun⟩ := Option.isSome_iff_exists.mp hsome
  have hgoes := (h feeBackend _ t _ (initial_openClWithFee _) (by decide) hrun).1
  exact absurd hgoes (by decide +kernel)

end Session
end MinerGate
