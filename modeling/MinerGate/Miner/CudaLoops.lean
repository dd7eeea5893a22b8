import MinerGate.Miner.NonceRanges
import MinerGate.Miner.Worker

/-!
# The CUDA loops

`CryptonoteCudaMiner::start` reserves a batch while it takes a job and another one at the
end of every batch, and stores `Mining` whatever the state has become meanwhile.
`EthCUDAMiner::start` looks at the state first and reserves without asking whether the
counter is valid.
-/

namespace MinerGate

set_option autoImplicit false

/-- Where the CryptoNight loop stands. The pool's batch takes its range in the `first` steps,
when it has copied a job, and in the `next` steps, after a batch. The range itself goes to the
device, which may report any nonce. -/
inductive CryptonoteCudaPc where
  | switch
  | copyJob
  | firstWait
  | firstStopped
  | firstReserve
  | firstDone
  | copyDevice
  | copied
  | setMining
  | draw
  | copyFeeJob
  | feeLoop (feeJob : MiningJob)
  | feeWait (feeJob : MiningJob)
  | feeReserve (feeJob : MiningJob)
  | feeDone (feeJob : MiningJob)
  | feeDevice (feeJob : MiningJob)
  | feeSearch (feeJob : MiningJob)
  | search
  | nextLoop
  | nextWait
  | nextReserve
  | nextDone
  | returned
deriving DecidableEq, Repr

structure CryptonoteCuda where
  pc : CryptonoteCudaPc
  job : MiningJob
deriving DecidableEq, Repr

namespace CryptonoteCuda

def new : CryptonoteCuda := ⟨.switch, .empty⟩

def goto (l : CryptonoteCuda) (pc : CryptonoteCudaPc) : CryptonoteCuda := { l with pc := pc }

def step (l : CryptonoteCuda) (slowHash : QByteArray → QByteArray) (sh : Shared) (inp : Input) :
    Option (Result CryptonoteCuda) :=
  let threads := inp.threads.toNat
  match l.pc with
  | .returned => none
  | .switch =>
    match sh.m_state with
    | .UpdateJob => some (.keep sh (l.goto .copyJob))
    | .Mining => some (.keep sh (l.goto .draw))
    | _ => some (.keep sh (l.goto .returned))
  | .copyJob =>
    if sh.m_job.job_id = [] then some (.keep sh ⟨.switch, sh.m_job⟩)
    else some (.keep sh ⟨.firstWait, sh.m_job.setNonce 0⟩)
  | .firstWait =>
    if (sh.nonceCtl false).isValid then some (.keep sh (l.goto .firstReserve))
    else some (.keep sh (l.goto .firstStopped))
  | .firstStopped =>
    if sh.m_state.stops then some (.keep sh (l.goto .firstDone))
    else some (.keep sh (l.goto .firstWait))
  | .firstReserve => some (.act sh (.reserve false threads) (l.goto .firstDone))
  | .firstDone =>
    if sh.m_state.stops then some (.keep sh (l.goto .switch))
    else some (.keep sh (l.goto .copyDevice))
  | .copyDevice =>
    match inp.outcome with
    | .ok => some (.keep sh (l.goto .copied))
    | .retry => some (.keep sh (l.goto .switch))
    | _ => some (.keep sh (l.goto .returned))
  | .copied =>
    if sh.m_state.stops then some (.keep sh (l.goto .switch))
    else some (.keep sh (l.goto .setMining))
  | .setMining => some (.store .Mining (l.goto .switch))
  | .draw =>
    if sh.m_fee && inp.lucky then some (.keep sh (l.goto .copyFeeJob))
    else some (.keep sh (l.goto .search))
  | .copyFeeJob =>
    if sh.m_feeJob.job_id = [] then some (.keep sh (l.goto .switch))
    else some (.keep sh (l.goto (.feeLoop sh.m_feeJob)))
  | .feeLoop feeJob =>
    if sh.m_state = .Mining then some (.keep sh (l.goto (.feeWait feeJob)))
    else some (.keep sh (l.goto (.feeDone feeJob)))
  | .feeWait feeJob =>
    if (sh.nonceCtl true).isValid then some (.keep sh (l.goto (.feeReserve feeJob)))
    else some (.keep sh (l.goto (.feeLoop feeJob)))
  | .feeReserve feeJob => some (.act sh (.reserve true threads) (l.goto (.feeDone feeJob)))
  | .feeDone feeJob =>
    if sh.m_state.stops then some (.keep sh (l.goto .switch))
    else some (.keep sh (l.goto (.feeDevice feeJob)))
  | .feeDevice feeJob =>
    if inp.outcome = .ok then some (.keep sh (l.goto (.feeSearch feeJob)))
    else some (.keep sh (l.goto .switch))
  | .feeSearch feeJob =>
    match inp.checked 0xffffffff (checkCryptonote slowHash feeJob) with
    | some (nonce, hash) =>
      some (.act sh (.postEvent ⟨feeJob.job_id, nonce, hash, true⟩) (l.goto .switch))
    | none => some (.keep sh (l.goto .switch))
  | .search =>
    match inp.checked 0xffffffff (checkCryptonote slowHash l.job) with
    | some (nonce, hash) =>
      some (.act sh (.postEvent ⟨l.job.job_id, nonce, hash, false⟩)
        ⟨.nextLoop, l.job.setNonce nonce⟩)
    | none => some (.keep sh (l.goto .nextLoop))
  | .nextLoop =>
    if sh.m_state = .Mining then some (.keep sh (l.goto .nextWait))
    else some (.keep sh (l.goto .nextDone))
  | .nextWait =>
    if (sh.nonceCtl false).isValid then some (.keep sh (l.goto .nextReserve))
    else some (.keep sh (l.goto .nextLoop))
  | .nextReserve => some (.act sh (.reserve false threads) (l.goto .nextDone))
  | .nextDone => some (.keep sh (l.goto .switch))

/-- Where the loop goes on after it has only looked at something. -/
inductive Goes (sh : Shared) (inp : Input) : CryptonoteCudaPc → CryptonoteCudaPc → Prop where
  | update (hm : sh.m_state = .UpdateJob) : Goes sh inp .switch .copyJob
  | mine (hm : sh.m_state = .Mining) : Goes sh inp .switch .draw
  | stop : Goes sh inp .switch .returned
  | firstValid (hvalid : (sh.nonceCtl false).isValid = true) : Goes sh inp .firstWait .firstReserve
  | firstWait : Goes sh inp .firstWait .firstStopped
  | firstStopped (hstops : sh.m_state.stops = true) : Goes sh inp .firstStopped .firstDone
  | firstAgain (hstops : sh.m_state.stops = false) : Goes sh inp .firstStopped .firstWait
  | firstEnds (hstops : sh.m_state.stops = true) : Goes sh inp .firstDone .switch
  | first (hstops : sh.m_state.stops = false) : Goes sh inp .firstDone .copyDevice
  | copied (hok : inp.outcome = .ok) : Goes sh inp .copyDevice .copied
  | copyAgain (hretry : inp.outcome = .retry) : Goes sh inp .copyDevice .switch
  | copyFails : Goes sh inp .copyDevice .returned
  | copiedEnds (hstops : sh.m_state.stops = true) : Goes sh inp .copied .switch
  | copiedGoes (hstops : sh.m_state.stops = false) : Goes sh inp .copied .setMining
  | drawFee (hdraw : (sh.m_fee && inp.lucky) = true) : Goes sh inp .draw .copyFeeJob
  | draw (hdraw : ¬ (sh.m_fee && inp.lucky) = true) : Goes sh inp .draw .search
  | noFeeJob (hid : sh.m_feeJob.job_id = []) : Goes sh inp .copyFeeJob .switch
  | feeJob (hid : sh.m_feeJob.job_id ≠ []) : Goes sh inp .copyFeeJob (.feeLoop sh.m_feeJob)
  | feeLoop {feeJob : MiningJob} (hm : sh.m_state = .Mining) :
    Goes sh inp (.feeLoop feeJob) (.feeWait feeJob)
  | feeLeft {feeJob : MiningJob} (hm : sh.m_state ≠ .Mining) :
    Goes sh inp (.feeLoop feeJob) (.feeDone feeJob)
  | feeValid {feeJob : MiningJob} (hvalid : (sh.nonceCtl true).isValid = true) :
    Goes sh inp (.feeWait feeJob) (.feeReserve feeJob)
  | feeWait {feeJob : MiningJob} : Goes sh inp (.feeWait feeJob) (.feeLoop feeJob)
  | feeEnds {feeJob : MiningJob} (hstops : sh.m_state.stops = true) :
    Goes sh inp (.feeDone feeJob) .switch
  | feeDone {feeJob : MiningJob} (hstops : sh.m_state.stops = false) :
    Goes sh inp (.feeDone feeJob) (.feeDevice feeJob)
  | feeCopied {feeJob : MiningJob} (hok : inp.outcome = .ok) :
    Goes sh inp (.feeDevice feeJob) (.feeSearch feeJob)
  | feeCopyFails {feeJob : MiningJob} (hfail : inp.outcome ≠ .ok) :
    Goes sh inp (.feeDevice feeJob) .switch
  | feeMissed {feeJob : MiningJob} : Goes sh inp (.feeSearch feeJob) .switch
  | missed : Goes sh inp .search .nextLoop
  | nextLoop (hm : sh.m_state = .Mining) : Goes sh inp .nextLoop .nextWait
  | nextLeft (hm : sh.m_state ≠ .Mining) : Goes sh inp .nextLoop .nextDone
  | nextValid (hvalid : (sh.nonceCtl false).isValid = true) : Goes sh inp .nextWait .nextReserve
  | nextWait : Goes sh inp .nextWait .nextLoop
  | next : Goes sh inp .nextDone .switch

/-- The steps of the loop. -/
inductive Step (slowHash : QByteArray → QByteArray) (sh : Shared) (inp : Input) :
    CryptonoteCuda → Result CryptonoteCuda → Prop where
  | goes {pc pc' : CryptonoteCudaPc} {job : MiningJob} (hgoes : Goes sh inp pc pc') :
    Step slowHash sh inp ⟨pc, job⟩ (.keep sh ⟨pc', job⟩)
  | noJob (job : MiningJob) (hid : sh.m_job.job_id = []) :
    Step slowHash sh inp ⟨.copyJob, job⟩ (.keep sh ⟨.switch, sh.m_job⟩)
  | copyJob (job : MiningJob) (hid : sh.m_job.job_id ≠ []) :
    Step slowHash sh inp ⟨.copyJob, job⟩ (.keep sh ⟨.firstWait, sh.m_job.setNonce 0⟩)
  | firstReserve (job : MiningJob) :
    Step slowHash sh inp ⟨.firstReserve, job⟩
      (.act sh (.reserve false inp.threads.toNat) ⟨.firstDone, job⟩)
  | setMining (job : MiningJob) :
    Step slowHash sh inp ⟨.setMining, job⟩ (.store .Mining ⟨.switch, job⟩)
  | feeReserve (feeJob job : MiningJob) :
    Step slowHash sh inp ⟨.feeReserve feeJob, job⟩
      (.act sh (.reserve true inp.threads.toNat) ⟨.feeDone feeJob, job⟩)
  | feeFound (feeJob job : MiningJob) {nonce : Nat} {hash : QByteArray}
    (hcheck : checkCryptonote slowHash feeJob nonce = some hash) :
    Step slowHash sh inp ⟨.feeSearch feeJob, job⟩
      (.act sh (.postEvent ⟨feeJob.job_id, nonce, hash, true⟩) ⟨.switch, job⟩)
  | found (job : MiningJob) {nonce : Nat} {hash : QByteArray}
    (hcheck : checkCryptonote slowHash job nonce = some hash) :
    Step slowHash sh inp ⟨.search, job⟩
      (.act sh (.postEvent ⟨job.job_id, nonce, hash, false⟩) ⟨.nextLoop, job.setNonce nonce⟩)
  | nextReserve (job : MiningJob) :
    Step slowHash sh inp ⟨.nextReserve, job⟩
      (.act sh (.reserve false inp.threads.toNat) ⟨.nextDone, job⟩)

theorem step_cases {l : CryptonoteCuda} {slowHash : QByteArray → QByteArray} {sh : Shared}
    {inp : Input} {r : Result CryptonoteCuda} (h : l.step slowHash sh inp = some r) :
    Step slowHash sh inp l r := by
  obtain ⟨pc, job⟩ := l
  cases pc with
  | returned => cases h
  | switch =>
    cases hm : sh.m_state <;> simp only [step, hm] at h <;> cases h
    · exact .goes (.mine hm)
    · exact .goes .stop
    · exact .goes (.update hm)
    · exact .goes .stop
  | copyJob =>
    simp only [step] at h
    split at h
    case isTrue hid =>
      cases h
      exact .noJob job hid
    case isFalse hid =>
      cases h
      exact .copyJob job hid
  | firstWait =>
    simp only [step] at h
    split at h
    case isTrue hvalid =>
      cases h
      exact .goes (.firstValid hvalid)
    case isFalse =>
      cases h
      exact .goes .firstWait
  | firstStopped | firstDone | copied =>
    simp only [step] at h
    split at h
    case isTrue hstops =>
      cases h
      first
        | exact .goes (.firstStopped hstops)
        | exact .goes (.firstEnds hstops)
        | exact .goes (.copiedEnds hstops)
    case isFalse hstops =>
      cases h
      have hstops := Bool.eq_false_of_not_eq_true hstops
      first
        | exact .goes (.firstAgain hstops)
        | exact .goes (.first hstops)
        | exact .goes (.copiedGoes hstops)
  | firstReserve =>
    cases h
    exact .firstReserve job
  | copyDevice =>
    simp only [step] at h
    split at h
    case h_1 hok =>
      cases h
      exact .goes (.copied hok)
    case h_2 hretry =>
      cases h
      exact .goes (.copyAgain hretry)
    case h_3 =>
      cases h
      exact .goes .copyFails
  | setMining =>
    cases h
    exact .setMining job
  | draw =>
    simp only [step] at h
    split at h
    case isTrue hdraw =>
      cases h
      exact .goes (.drawFee hdraw)
    case isFalse hdraw =>
      cases h
      exact .goes (.draw hdraw)
  | copyFeeJob =>
    simp only [step] at h
    split at h
    case isTrue hid =>
      cases h
      exact .goes (.noFeeJob hid)
    case isFalse hid =>
      cases h
      exact .goes (.feeJob hid)
  | feeLoop feeJob =>
    simp only [step] at h
    split at h
    case isTrue hm =>
      cases h
      exact .goes (.feeLoop hm)
    case isFalse hm =>
      cases h
      exact .goes (.feeLeft hm)
  | feeWait feeJob =>
    simp only [step] at h
    split at h
    case isTrue hvalid =>
      cases h
      exact .goes (.feeValid hvalid)
    case isFalse =>
      cases h
      exact .goes .feeWait
  | feeReserve feeJob =>
    cases h
    exact .feeReserve feeJob job
  | feeDone feeJob =>
    simp only [step] at h
    split at h
    case isTrue hstops =>
      cases h
      exact .goes (.feeEnds hstops)
    case isFalse hstops =>
      cases h
      exact .goes (.feeDone (Bool.eq_false_of_not_eq_true hstops))
  | feeDevice feeJob =>
    simp only [step] at h
    split at h
    case isTrue hok =>
      cases h
      exact .goes (.feeCopied hok)
    case isFalse hfail =>
      cases h
      exact .goes (.feeCopyFails hfail)
  | feeSearch feeJob =>
    simp only [step] at h
    split at h
    case h_1 nonce hash hchecked =>
      cases h
      exact .feeFound feeJob job (Input.checked_eq_some hchecked).2
    case h_2 =>
      cases h
      exact .goes .feeMissed
  | search =>
    simp only [step] at h
    split at h
    case h_1 nonce hash hchecked =>
      cases h
      exact .found job (Input.checked_eq_some hchecked).2
    case h_2 =>
      cases h
      exact .goes .missed
  | nextLoop =>
    simp only [step] at h
    split at h
    case isTrue hm =>
      cases h
      exact .goes (.nextLoop hm)
    case isFalse hm =>
      cases h
      exact .goes (.nextLeft hm)
  | nextWait =>
    simp only [step] at h
    split at h
    case isTrue hvalid =>
      cases h
      exact .goes (.nextValid hvalid)
    case isFalse =>
      cases h
      exact .goes .nextWait
  | nextReserve =>
    cases h
    exact .nextReserve job
  | nextDone =>
    cases h
    exact .goes .next

def feeJob (l : CryptonoteCuda) : Option MiningJob :=
  match l.pc with
  | .feeLoop feeJob | .feeWait feeJob | .feeReserve feeJob | .feeDone feeJob
  | .feeDevice feeJob | .feeSearch feeJob => some feeJob
  | _ => none

def view (l : CryptonoteCuda) : View where
  main := some l.job
  fee := l.feeJob
  storesMining := l.pc = .setMining

@[simp] theorem held_view (l : CryptonoteCuda) (fee : Bool) :
    l.view.held fee = if fee then l.feeJob else some l.job := rfl

theorem step_spec {l : CryptonoteCuda} {slowHash : QByteArray → QByteArray} {sh : Shared}
    {inp : Input} {r : Result CryptonoteCuda} (h : l.step slowHash sh inp = some r) :
    StepSpec sh l.view r.loop.view r.m_state := by
  cases step_cases h with
  | goes hgoes =>
    cases hgoes with
    | feeJob hid => exact .of_job true rfl (Or.inl (.refl sh.m_feeJob)) (Or.inl rfl)
    | _ => exact .of_held (by simp [Result.keep, feeJob]) (Or.inl rfl)
  | noJob job hid => exact .of_job false rfl (Or.inl (.refl sh.m_job)) (Or.inr rfl)
  | copyJob job hid =>
    exact .of_job false rfl (Or.inl (MiningJob.agrees_setNonce sh.m_job 0)) (Or.inr rfl)
  | setMining job => exact .of_held (by simp [Result.store, feeJob]) (Or.inr (Or.inr rfl))
  | found job hcheck =>
    exact .of_job false rfl (Or.inr ⟨job, rfl, MiningJob.agrees_setNonce job _⟩) (Or.inr rfl)
  | _ => exact .of_held (by simp [Result.act, feeJob]) (Or.inl rfl)

/-- The job of which the next step can post a share. -/
def reports (l : CryptonoteCuda) (fee : Bool) : Option MiningJob :=
  match l.pc with
  | .search => if fee then none else some l.job
  | .feeSearch feeJob => if fee then some feeJob else none
  | _ => none

theorem reports_held {l : CryptonoteCuda} {fee : Bool} {j : MiningJob} (h : j ∈ l.reports fee) :
    j ∈ l.view.held fee := by
  obtain ⟨pc, job⟩ := l
  cases pc with
  | search =>
    obtain ⟨hfee, h⟩ := Option.ite_none_left_eq_some.mp h
    rw [held_view, if_neg hfee]
    exact h
  | feeSearch feeJob =>
    obtain ⟨hfee, h⟩ := Option.ite_none_right_eq_some.mp h
    rw [held_view, if_pos hfee]
    exact h
  | _ => cases h

theorem step_action {l : CryptonoteCuda} {slowHash : QByteArray → QByteArray} {sh : Shared}
    {inp : Input} {r : Result CryptonoteCuda} (h : l.step slowHash sh inp = some r) :
    r.action.Of (· = inp.threads.toNat) l.reports (checkCryptonote slowHash) := by
  cases step_cases h with
  | firstReserve job | nextReserve job => exact .reserve false rfl
  | feeReserve feeJob job => exact .reserve true rfl
  | feeFound feeJob job hcheck | found job hcheck => exact .postEvent rfl rfl hcheck
  | _ => exact .none

end CryptonoteCuda

/-- Where the Ethereum loop stands. `batch` is the test of the search loop, `launch` its kernel,
`report` the nonces found by an earlier launch; one that is found ends the search. -/
inductive EthCudaPc where
  | init
  | switch
  | copyJob
  | prepare
  | giveUp
  | checkUpdate
  | setMining
  | reserve
  | synchronize (nonce lastNonce : Nat)
  | batch (nonce lastNonce : Nat) (exit : Bool)
  | launch (nonce lastNonce : Nat)
  | report (nonce lastNonce : Nat) (exit : Bool)
  | returned
deriving DecidableEq, Repr

structure EthCuda where
  pc : EthCudaPc
  job : MiningJob
  gridSize : Nat
  blockSize : Nat
deriving DecidableEq, Repr

namespace EthCuda

def new (gridSize blockSize : Nat) : EthCuda := ⟨.init, .empty, gridSize, blockSize⟩

def goto (l : EthCuda) (pc : EthCudaPc) : EthCuda := { l with pc := pc }

def step (l : EthCuda) (ethEval : MiningJob → Nat → Option QByteArray) (sh : Shared) (inp : Input) :
    Option (Result EthCuda) :=
  let batchSize := MinerGate.batchSize l.gridSize l.blockSize
  match l.pc with
  | .returned => none
  | .init =>
    if inp.outcome = .ok then some (.keep sh (l.goto .switch))
    else some (.keep sh (l.goto .returned))
  | .switch =>
    match sh.m_state with
    | .UpdateJob => some (.keep sh (l.goto .copyJob))
    | .Mining => some (.keep sh (l.goto .reserve))
    | _ => some (.keep sh (l.goto .returned))
  | .copyJob =>
    if sh.m_job.blob = [] then some (.keep sh { l with pc := .switch, job := sh.m_job })
    else some (.keep sh { l with pc := .prepare, job := sh.m_job })
  | .prepare =>
    -- capability of the card, the DAG, its copy on the device and the buffers
    match inp.outcome with
    | .ok => some (.keep sh (l.goto .checkUpdate))
    | .retry => some (.keep sh (l.goto .switch))
    | .fail => some (.keep sh (l.goto .returned))
    | .incapable => some (.keep sh (l.goto .giveUp))
  | .giveUp => some (.store .Stopping (l.goto .returned))
  | .checkUpdate =>
    if sh.m_state = .UpdateJob then some (.keep sh (l.goto .setMining))
    else some (.keep sh (l.goto .switch))
  | .setMining => some (.store .Mining (l.goto .switch))
  | .reserve =>
    let lastNonce := ((sh.nonceCtl false).nextNonce ETH_CUDA_NONCE_INTERVAL).2
    some (.act sh (.reserve false ETH_CUDA_NONCE_INTERVAL)
      (l.goto (.synchronize (lastNonce - ETH_CUDA_NONCE_INTERVAL) lastNonce)))
  | .synchronize nonce lastNonce =>
    if inp.outcome = .ok then some (.keep sh (l.goto (.batch nonce lastNonce false)))
    else some (.keep sh (l.goto .returned))
  | .batch nonce lastNonce exit =>
    if ¬ exit ∧ (nonce + batchSize) % nonceModulus ≤ lastNonce ∧ sh.m_state = .Mining then
      some (.keep sh (l.goto (.launch nonce lastNonce)))
    else some (.keep sh (l.goto .switch))
  | .launch nonce lastNonce =>
    if inp.outcome = .ok then some (.keep sh (l.goto (.report nonce lastNonce false)))
    else some (.keep sh (l.goto .returned))
  | .report nonce lastNonce exit =>
    match inp.found with
    | none =>
      some (.keep sh (l.goto (.batch ((nonce + batchSize) % nonceModulus) lastNonce exit)))
    | some _ =>
      match inp.checked nonceModulus (ethEval l.job) with
      | some (found, mixHash) =>
        some (.act sh (.postEvent ⟨l.job.job_id, found, mixHash, false⟩)
          (l.goto (.report nonce lastNonce true)))
      | none => some (.keep sh (l.goto (.report nonce lastNonce true)))

/-- Where the loop goes on after it has only looked at something. -/
inductive Goes (sh : Shared) (inp : Input) (batchSize : Nat) : EthCudaPc → EthCudaPc → Prop where
  | begun (hok : inp.outcome = .ok) : Goes sh inp batchSize .init .switch
  | notBegun : Goes sh inp batchSize .init .returned
  | update (hm : sh.m_state = .UpdateJob) : Goes sh inp batchSize .switch .copyJob
  | mine (hm : sh.m_state = .Mining) : Goes sh inp batchSize .switch .reserve
  | stop : Goes sh inp batchSize .switch .returned
  | prepared (hok : inp.outcome = .ok) : Goes sh inp batchSize .prepare .checkUpdate
  | prepareAgain : Goes sh inp batchSize .prepare .switch
  | prepareFails : Goes sh inp batchSize .prepare .returned
  | incapable : Goes sh inp batchSize .prepare .giveUp
  | checkUpdate (hm : sh.m_state = .UpdateJob) : Goes sh inp batchSize .checkUpdate .setMining
  | notUpdate (hm : sh.m_state ≠ .UpdateJob) : Goes sh inp batchSize .checkUpdate .switch
  | synchronize {nonce lastNonce : Nat} :
    Goes sh inp batchSize (.synchronize nonce lastNonce) (.batch nonce lastNonce false)
  | notSynchronized {nonce lastNonce : Nat} :
    Goes sh inp batchSize (.synchronize nonce lastNonce) .returned
  | batch {nonce lastNonce : Nat} {exit : Bool} (hm : sh.m_state = .Mining) :
    Goes sh inp batchSize (.batch nonce lastNonce exit) (.launch nonce lastNonce)
  | lastBatch {nonce lastNonce : Nat} {exit : Bool} :
    Goes sh inp batchSize (.batch nonce lastNonce exit) .switch
  | launch {nonce lastNonce : Nat} (hok : inp.outcome = .ok) :
    Goes sh inp batchSize (.launch nonce lastNonce) (.report nonce lastNonce false)
  | launchFails {nonce lastNonce : Nat} : Goes sh inp batchSize (.launch nonce lastNonce) .returned
  | reported {nonce lastNonce : Nat} {exit : Bool} :
    Goes sh inp batchSize (.report nonce lastNonce exit)
      (.batch ((nonce + batchSize) % nonceModulus) lastNonce exit)
  | missed {nonce lastNonce : Nat} {exit : Bool} :
    Goes sh inp batchSize (.report nonce lastNonce exit) (.report nonce lastNonce true)

/-- The steps of the loop. -/
inductive Step (ethEval : MiningJob → Nat → Option QByteArray) (sh : Shared) (inp : Input) :
    EthCuda → Result EthCuda → Prop where
  | goes {pc pc' : EthCudaPc} {job : MiningJob} {gridSize blockSize : Nat}
    (hgoes : Goes sh inp (MinerGate.batchSize gridSize blockSize) pc pc') :
    Step ethEval sh inp ⟨pc, job, gridSize, blockSize⟩ (.keep sh ⟨pc', job, gridSize, blockSize⟩)
  | noJob (job : MiningJob) (gridSize blockSize : Nat) (hblob : sh.m_job.blob = []) :
    Step ethEval sh inp ⟨.copyJob, job, gridSize, blockSize⟩
      (.keep sh ⟨.switch, sh.m_job, gridSize, blockSize⟩)
  | copyJob (job : MiningJob) (gridSize blockSize : Nat) (hblob : sh.m_job.blob ≠ []) :
    Step ethEval sh inp ⟨.copyJob, job, gridSize, blockSize⟩
      (.keep sh ⟨.prepare, sh.m_job, gridSize, blockSize⟩)
  | giveUp (job : MiningJob) (gridSize blockSize : Nat) :
    Step ethEval sh inp ⟨.giveUp, job, gridSize, blockSize⟩
      (.store .Stopping ⟨.returned, job, gridSize, blockSize⟩)
  | setMining (job : MiningJob) (gridSize blockSize : Nat) :
    Step ethEval sh inp ⟨.setMining, job, gridSize, blockSize⟩
      (.store .Mining ⟨.switch, job, gridSize, blockSize⟩)
  | reserve (job : MiningJob) (gridSize blockSize nonce lastNonce : Nat) :
    Step ethEval sh inp ⟨.reserve, job, gridSize, blockSize⟩
      (.act sh (.reserve false ETH_CUDA_NONCE_INTERVAL)
        ⟨.synchronize nonce lastNonce, job, gridSize, blockSize⟩)
  | found (job : MiningJob) (gridSize blockSize nonce lastNonce : Nat) (exit : Bool) {found : Nat}
    {mixHash : QByteArray} (hcheck : ethEval job found = some mixHash) :
    Step ethEval sh inp ⟨.report nonce lastNonce exit, job, gridSize, blockSize⟩
      (.act sh (.postEvent ⟨job.job_id, found, mixHash, false⟩)
        ⟨.report nonce lastNonce true, job, gridSize, blockSize⟩)

theorem step_cases {l : EthCuda} {ethEval : MiningJob → Nat → Option QByteArray} {sh : Shared}
    {inp : Input} {r : Result EthCuda} (h : l.step ethEval sh inp = some r) :
    Step ethEval sh inp l r := by
  obtain ⟨pc, job, gridSize, blockSize⟩ := l
  cases pc with
  | returned => cases h
  | init =>
    simp only [step] at h
    split at h
    case isTrue hok =>
      cases h
      exact .goes (.begun hok)
    case isFalse =>
      cases h
      exact .goes .notBegun
  | switch =>
    cases hm : sh.m_state <;> simp only [step, hm] at h <;> cases h
    · exact .goes (.mine hm)
    · exact .goes .stop
    · exact .goes (.update hm)
    · exact .goes .stop
  | copyJob =>
    simp only [step] at h
    split at h
    case isTrue hblob =>
      cases h
      exact .noJob job gridSize blockSize hblob
    case isFalse hblob =>
      cases h
      exact .copyJob job gridSize blockSize hblob
  | prepare =>
    cases hok : inp.outcome <;> simp only [step, hok] at h <;> cases h
    · exact .goes (.prepared hok)
    · exact .goes .prepareAgain
    · exact .goes .prepareFails
    · exact .goes .incapable
  | giveUp =>
    cases h
    exact .giveUp job gridSize blockSize
  | checkUpdate =>
    simp only [step] at h
    split at h
    case isTrue hm =>
      cases h
      exact .goes (.checkUpdate hm)
    case isFalse hm =>
      cases h
      exact .goes (.notUpdate hm)
  | setMining =>
    cases h
    exact .setMining job gridSize blockSize
  | reserve =>
    cases h
    exact .reserve job gridSize blockSize _ _
  | synchronize nonce lastNonce =>
    simp only [step] at h
    split at h <;> cases h
    · exact .goes .synchronize
    · exact .goes .notSynchronized
  | batch nonce lastNonce exit =>
    simp only [step] at h
    split at h
    case isTrue hbatch =>
      cases h
      exact .goes (.batch hbatch.2.2)
    case isFalse =>
      cases h
      exact .goes .lastBatch
  | launch nonce lastNonce =>
    simp only [step] at h
    split at h
    case isTrue hok =>
      cases h
      exact .goes (.launch hok)
    case isFalse =>
      cases h
      exact .goes .launchFails
  | report nonce lastNonce exit =>
    simp only [step] at h
    split at h
    case h_1 =>
      cases h
      exact .goes .reported
    case h_2 =>
      split at h
      case h_1 found mixHash hchecked =>
        cases h
        exact .found job gridSize blockSize nonce lastNonce exit (Input.checked_eq_some hchecked).2
      case h_2 =>
        cases h
        exact .goes .missed

def view (l : EthCuda) : View where
  main := some l.job
  fee := none
  storesMining := l.pc = .setMining

@[simp] theorem held_view (l : EthCuda) (fee : Bool) :
    l.view.held fee = if fee then none else some l.job := rfl

theorem step_spec {l : EthCuda} {ethEval : MiningJob → Nat → Option QByteArray} {sh : Shared}
    {inp : Input} {r : Result EthCuda} (h : l.step ethEval sh inp = some r) :
    StepSpec sh l.view r.loop.view r.m_state := by
  cases step_cases h with
  | noJob job gridSize blockSize hblob | copyJob job gridSize blockSize hblob =>
    exact .of_job false rfl (Or.inl (.refl sh.m_job)) (Or.inr rfl)
  | giveUp job gridSize blockSize =>
    exact .of_held (by simp [Result.store]) (Or.inr (Or.inl MinerThreadState.noConfusion))
  | setMining job gridSize blockSize =>
    exact .of_held (by simp [Result.store]) (Or.inr (Or.inr rfl))
  | _ => exact .of_held (by simp [Result.keep, Result.act]) (Or.inl rfl)

/-- The job of which the next step can post a share. -/
def reports (l : EthCuda) (fee : Bool) : Option MiningJob :=
  match l.pc with
  | .report _ _ _ => if fee then none else some l.job
  | _ => none

theorem step_action {l : EthCuda} {ethEval : MiningJob → Nat → Option QByteArray} {sh : Shared}
    {inp : Input} {r : Result EthCuda} (h : l.step ethEval sh inp = some r) :
    r.action.Of (· = ETH_CUDA_NONCE_INTERVAL) l.reports ethEval := by
  cases step_cases h with
  | reserve job gridSize blockSize nonce lastNonce => exact .reserve false rfl
  | found job gridSize blockSize nonce lastNonce exit hcheck => exact .postEvent rfl rfl hcheck
  | _ => exact .none

end EthCuda
end MinerGate
