import MinerGate.Miner.NonceRanges
import MinerGate.Miner.Worker

/-!
# The OpenCL loops

`CryptonoteOCLMiner::start` copies its job after it has stored `Mining`, whenever it last
searched for a job of the other kind or had to update. `EthOCLMiner::start` copies the job
first, sets the device up and then stores `Mining` unless the worker was stopped.
-/

namespace MinerGate

set_option autoImplicit false

inductive JobKind where
  | KindUnknown
  | KindNormal
  | KindFee
deriving DecidableEq, Repr

/-- Where the CryptoNight loop stands; `findShares` to `kernels` are the call of that name. -/
inductive CryptonoteOclPc where
  | init
  | switch
  | checkEmpty
  | checkUpdate
  | setMining
  | draw
  | copyJob
  | copyFeeJob
  | setKernelArgs
  | findShares
  | findLoop
  | findWait
  | findReserve
  | kernels
  | setExit
  | checkStop
  | report
  | returned
deriving DecidableEq, Repr

structure CryptonoteOcl where
  pc : CryptonoteOclPc
  job : MiningJob
  lastJobKind : JobKind
deriving DecidableEq, Repr

namespace CryptonoteOcl

def new : CryptonoteOcl := ⟨.init, .empty, .KindUnknown⟩

def goto (l : CryptonoteOcl) (pc : CryptonoteOclPc) : CryptonoteOcl := { l with pc := pc }

def isFee (l : CryptonoteOcl) : Bool := l.lastJobKind = .KindFee

def step (l : CryptonoteOcl) (slowHash : QByteArray → QByteArray) (sh : Shared) (inp : Input) :
    Option (Result CryptonoteOcl) :=
  match l.pc with
  | .returned => none
  | .init =>
    if sh.m_job.blob ≠ [] ∧ inp.outcome = .ok then some (.keep sh (l.goto .switch))
    else some (.keep sh (l.goto .returned))
  | .switch =>
    match sh.m_state with
    | .UpdateJob => some (.keep sh (l.goto .checkEmpty))
    | .Mining => some (.keep sh (l.goto .draw))
    | _ => some (.keep sh (l.goto .returned))
  | .checkEmpty =>
    if sh.m_job.job_id = [] then some (.keep sh (l.goto .switch))
    else some (.keep sh { l with pc := .checkUpdate, lastJobKind := .KindUnknown })
  | .checkUpdate =>
    if sh.m_state = .UpdateJob then some (.keep sh (l.goto .setMining))
    else some (.keep sh (l.goto .switch))
  | .setMining => some (.store .Mining (l.goto .switch))
  | .draw =>
    if inp.outcome ≠ .ok then some (.keep sh (l.goto .setExit))
    else if sh.m_fee && inp.lucky then
      if l.lastJobKind = .KindFee then some (.keep sh (l.goto .setKernelArgs))
      else some (.keep sh (l.goto .copyFeeJob))
    else
      if l.lastJobKind = .KindNormal then some (.keep sh (l.goto .setKernelArgs))
      else some (.keep sh (l.goto .copyJob))
  | .copyFeeJob => some (.keep sh ⟨.setKernelArgs, sh.m_feeJob, .KindFee⟩)
  | .copyJob => some (.keep sh ⟨.setKernelArgs, sh.m_job, .KindNormal⟩)
  | .setKernelArgs =>
    if l.job.blob ≠ [] ∧ inp.outcome = .ok then some (.keep sh (l.goto .findShares))
    else some (.keep sh (l.goto .returned))
  | .findShares =>
    if inp.outcome = .ok then some (.keep sh (l.goto .findLoop))
    else some (.keep sh (l.goto .setExit))
  | .findLoop =>
    -- a loop left without a reservation leaves `finishNonce` as it was, uninitialized
    if sh.m_state = .Mining then some (.keep sh (l.goto .findWait))
    else
      some (.act sh (.unreserved l.isFee inp.threads.toNat inp.uninitialized) (l.goto .kernels))
  | .findWait =>
    if (sh.nonceCtl l.isFee).isValid then some (.keep sh (l.goto .findReserve))
    else some (.keep sh (l.goto .findLoop))
  | .findReserve => some (.act sh (.reserve l.isFee inp.threads.toNat) (l.goto .kernels))
  | .kernels =>
    if inp.outcome = .ok then some (.keep sh (l.goto .checkStop))
    else some (.keep sh (l.goto .setExit))
  | .setExit => some (.store .Exit (l.goto .returned))
  | .checkStop =>
    if sh.m_state.stops then some (.keep sh (l.goto .switch))
    else some (.keep sh (l.goto .report))
  | .report =>
    match inp.found with
    | none => some (.keep sh (l.goto .switch))
    | some _ =>
      match inp.checked quint32Modulus (checkCryptonote slowHash l.job) with
      | some (nonce, hash) => some (.act sh (.postEvent ⟨l.job.job_id, nonce, hash, l.isFee⟩) l)
      | none => some (.keep sh l)

/-- Where the loop goes on after it has only looked at something. -/
inductive Goes (sh : Shared) (inp : Input) (job : MiningJob) (kind : JobKind) :
    CryptonoteOclPc → CryptonoteOclPc → Prop where
  | begun : Goes sh inp job kind .init .switch
  | notBegun : Goes sh inp job kind .init .returned
  | update (hm : sh.m_state = .UpdateJob) : Goes sh inp job kind .switch .checkEmpty
  | mine (hm : sh.m_state = .Mining) : Goes sh inp job kind .switch .draw
  | stop : Goes sh inp job kind .switch .returned
  | noJob (hid : sh.m_job.job_id = []) : Goes sh inp job kind .checkEmpty .switch
  | checkUpdate (hm : sh.m_state = .UpdateJob) : Goes sh inp job kind .checkUpdate .setMining
  | notUpdate (hm : sh.m_state ≠ .UpdateJob) : Goes sh inp job kind .checkUpdate .switch
  | drawFails : Goes sh inp job kind .draw .setExit
  | drawFee (hkind : kind ≠ .KindFee) : Goes sh inp job kind .draw .copyFeeJob
  | draw (hkind : kind ≠ .KindNormal) : Goes sh inp job kind .draw .copyJob
  | cached (hkind : kind ≠ .KindUnknown) : Goes sh inp job kind .draw .setKernelArgs
  | setKernelArgs (hblob : job.blob ≠ []) : Goes sh inp job kind .setKernelArgs .findShares
  | noBlob (hset : ¬ (job.blob ≠ [] ∧ inp.outcome = .ok)) :
    Goes sh inp job kind .setKernelArgs .returned
  | findShares (hok : inp.outcome = .ok) : Goes sh inp job kind .findShares .findLoop
  | findFails (hfail : inp.outcome ≠ .ok) : Goes sh inp job kind .findShares .setExit
  | findLoop (hm : sh.m_state = .Mining) : Goes sh inp job kind .findLoop .findWait
  | findValid : Goes sh inp job kind .findWait .findReserve
  | findWait : Goes sh inp job kind .findWait .findLoop
  | kernels (hok : inp.outcome = .ok) : Goes sh inp job kind .kernels .checkStop
  | kernelsFail (hfail : inp.outcome ≠ .ok) : Goes sh inp job kind .kernels .setExit
  | stops (hstops : sh.m_state.stops = true) : Goes sh inp job kind .checkStop .switch
  | report (hstops : sh.m_state.stops = false) : Goes sh inp job kind .checkStop .report
  | reported : Goes sh inp job kind .report .switch
  | missed : Goes sh inp job kind .report .report

/-- The steps of the loop. -/
inductive Step (slowHash : QByteArray → QByteArray) (sh : Shared) (inp : Input) :
    CryptonoteOcl → Result CryptonoteOcl → Prop where
  | goes {pc pc' : CryptonoteOclPc} {job : MiningJob} {kind : JobKind}
    (hgoes : Goes sh inp job kind pc pc') :
    Step slowHash sh inp ⟨pc, job, kind⟩ (.keep sh ⟨pc', job, kind⟩)
  | forget (job : MiningJob) (kind : JobKind) (hid : sh.m_job.job_id ≠ []) :
    Step slowHash sh inp ⟨.checkEmpty, job, kind⟩ (.keep sh ⟨.checkUpdate, job, .KindUnknown⟩)
  | setMining (job : MiningJob) (kind : JobKind) :
    Step slowHash sh inp ⟨.setMining, job, kind⟩ (.store .Mining ⟨.switch, job, kind⟩)
  | copyFeeJob (job : MiningJob) (kind : JobKind) :
    Step slowHash sh inp ⟨.copyFeeJob, job, kind⟩
      (.keep sh ⟨.setKernelArgs, sh.m_feeJob, .KindFee⟩)
  | copyJob (job : MiningJob) (kind : JobKind) :
    Step slowHash sh inp ⟨.copyJob, job, kind⟩ (.keep sh ⟨.setKernelArgs, sh.m_job, .KindNormal⟩)
  | unreserved (job : MiningJob) (kind : JobKind) (finishNonce : Nat) (hm : sh.m_state ≠ .Mining) :
    Step slowHash sh inp ⟨.findLoop, job, kind⟩
      (.act sh (.unreserved (isFee ⟨.findLoop, job, kind⟩) inp.threads.toNat finishNonce)
        ⟨.kernels, job, kind⟩)
  | findReserve (job : MiningJob) (kind : JobKind) :
    Step slowHash sh inp ⟨.findReserve, job, kind⟩
      (.act sh (.reserve (isFee ⟨.findReserve, job, kind⟩) inp.threads.toNat) ⟨.kernels, job, kind⟩)
  | setExit (job : MiningJob) (kind : JobKind) :
    Step slowHash sh inp ⟨.setExit, job, kind⟩ (.store .Exit ⟨.returned, job, kind⟩)
  | found (job : MiningJob) (kind : JobKind) {nonce : Nat} {hash : QByteArray}
    (hcheck : checkCryptonote slowHash job nonce = some hash) :
    Step slowHash sh inp ⟨.report, job, kind⟩
      (.act sh (.postEvent ⟨job.job_id, nonce, hash, isFee ⟨.report, job, kind⟩⟩)
        ⟨.report, job, kind⟩)

theorem step_cases {l : CryptonoteOcl} {slowHash : QByteArray → QByteArray} {sh : Shared}
    {inp : Input} {r : Result CryptonoteOcl} (h : l.step slowHash sh inp = some r) :
    Step slowHash sh inp l r := by
  obtain ⟨pc, job, kind⟩ := l
  cases pc with
  | returned => cases h
  | init =>
    simp only [step] at h
    split at h <;> cases h
    · exact .goes .begun
    · exact .goes .notBegun
  | switch =>
    cases hm : sh.m_state <;> simp only [step, hm] at h <;> cases h
    · exact .goes (.mine hm)
    · exact .goes .stop
    · exact .goes (.update hm)
    · exact .goes .stop
  | checkEmpty =>
    simp only [step] at h
    split at h
    case isTrue hid =>
      cases h
      exact .goes (.noJob hid)
    case isFalse hid =>
      cases h
      exact .forget job kind hid
  | checkUpdate =>
    simp only [step] at h
    split at h
    case isTrue hm =>
      cases h
      exact .goes (.checkUpdate hm)
    case isFalse hm =>
      cases h
      exact .goes (.notUpdate hm)
  | setMining =>
    cases h
    exact .setMining job kind
  | draw =>
    simp only [step] at h
    split at h
    case isTrue =>
      cases h
      exact .goes .drawFails
    case isFalse =>
      split at h <;> split at h
      case isTrue.isTrue hkind =>
        cases h
        exact .goes (.cached (by rw [hkind]; decide))
      case isTrue.isFalse hkind =>
        cases h
        exact .goes (.drawFee hkind)
      case isFalse.isTrue hkind =>
        cases h
        exact .goes (.cached (by rw [hkind]; decide))
      case isFalse.isFalse hkind =>
        cases h
        exact .goes (.draw hkind)
  | copyFeeJob =>
    cases h
    exact .copyFeeJob job kind
  | copyJob =>
    cases h
    exact .copyJob job kind
  | setKernelArgs =>
    simp only [step] at h
    split at h
    case isTrue hset =>
      cases h
      exact .goes (.setKernelArgs hset.1)
    case isFalse hset =>
      cases h
      exact .goes (.noBlob hset)
  | findShares =>
    simp only [step] at h
    split at h
    case isTrue hok =>
      cases h
      exact .goes (.findShares hok)
    case isFalse hfail =>
      cases h
      exact .goes (.findFails hfail)
  | findLoop =>
    simp only [step] at h
    split at h
    case isTrue hm =>
      cases h
      exact .goes (.findLoop hm)
    case isFalse hm =>
      cases h
      exact .unreserved job kind _ hm
  | findWait =>
    simp only [step] at h
    split at h <;> cases h
    · exact .goes .findValid
    · exact .goes .findWait
  | findReserve =>
    cases h
    exact .findReserve job kind
  | kernels =>
    simp only [step] at h
    split at h
    case isTrue hok =>
      cases h
      exact .goes (.kernels hok)
    case isFalse hfail =>
      cases h
      exact .goes (.kernelsFail hfail)
  | setExit =>
    cases h
    exact .setExit job kind
  | checkStop =>
    simp only [step] at h
    split at h
    case isTrue hstops =>
      cases h
      exact .goes (.stops hstops)
    case isFalse hstops =>
      cases h
      exact .goes (.report (Bool.eq_false_of_not_eq_true hstops))
  | report =>
    simp only [step] at h
    split at h
    case h_1 =>
      cases h
      exact .goes .reported
    case h_2 =>
      split at h
      case h_1 nonce hash hchecked =>
        cases h
        exact .found job kind (Input.checked_eq_some hchecked).2
      case h_2 =>
        cases h
        exact .goes .missed

def view (l : CryptonoteOcl) : View where
  main := if l.lastJobKind = .KindNormal then some l.job else none
  fee := if l.lastJobKind = .KindFee then some l.job else none
  storesMining := l.pc = .setMining

@[simp] theorem held_view (l : CryptonoteOcl) (fee : Bool) : l.view.held fee =
    if fee then if l.lastJobKind = .KindFee then some l.job else none
    else if l.lastJobKind = .KindNormal then some l.job else none := rfl

theorem step_spec {l : CryptonoteOcl} {slowHash : QByteArray → QByteArray} {sh : Shared}
    {inp : Input} {r : Result CryptonoteOcl} (h : l.step slowHash sh inp = some r) :
    StepSpec sh l.view r.loop.view r.m_state := by
  cases step_cases h with
  | setMining job kind => exact .of_held (by simp [Result.store]) (Or.inr (Or.inr rfl))
  | setExit job kind =>
    exact .of_held (by simp [Result.store]) (Or.inr (Or.inl MinerThreadState.noConfusion))
  | copyFeeJob job kind => exact .of_job true rfl (Or.inl (.refl sh.m_feeJob)) (Or.inr rfl)
  | copyJob job kind => exact .of_job false rfl (Or.inl (.refl sh.m_job)) (Or.inr rfl)
  | _ => exact .of_held (by simp [Result.keep, Result.act]) (Or.inl rfl)

/-- The job of which the next step can post a share. -/
def reports (l : CryptonoteOcl) (fee : Bool) : Option MiningJob :=
  match l.pc with
  | .report => if l.isFee = fee then some l.job else none
  | _ => none

theorem step_action {l : CryptonoteOcl} {slowHash : QByteArray → QByteArray} {sh : Shared}
    {inp : Input} {r : Result CryptonoteOcl} (h : l.step slowHash sh inp = some r) :
    r.action.Of (· = inp.threads.toNat) l.reports (checkCryptonote slowHash) := by
  cases step_cases h with
  | unreserved job kind finishNonce hm => exact .unreserved _ _ finishNonce
  | findReserve job kind => exact .reserve _ rfl
  | found job kind hcheck => exact .postEvent (show job ∈ _ from if_pos rfl) rfl hcheck
  | _ => exact .none

end CryptonoteOcl

/-- Where the Ethereum loop stands; `findLoop` to `kernel` are the call of `findShares`. -/
inductive EthOclPc where
  | init
  | switch
  | copyJob
  | prepare
  | checkUpdate
  | setMining
  | findLoop
  | findWait
  | findReserve
  | findDone
  | kernel
  | setExit (returns : Bool)
  | checkStop
  | report
  | returned
deriving DecidableEq, Repr

structure EthOcl where
  pc : EthOclPc
  job : MiningJob
deriving DecidableEq, Repr

namespace EthOcl

def new : EthOcl := ⟨.init, .empty⟩

def goto (l : EthOcl) (pc : EthOclPc) : EthOcl := { l with pc := pc }

def step (l : EthOcl) (ethEval : MiningJob → Nat → Option QByteArray) (sh : Shared) (inp : Input) :
    Option (Result EthOcl) :=
  match l.pc with
  | .returned => none
  | .init =>
    if inp.outcome = .ok then some (.keep sh (l.goto .switch))
    else some (.keep sh (l.goto .returned))
  | .switch =>
    match sh.m_state with
    | .UpdateJob => some (.keep sh (l.goto .copyJob))
    | .Mining => some (.keep sh (l.goto .findLoop))
    | _ => some (.keep sh (l.goto .returned))
  | .copyJob =>
    if sh.m_job.job_id = [] then some (.keep sh (l.goto .switch))
    else some (.keep sh ⟨.prepare, sh.m_job⟩)
  | .prepare =>
    -- the set-up of the device for a new DAG and the kernel's arguments
    if inp.outcome = .ok then some (.keep sh (l.goto .checkUpdate))
    else some (.keep sh (l.goto (.setExit true)))
  | .checkUpdate =>
    if sh.m_state = .UpdateJob then some (.keep sh (l.goto .setMining))
    else some (.keep sh (l.goto .switch))
  | .setMining => some (.store .Mining (l.goto .switch))
  | .findLoop =>
    if sh.m_state = .Mining then some (.keep sh (l.goto .findWait))
    else some (.keep sh (l.goto .findDone))
  | .findWait =>
    if (sh.nonceCtl false).isValid then some (.keep sh (l.goto .findReserve))
    else some (.keep sh (l.goto .findLoop))
  | .findReserve => some (.act sh (.reserve false inp.threads.toNat) (l.goto .findDone))
  | .findDone =>
    if sh.m_state = .Mining then some (.keep sh (l.goto .kernel))
    else some (.keep sh (l.goto .checkStop))
  | .kernel =>
    if inp.outcome = .ok then some (.keep sh (l.goto .checkStop))
    else some (.keep sh (l.goto (.setExit false)))
  | .setExit returns => some (.store .Exit (l.goto (if returns then .returned else .switch)))
  | .checkStop =>
    if sh.m_state.stops then some (.keep sh (l.goto .switch))
    else some (.keep sh (l.goto .report))
  | .report =>
    match inp.found with
    | none => some (.keep sh (l.goto .switch))
    | some _ =>
      match inp.checked nonceModulus (ethEval l.job) with
      | some (nonce, mixHash) =>
        some (.act sh (.postEvent ⟨l.job.job_id, nonce, mixHash, false⟩) (l.goto .checkStop))
      | none => some (.keep sh (l.goto (if inp.outcome = .fail then .report else .checkStop)))

/-- Where the loop goes on after it has only looked at something. -/
inductive Goes (sh : Shared) (inp : Input) : EthOclPc → EthOclPc → Prop where
  | begun : Goes sh inp .init .switch
  | notBegun : Goes sh inp .init .returned
  | update (hm : sh.m_state = .UpdateJob) : Goes sh inp .switch .copyJob
  | mine (hm : sh.m_state = .Mining) : Goes sh inp .switch .findLoop
  | stop : Goes sh inp .switch .returned
  | noJob (hid : sh.m_job.job_id = []) : Goes sh inp .copyJob .switch
  | prepared (hok : inp.outcome = .ok) : Goes sh inp .prepare .checkUpdate
  | prepareFails : Goes sh inp .prepare (.setExit true)
  | checkUpdate (hm : sh.m_state = .UpdateJob) : Goes sh inp .checkUpdate .setMining
  | notUpdate (hm : sh.m_state ≠ .UpdateJob) : Goes sh inp .checkUpdate .switch
  | findLoop (hm : sh.m_state = .Mining) : Goes sh inp .findLoop .findWait
  | findLeft (hm : sh.m_state ≠ .Mining) : Goes sh inp .findLoop .findDone
  | findValid : Goes sh inp .findWait .findReserve
  | findWait : Goes sh inp .findWait .findLoop
  | findDone (hm : sh.m_state = .Mining) : Goes sh inp .findDone .kernel
  | findNot (hm : sh.m_state ≠ .Mining) : Goes sh inp .findDone .checkStop
  | kernel (hok : inp.outcome = .ok) : Goes sh inp .kernel .checkStop
  | kernelFails : Goes sh inp .kernel (.setExit false)
  | stops (hstops : sh.m_state.stops = true) : Goes sh inp .checkStop .switch
  | report (hstops : sh.m_state.stops = false) : Goes sh inp .checkStop .report
  | reported : Goes sh inp .report .switch
  | missed (pc : EthOclPc) (hpc : pc = .report ∨ pc = .checkStop) : Goes sh inp .report pc

/-- The steps of the loop. -/
inductive Step (ethEval : MiningJob → Nat → Option QByteArray) (sh : Shared) (inp : Input) :
    EthOcl → Result EthOcl → Prop where
  | goes {pc pc' : EthOclPc} {job : MiningJob} (hgoes : Goes sh inp pc pc') :
    Step ethEval sh inp ⟨pc, job⟩ (.keep sh ⟨pc', job⟩)
  | copyJob (job : MiningJob) (hid : sh.m_job.job_id ≠ []) :
    Step ethEval sh inp ⟨.copyJob, job⟩ (.keep sh ⟨.prepare, sh.m_job⟩)
  | setMining (job : MiningJob) :
    Step ethEval sh inp ⟨.setMining, job⟩ (.store .Mining ⟨.switch, job⟩)
  | findReserve (job : MiningJob) :
    Step ethEval sh inp ⟨.findReserve, job⟩
      (.act sh (.reserve false inp.threads.toNat) ⟨.findDone, job⟩)
  | setExit (returns : Bool) (job : MiningJob) :
    Step ethEval sh inp ⟨.setExit returns, job⟩
      (.store .Exit ⟨if returns then .returned else .switch, job⟩)
  | found (job : MiningJob) {nonce : Nat} {mixHash : QByteArray}
    (hcheck : ethEval job nonce = some mixHash) :
    Step ethEval sh inp ⟨.report, job⟩
      (.act sh (.postEvent ⟨job.job_id, nonce, mixHash, false⟩) ⟨.checkStop, job⟩)

theorem step_cases {l : EthOcl} {ethEval : MiningJob → Nat → Option QByteArray} {sh : Shared}
    {inp : Input} {r : Result EthOcl} (h : l.step ethEval sh inp = some r) :
    Step ethEval sh inp l r := by
  obtain ⟨pc, job⟩ := l
  cases pc with
  | returned => cases h
  | init =>
    simp only [step] at h
    split at h <;> cases h
    · exact .goes .begun
    · exact .goes .notBegun
  | switch =>
    cases hm : sh.m_state <;> simp only [step, hm] at h <;> cases h
    · exact .goes (.mine hm)
    · exact .goes .stop
    · exact .goes (.update hm)
    · exact .goes .stop
  | copyJob =>
    simp only [step] at h
    split at h
    case isTrue hid =>
      cases h
      exact .goes (.noJob hid)
    case isFalse hid =>
      cases h
      exact .copyJob job hid
  | prepare =>
    simp only [step] at h
    split at h
    case isTrue hok =>
      cases h
      exact .goes (.prepared hok)
    case isFalse =>
      cases h
      exact .goes .prepareFails
  | checkUpdate =>
    simp only [step] at h
    split at h
    case isTrue hm =>
      cases h
      exact .goes (.checkUpdate hm)
    case isFalse hm =>
      cases h
      exact .goes (.notUpdate hm)
  | setMining =>
    cases h
    exact .setMining job
  | findLoop =>
    simp only [step] at h
    split at h
    case isTrue hm =>
      cases h
      exact .goes (.findLoop hm)
    case isFalse hm =>
      cases h
      exact .goes (.findLeft hm)
  | findWait =>
    simp only [step] at h
    split at h <;> cases h
    · exact .goes .findValid
    · exact .goes .findWait
  | findReserve =>
    cases h
    exact .findReserve job
  | findDone =>
    simp only [step] at h
    split at h
    case isTrue hm =>
      cases h
      exact .goes (.findDone hm)
    case isFalse hm =>
      cases h
      exact .goes (.findNot hm)
  | kernel =>
    simp only [step] at h
    split at h
    case isTrue hok =>
      cases h
      exact .goes (.kernel hok)
    case isFalse =>
      cases h
      exact .goes .kernelFails
  | setExit returns =>
    cases h
    exact .setExit returns job
  | checkStop =>
    simp only [step] at h
    split at h
    case isTrue hstops =>
      cases h
      exact .goes (.stops hstops)
    case isFalse hstops =>
      cases h
      exact .goes (.report (Bool.eq_false_of_not_eq_true hstops))
  | report =>
    simp only [step] at h
    split at h
    case h_1 =>
      cases h
      exact .goes .reported
    case h_2 =>
      split at h
      case h_1 nonce mixHash hchecked =>
        cases h
        exact .found job (Input.checked_eq_some hchecked).2
      case h_2 =>
        cases h
        refine .goes (.missed _ ?_)
        split
        · exact Or.inl rfl
        · exact Or.inr rfl

def view (l : EthOcl) : View where
  main := some l.job
  fee := none
  storesMining := l.pc = .setMining

@[simp] theorem held_view (l : EthOcl) (fee : Bool) :
    l.view.held fee = if fee then none else some l.job := rfl

theorem step_spec {l : EthOcl} {ethEval : MiningJob → Nat → Option QByteArray} {sh : Shared}
    {inp : Input} {r : Result EthOcl} (h : l.step ethEval sh inp = some r) :
    StepSpec sh l.view r.loop.view r.m_state := by
  cases step_cases h with
  | copyJob job hid => exact .of_job false rfl (Or.inl (.refl sh.m_job)) (Or.inr rfl)
  | setMining job => exact .of_held (by simp [Result.store]) (Or.inr (Or.inr rfl))
  | setExit returns job =>
    exact .of_held (by simp [Result.store]) (Or.inr (Or.inl MinerThreadState.noConfusion))
  | _ => exact .of_held (by simp [Result.keep, Result.act]) (Or.inl rfl)

/-- The job of which the next step can post a share. -/
def reports (l : EthOcl) (fee : Bool) : Option MiningJob :=
  match l.pc with
  | .report => if fee then none else some l.job
  | _ => none

theorem step_action {l : EthOcl} {ethEval : MiningJob → Nat → Option QByteArray} {sh : Shared}
    {inp : Input} {r : Result EthOcl} (h : l.step ethEval sh inp = some r) :
    r.action.Of (· = inp.threads.toNat) l.reports ethEval := by
  cases step_cases h with
  | findReserve job => exact .reserve false rfl
  | found job hcheck => exact .postEvent rfl rfl hcheck
  | _ => exact .none

end EthOcl
end MinerGate
