import MinerGate.Miner.NonceRanges
import MinerGate.Miner.Worker

/-!
# The CPU loop

`AbstractCPUMinerWorkerPrivate::startMining` with the `search` of the CryptoNote and the
Ethereum workers. While it searches for the fee it keeps the pool's job aside as
`originJob`.
-/

namespace MinerGate

set_option autoImplicit false

/-- A worker's `search`: the values its loop variable takes, what it does with one nonce, and
the fee flag of its shares. -/
structure Search where
  modulus : Nat
  tryNonce : MiningJob → Nat → MiningJob × Option QByteArray
  feeFlag : Bool → Bool
  agrees : ∀ job nonce, (tryNonce job nonce).1.Agrees job

/-- `CryptonoteWorkerPrivate::search`, which writes the nonce into its copy of the blob. -/
def cryptonoteSearch (slowHash : QByteArray → QByteArray) : Search where
  modulus := quint32Modulus
  tryNonce job nonce :=
    let job := job.setNonce nonce
    let hash := slowHash job.blob
    (job, if hashWord7 hash < arrayToQuint32 job.target then some hash else none)
  feeFlag feeMode := feeMode
  agrees := MiningJob.agrees_setNonce

/-- `EthereumWorkerPrivate::search`, which has no fee mode. -/
def ethereumSearch (ethSearch : MiningJob → Nat → Option QByteArray) : Search where
  modulus := nonceModulus
  tryNonce job nonce := (job, ethSearch job nonce)
  feeFlag _ := false
  agrees job _ := .refl job

/-- Where the loop stands: at the access it makes next. -/
inductive CpuPc where
  | idle
  | entry
  | switch
  | copyJob
  | checkExit
  | setMining
  | draw
  | copyFeeJob
  | reserveFee (originJob : MiningJob)
  | reserve
  | search (originJob : Option MiningJob) (nonce last : Nat)
  | hash (originJob : Option MiningJob) (nonce last : Nat)
deriving DecidableEq, Repr

structure CpuLoop where
  pc : CpuPc
  m_currentJob : MiningJob
deriving DecidableEq, Repr

namespace CpuLoop

def new : CpuLoop := ⟨.idle, .empty⟩

def goto (l : CpuLoop) (pc : CpuPc) : CpuLoop := { l with pc := pc }

def leave (l : CpuLoop) (originJob : Option MiningJob) : CpuLoop :=
  ⟨.switch, originJob.getD l.m_currentJob⟩

def enter (l : CpuLoop) (search : Search) (originJob : Option MiningJob) (lastNonce : Nat) :
    CpuLoop :=
  l.goto (.search originJob ((lastNonce - NONCE_INTERVAL) % search.modulus)
    (lastNonce % search.modulus))

def step (l : CpuLoop) (search : Search) (sh : Shared) (inp : Input) : Option (Result CpuLoop) :=
  match l.pc with
  | .idle => none
  | .entry => some (.store .UpdateJob (l.goto .switch))
  | .switch =>
    match sh.m_state with
    | .Exit => some (.keep sh (l.goto .idle))
    | .UpdateJob => some (.keep sh (l.goto .copyJob))
    | _ => some (.keep sh (l.goto .draw))
  | .copyJob => some (.keep sh ⟨.checkExit, sh.m_job⟩)
  | .checkExit =>
    if sh.m_state = .Exit then some (.keep sh (l.goto .idle))
    else if l.m_currentJob.job_id = [] then some (.keep sh (l.goto .switch))
    else some (.keep sh (l.goto .setMining))
  | .setMining => some (.store .Mining (l.goto .draw))
  | .draw =>
    if sh.m_fee && inp.lucky then some (.keep sh (l.goto .copyFeeJob))
    else some (.keep sh (l.goto .reserve))
  | .copyFeeJob =>
    if sh.m_feeJob.job_id = [] then some (.keep sh (l.goto .switch))
    else some (.keep sh ⟨.reserveFee l.m_currentJob, sh.m_feeJob⟩)
  | .reserveFee originJob =>
    some (.act sh (.reserve true NONCE_INTERVAL)
      (l.enter search (some originJob) ((sh.nonceCtl true).nextNonce NONCE_INTERVAL).2))
  | .reserve =>
    some (.act sh (.reserve false NONCE_INTERVAL)
      (l.enter search none ((sh.nonceCtl false).nextNonce NONCE_INTERVAL).2))
  | .search originJob nonce last =>
    if nonce ≤ last ∧ sh.m_state = .Mining then some (.keep sh (l.goto (.hash originJob nonce last)))
    else some (.keep sh (l.leave originJob))
  | .hash originJob nonce last =>
    let tried := search.tryNonce l.m_currentJob nonce
    let next := ⟨.search originJob ((nonce + 1) % search.modulus) last, tried.1⟩
    match tried.2 with
    | some hash =>
      some (.act sh (.postEvent
        ⟨tried.1.job_id, nonce, hash, search.feeFlag originJob.isSome⟩) next)
    | none => some (.keep sh next)

/-- Where the loop goes on after it has only looked at something. -/
inductive Goes (sh : Shared) (inp : Input) (job : MiningJob) : CpuPc → CpuPc → Prop where
  | exit (hm : sh.m_state = .Exit) : Goes sh inp job .switch .idle
  | update (hm : sh.m_state = .UpdateJob) : Goes sh inp job .switch .copyJob
  | mine (hexit : sh.m_state ≠ .Exit) (hupdate : sh.m_state ≠ .UpdateJob) :
    Goes sh inp job .switch .draw
  | exitCopied (hm : sh.m_state = .Exit) : Goes sh inp job .checkExit .idle
  | noJob (hm : sh.m_state ≠ .Exit) (hid : job.job_id = []) : Goes sh inp job .checkExit .switch
  | job (hm : sh.m_state ≠ .Exit) (hid : job.job_id ≠ []) : Goes sh inp job .checkExit .setMining
  | drawFee (hdraw : (sh.m_fee && inp.lucky) = true) : Goes sh inp job .draw .copyFeeJob
  | draw (hdraw : ¬ (sh.m_fee && inp.lucky) = true) : Goes sh inp job .draw .reserve
  | noFeeJob (hid : sh.m_feeJob.job_id = []) : Goes sh inp job .copyFeeJob .switch
  | nonce {originJob : Option MiningJob} {nonce last : Nat} (hlast : nonce ≤ last)
    (hm : sh.m_state = .Mining) :
    Goes sh inp job (.search originJob nonce last) (.hash originJob nonce last)

/-- The steps of the loop. -/
inductive Step (search : Search) (sh : Shared) (inp : Input) : CpuLoop → Result CpuLoop → Prop where
  | goes {pc pc' : CpuPc} {job : MiningJob} (hgoes : Goes sh inp job pc pc') :
    Step search sh inp ⟨pc, job⟩ (.keep sh ⟨pc', job⟩)
  | entry (job : MiningJob) : Step search sh inp ⟨.entry, job⟩ (.store .UpdateJob ⟨.switch, job⟩)
  | copyJob (job : MiningJob) :
    Step search sh inp ⟨.copyJob, job⟩ (.keep sh ⟨.checkExit, sh.m_job⟩)
  | setMining (job : MiningJob) :
    Step search sh inp ⟨.setMining, job⟩ (.store .Mining ⟨.draw, job⟩)
  | copyFeeJob (job : MiningJob) (hid : sh.m_feeJob.job_id ≠ []) :
    Step search sh inp ⟨.copyFeeJob, job⟩ (.keep sh ⟨.reserveFee job, sh.m_feeJob⟩)
  | reserveFee (originJob job : MiningJob) :
    Step search sh inp ⟨.reserveFee originJob, job⟩ (.act sh (.reserve true NONCE_INTERVAL)
      (enter ⟨.reserveFee originJob, job⟩ search (some originJob)
        ((sh.nonceCtl true).nextNonce NONCE_INTERVAL).2))
  | reserve (job : MiningJob) :
    Step search sh inp ⟨.reserve, job⟩ (.act sh (.reserve false NONCE_INTERVAL)
      (enter ⟨.reserve, job⟩ search none ((sh.nonceCtl false).nextNonce NONCE_INTERVAL).2))
  | leave (originJob : Option MiningJob) (nonce last : Nat) (job : MiningJob) :
    Step search sh inp ⟨.search originJob nonce last, job⟩
      (.keep sh ⟨.switch, originJob.getD job⟩)
  | found (originJob : Option MiningJob) (nonce last : Nat) (job : MiningJob) {hash : QByteArray}
    (hhash : (search.tryNonce job nonce).2 = some hash) :
    Step search sh inp ⟨.hash originJob nonce last, job⟩ (.act sh
      (.postEvent ⟨(search.tryNonce job nonce).1.job_id, nonce, hash,
        search.feeFlag originJob.isSome⟩)
      ⟨.search originJob ((nonce + 1) % search.modulus) last, (search.tryNonce job nonce).1⟩)
  | missed (originJob : Option MiningJob) (nonce last : Nat) (job : MiningJob)
    (hhash : (search.tryNonce job nonce).2 = none) :
    Step search sh inp ⟨.hash originJob nonce last, job⟩ (.keep sh
      ⟨.search originJob ((nonce + 1) % search.modulus) last, (search.tryNonce job nonce).1⟩)

theorem step_cases {search : Search} {sh : Shared} {l : CpuLoop} {inp : Input}
    {r : Result CpuLoop} (h : l.step search sh inp = some r) : Step search sh inp l r := by
  obtain ⟨pc, job⟩ := l
  cases pc with
  | idle => cases h
  | entry =>
    cases h
    exact .entry job
  | switch =>
    cases hm : sh.m_state <;> simp only [step, hm] at h <;> cases h
    · exact .goes (.mine (by simp [hm]) (by simp [hm]))
    · exact .goes (.exit hm)
    · exact .goes (.update hm)
    · exact .goes (.mine (by simp [hm]) (by simp [hm]))
  | copyJob =>
    cases h
    exact .copyJob job
  | checkExit =>
    simp only [step] at h
    split at h
    case isTrue hm =>
      cases h
      exact .goes (.exitCopied hm)
    case isFalse hm =>
      split at h
      case isTrue hid =>
        cases h
        exact .goes (.noJob hm hid)
      case isFalse hid =>
        cases h
        exact .goes (.job hm hid)
  | setMining =>
    cases h
    exact .setMining job
  | draw =>
    simp only [step] at h
    split at h
    case isTrue hdraw =>
      cases h
      exact .goes (.drawFee hdraw)
    case isFalse hdraw =>
      cases h
      exact .goes (.draw hdraw)
  | copyFeeJob =>
    simp only [step] at h
    split at h
    case isTrue hid =>
      cases h
      exact .goes (.noFeeJob hid)
    case isFalse hid =>
      cases h
      exact .copyFeeJob job hid
  | reserveFee originJob =>
    cases h
    exact .reserveFee originJob job
  | reserve =>
    cases h
    exact .reserve job
  | search originJob nonce last =>
    simp only [step] at h
    split at h
    case isTrue hnonce =>
      cases h
      exact .goes (.nonce hnonce.1 hnonce.2)
    case isFalse =>
      cases h
      exact .leave originJob nonce last job
  | hash originJob nonce last =>
    simp only [step] at h
    split at h
    case h_1 hash hhash =>
      cases h
      exact .found originJob nonce last job hhash
    case h_2 hhash =>
      cases h
      exact .missed originJob nonce last job hhash

def originJob (l : CpuLoop) : Option MiningJob :=
  match l.pc with
  | .reserveFee originJob => some originJob
  | .search originJob _ _ => originJob
  | .hash originJob _ _ => originJob
  | _ => none

def view (l : CpuLoop) : View where
  main := some (l.originJob.getD l.m_currentJob)
  fee := l.originJob.map fun _ => l.m_currentJob
  storesMining := l.pc = .setMining

@[simp] theorem held_view (l : CpuLoop) (fee : Bool) : l.view.held fee =
    if fee then l.originJob.map fun _ => l.m_currentJob
    else some (l.originJob.getD l.m_currentJob) :=
  rfl

theorem step_spec {search : Search} {sh : Shared} {l : CpuLoop} {inp : Input}
    {r : Result CpuLoop} (h : l.step search sh inp = some r) :
    StepSpec sh l.view r.loop.view r.m_state := by
  cases step_cases h with
  | goes hgoes =>
    refine .of_held (fun fee => Or.inl ?_) (Or.inl rfl)
    cases hgoes <;> cases fee <;> rfl
  | entry job =>
    refine .of_held (fun fee => Or.inl ?_) (Or.inr (Or.inl MinerThreadState.noConfusion))
    cases fee <;> rfl
  | copyJob job => exact .of_job false rfl (Or.inl (.refl sh.m_job)) (Or.inr rfl)
  | setMining job =>
    refine .of_held (fun fee => Or.inl ?_) (Or.inr (Or.inr rfl))
    cases fee <;> rfl
  | copyFeeJob job hid => exact .of_job true rfl (Or.inl (.refl sh.m_feeJob)) (Or.inl rfl)
  | reserveFee origin job | reserve job =>
    refine .of_held (fun fee => Or.inl ?_) (Or.inl rfl)
    cases fee <;> rfl
  | leave origin nonce last job =>
    refine .of_held (fun fee => ?_) (Or.inl rfl)
    cases fee
    · exact Or.inl rfl
    · exact Or.inr rfl
  | found origin nonce last job hhash | missed origin nonce last job hhash =>
    have hagrees := search.agrees job nonce
    cases origin with
    | none => exact .of_job false rfl (Or.inr ⟨job, rfl, hagrees⟩) (Or.inr rfl)
    | some origin => exact .of_job true rfl (Or.inr ⟨job, rfl, hagrees⟩) (Or.inl rfl)

/-- The job of which the next step can post a share. -/
def reports (l : CpuLoop) (search : Search) (fee : Bool) : Option MiningJob :=
  match l.pc with
  | .hash originJob _ _ =>
    if search.feeFlag originJob.isSome = fee then some l.m_currentJob else none
  | _ => none

theorem reports_held {l : CpuLoop} {search : Search} {fee : Bool} {j : MiningJob}
    (hflag : ∀ b, search.feeFlag b = b) (h : j ∈ l.reports search fee) : j ∈ l.view.held fee := by
  obtain ⟨pc, job⟩ := l
  cases pc with
  | hash origin nonce last =>
    obtain ⟨hfee, hjob⟩ := Option.ite_none_right_eq_some.mp h
    cases hjob
    rw [← hfee, hflag]
    cases origin <;> rfl
  | _ => cases h

theorem step_action {search : Search} {sh : Shared} {l : CpuLoop} {inp : Input}
    {r : Result CpuLoop} (h : l.step search sh inp = some r) :
    r.action.Of (· = NONCE_INTERVAL) (l.reports search) fun job nonce =>
      (search.tryNonce job nonce).2 := by
  cases step_cases h with
  | reserveFee origin job => exact .reserve true rfl
  | reserve job => exact .reserve false rfl
  | found origin nonce last job hhash =>
    exact .postEvent (show job ∈ _ from if_pos rfl) (search.agrees job nonce).1 hhash
  | _ => exact .none

end CpuLoop
end MinerGate
