import MinerGate.Pool.EthereumJobs

/-!
# The worker id of the Ethereum pool

`login` keeps the id of its reply as a text. `setNewJob` reads the id of every list as an `int` and
assigns that to the `QString`, unless it is 0.
-/

namespace MinerGate

set_option autoImplicit false

/-- `QVariant::toString`, where a null string is an empty one. -/
def Json.text (v : Json) : String := v.variantToString.getD ""

/-- A number that is not an integer is not written with one character. -/
def Json.Written : Json → Prop
  | .frac _ text => text.length ≠ 1
  | _ => True

namespace Pool.PoolClient

open JsonRpc QByteArray Transition

theorem toNat_ofNat {k : Nat} (h : k < 256) : (Char.ofNat k).toNat = k := by
  have hvalid : k.isValidChar := Or.inl (by omega)
  rw [Char.ofNat, dif_pos hvalid]
  rfl

theorem repr_eq_singleton {n : Nat} {c : Char} (h : n.repr = String.singleton c) :
    c.isDigit = true ∧ n = c.toNat - 48 := by
  have hdigits := congrArg String.toList h
  rw [Nat.toList_repr, String.toList_singleton] at hdigits
  have hmem : c ∈ Nat.toDigits 10 n := by
    rw [hdigits]
    exact List.mem_cons_self
  have hvalue := Nat.ofDigitChars_ten_toDigits (n := n)
  rw [hdigits] at hvalue
  refine ⟨Nat.isDigit_of_mem_toDigits (by decide) (by decide) hmem, ?_⟩
  simpa [Nat.ofDigitChars] using hvalue.symm

theorem toNat_of_isDigit {c : Char} (h : c.isDigit = true) : 48 ≤ c.toNat ∧ c.toNat ≤ 57 := by
  simp only [Char.isDigit, Bool.and_eq_true, decide_eq_true_eq] at h
  exact ⟨h.1, h.2⟩

/-- No text is the character that its own number is assigned as. -/
theorem workerIdText_ne {c : Char} {n : Int} (hdigit : c.isDigit = true)
    (hn : n = (c.toNat - 48 : Nat)) : String.singleton c ≠ workerIdText n := by
  intro h
  obtain ⟨hlow, hhigh⟩ := toNat_of_isDigit hdigit
  have hchar : c = Char.ofNat (n % 256).toNat := by
    have hlist := congrArg String.toList h
    rw [workerIdText, String.toList_singleton, String.toList_singleton] at hlist
    exact List.head_eq_of_cons_eq hlist
  have hcode := congrArg Char.toNat hchar
  rw [toNat_ofNat (by omega)] at hcode
  omega

theorem wrapInt_of_lt {n : Int} (hlow : 0 ≤ n) (hhigh : n < 2147483648) : Json.wrapInt n = n := by
  unfold Json.wrapInt
  omega

theorem trimmed_singleton (c : Char) :
    trimmed [c] = if c.isWhitespace = true then [] else [c] := by
  cases hblank : c.isWhitespace with
  | true => simp [trimmed, hblank]
  | false => simp [trimmed, hblank]

/-- `toLongLong` reads a number from what is left after the sign. -/
theorem toLongLong_digits (s : String) : ∃ (negative : Bool) (digits : List Char),
    (trimmed s.toList = '-' :: digits ∨ digits = withoutPlus (trimmed s.toList) ∧
      negative = false) ∧
    toLongLong s = if digits ≠ [] ∧ digits.all Char.isDigit = true then
        if negative = true ∧ Nat.ofDigitChars 10 digits 0 ≤ 9223372036854775808 then
          -(Nat.ofDigitChars 10 digits 0 : Int)
        else if Nat.ofDigitChars 10 digits 0 < 9223372036854775808 then
          (Nat.ofDigitChars 10 digits 0 : Int)
        else 0
      else 0 := by
  rw [toLongLong]
  split
  case h_1 negative digits hsign =>
    refine ⟨negative, digits, ?_, rfl⟩
    split at hsign
    case h_1 ds htrim =>
      cases hsign
      exact Or.inl htrim
    case h_2 =>
      cases hsign
      exact Or.inr ⟨rfl, rfl⟩

theorem withoutPlus_singleton (c : Char) : withoutPlus [c] = [c] ∨ withoutPlus [c] = [] := by
  rw [withoutPlus.eq_def]
  split
  case h_1 ds heq =>
    rw [← List.tail_eq_of_cons_eq heq]
    exact Or.inr rfl
  case h_2 => exact Or.inl rfl

/-- One character that is not read as 0 is a digit. -/
theorem toLongLong_singleton {c : Char} (h : toLongLong (String.singleton c) ≠ 0) :
    c.isDigit = true ∧ toLongLong (String.singleton c) = (c.toNat - 48 : Nat) := by
  obtain ⟨negative, digits, hdigits, hvalue⟩ := toLongLong_digits (String.singleton c)
  rw [String.toList_singleton, trimmed_singleton] at hdigits
  have hread : digits = [] ∨ digits = [c] ∧ negative = false := by
    by_cases hblank : c.isWhitespace = true
    · rw [if_pos hblank] at hdigits
      rcases hdigits with hminus | ⟨hplus, -⟩
      · cases hminus
      · exact Or.inl hplus
    · rw [if_neg hblank] at hdigits
      rcases hdigits with hminus | ⟨hplus, hpositive⟩
      · exact Or.inl (List.tail_eq_of_cons_eq hminus).symm
      · rcases withoutPlus_singleton c with hsame | hnil
        · exact Or.inr ⟨hplus.trans hsame, hpositive⟩
        · exact Or.inl (hplus.trans hnil)
  rcases hread with rfl | ⟨rfl, rfl⟩
  · exact absurd hvalue h
  · by_cases hdigit : c.isDigit = true
    · obtain ⟨hlow, hhigh⟩ := toNat_of_isDigit hdigit
      have hnumber : Nat.ofDigitChars 10 [c] 0 = c.toNat - 48 := by simp [Nat.ofDigitChars]
      rw [if_pos ⟨List.cons_ne_nil c [], by simp [hdigit]⟩, hnumber,
        if_neg (by rintro ⟨hneg, -⟩; cases hneg), if_pos (by omega)] at hvalue
      exact ⟨hdigit, hvalue⟩
    · rw [if_neg (by simp [hdigit])] at hvalue
      exact absurd hvalue h

theorem text_ne_workerIdText {v : Json} (hv : v.Written) (hint : v.variantToInt ≠ 0) :
    v.text ≠ workerIdText v.variantToInt := by
  intro h
  cases v with
  | null | arr | obj => exact hint rfl
  | bool b =>
    have hlength := congrArg String.length h
    cases b with
    | true => cases hlength
    | false => cases hlength
  | frac nearest text =>
    have hlength := congrArg String.length h
    exact hv (hlength.trans (String.length_singleton))
  | str s =>
    have hsingle : s = workerIdText (Json.wrapInt (toLongLong s)) := h
    obtain ⟨c, hc⟩ : ∃ c, s = String.singleton c := ⟨_, hsingle⟩
    have hvalue : toLongLong (String.singleton c) ≠ 0 := by
      intro hzero
      apply hint
      show Json.wrapInt (toLongLong s) = 0
      rw [hc, hzero]
      decide
    obtain ⟨hdigit, hnumber⟩ := toLongLong_singleton hvalue
    obtain ⟨hlow, hhigh⟩ := toNat_of_isDigit hdigit
    rw [hc, hnumber, wrapInt_of_lt (by omega) (by omega)] at hsingle
    exact workerIdText_ne hdigit rfl hsingle
  | int n =>
    have hsingle : ToString.toString n = workerIdText (Json.wrapInt n) := h
    cases n with
    | ofNat m =>
      obtain ⟨c, hc⟩ : ∃ c, m.repr = String.singleton c := ⟨_, hsingle⟩
      obtain ⟨hdigit, hnumber⟩ := repr_eq_singleton hc
      obtain ⟨hlow, hhigh⟩ := toNat_of_isDigit hdigit
      have hsmall : Json.wrapInt (Int.ofNat m) = (c.toNat - 48 : Nat) := by
        rw [hnumber]
        exact wrapInt_of_lt (Int.natCast_nonneg _) (show ((c.toNat - 48 : Nat) : Int) < _ by omega)
      rw [hsmall] at hsingle
      exact workerIdText_ne hdigit rfl (hc.symm.trans hsingle)
    | negSucc m =>
      have hlist := congrArg String.toList hsingle
      change ("-" ++ (m + 1).repr).toList = _ at hlist
      rw [workerIdText, String.toList_singleton, String.toList_append, Nat.toList_repr] at hlist
      have hnil := List.tail_eq_of_cons_eq hlist
      exact Nat.toDigits_ne_nil hnil

/-- A list that the pool sends after the login: a notification `eth_work` or a reply to
`eth_getWork`. -/
inductive JobMessage where
  | work (params : List Json)
  | getWork (params : List Json)

def JobMessage.params : JobMessage → List Json
  | .work params => params
  | .getWork params => params

def JobMessage.invocation : JobMessage → Invocation
  | .work params => .notification "eth_work" (.arr params)
  | .getWork params => .response "eth_getWork" (.arr params)

def receive (s : Client) (m : JobMessage) : Option Client := invoke s m.invocation

/-- The text of the id that was given last; before the messages it is `w`. -/
def lastGiven (w : String) (ms : List JobMessage) : String :=
  ms.foldl (fun last m => ((m.params[PWorkerId]?).map Json.text).getD last) w

/-- The requests of `updateJob` and `submitShare` have this id. -/
structure Sends (s : Client) (id : String) : Prop where
  updateJob : updateJob s = s.request "eth_getWork" (.obj [("id", .str id)])
  submitShare : ∀ headerHash nonce mixHash, submitShare s headerHash nonce mixHash ≠ s →
    submitShare s headerHash nonce mixHash =
      s.request "eth_submitWork" (.arr [.str (toHex (bigEndian 8 nonce)), .str (toHex headerHash),
        .str (toHex mixHash), .str id])

variable {s t : Client} {params : List Json} {m : JobMessage} {ms : List JobMessage}

theorem sends_iff (s : Client) (id : String) : Sends s id ↔ s.session.getD "" = id := by
  constructor
  · intro h
    have hcalls := congrArg Client.calls h.updateJob
    have hcall := List.append_cancel_left hcalls
    injection hcall with hcall
    injection hcall with _ _ hargs
    injection hargs with hentries
    injection hentries with hentry
    injection hentry with _ hvalue
    injection hvalue
  · rintro rfl
    refine ⟨rfl, fun headerHash nonce mixHash hsends => ?_⟩
    unfold PoolClient.submitShare at hsends ⊢
    split at hsends
    · exact absurd rfl hsends
    · rename_i hid
      rw [if_neg hid]

theorem session_jobEmitted (s : Client) (params : List Json) :
    (jobEmitted s params).session =
      if workerIdOf params ≠ 0 then some (workerIdText (workerIdOf params)) else s.session := by
  unfold jobEmitted
  split
  · rfl
  · rfl

theorem session_call {slot : JobSlot} (h : slot.call s params = some t) : t.session =
    if workerIdOf params ≠ 0 then some (workerIdText (workerIdOf params))
    else (slot.before s params).session := by
  rcases slot.call_cases s params with ⟨-, hcall⟩ | ⟨-, hcall⟩
  · rw [hcall, Option.some.injEq] at h
    rw [← h]
    exact session_jobEmitted _ params
  · rw [hcall] at h
    cases h

/-- After a list with an id the client sends that id if it does not read as a number, and if the
client has had it before `setNewJob`. -/
theorem session_of_id {slot : JobSlot} {v : Json} (h : slot.call s params = some t)
    (hid : params[PWorkerId]? = some v) (hv : v.Written) :
    t.session.getD "" = v.text ↔
      v.variantToInt = 0 ∧ (slot.before s params).session.getD "" = v.text := by
  have hint : workerIdOf params = v.variantToInt := by
    rw [workerIdOf, hid]
    rfl
  rw [session_call h, hint]
  by_cases hzero : v.variantToInt = 0
  · rw [if_neg (not_not.mpr hzero)]
    exact ⟨fun hsame => ⟨hzero, hsame⟩, fun hboth => hboth.2⟩
  · rw [if_pos hzero]
    constructor
    · intro hsame
      exact absurd hsame.symm (text_ne_workerIdText hv hzero)
    · intro hboth
      exact absurd hboth.1 hzero

theorem receive_eq (s : Client) (m : JobMessage) :
    receive s m = JobSlot.getjob.call s m.params := by
  cases m with
  | work params => rfl
  | getWork params => rfl

/-- The id of a message, if it has one, is the text `w` and no number. -/
def GivesText (w : String) (m : JobMessage) : Prop :=
  ∀ v, m.params[PWorkerId]? = some v → v.variantToInt = 0 ∧ v.text = w

def IdWritten (m : JobMessage) : Prop := ∀ v, m.params[PWorkerId]? = some v → v.Written

theorem receive_keeps_iff (h : receive s m = some t) (hm : IdWritten m) :
    t.session.getD "" = lastGiven (s.session.getD "") [m] ↔ GivesText (s.session.getD "") m := by
  rw [receive_eq] at h
  unfold lastGiven GivesText
  rw [List.foldl_cons, List.foldl_nil]
  cases hid : m.params[PWorkerId]? with
  | none =>
    have hint : workerIdOf m.params = 0 := by
      rw [workerIdOf, hid]
      rfl
    rw [session_call h, hint]
    simp [JobSlot.before]
  | some v =>
    rw [Option.map_some, Option.getD_some, session_of_id h hid (hm v hid)]
    constructor
    · rintro ⟨hzero, hsame⟩ v' hv'
      cases hv'
      exact ⟨hzero, hsame.symm⟩
    · intro hgives
      obtain ⟨hzero, hsame⟩ := hgives v rfl
      exact ⟨hzero, hsame.symm⟩

theorem lastGiven_of_givesText {w : String} (h : GivesText w m) : lastGiven w [m] = w := by
  unfold lastGiven
  rw [List.foldl_cons, List.foldl_nil]
  cases hid : m.params[PWorkerId]? with
  | none => rfl
  | some v => exact (h v hid).2

/-- All along a sequence of messages the client sends the id given last, exactly when all ids are
the one it begins with. -/
theorem exec_keeps_iff (hrun : exec receive s ms = some t) (hms : ∀ m ∈ ms, IdWritten m) :
    (∀ fs u, fs <+: ms → exec receive s fs = some u →
      u.session.getD "" = lastGiven (s.session.getD "") fs) ↔
        ∀ m ∈ ms, GivesText (s.session.getD "") m := by
  induction ms generalizing s with
  | nil =>
    refine iff_of_true (fun fs u hfs hu => ?_) (fun m hm => by cases hm)
    rw [List.prefix_nil.mp hfs, exec_nil, Option.some.injEq] at hu
    rw [List.prefix_nil.mp hfs, ← hu]
    rfl
  | cons m ms ih =>
    obtain ⟨s', hs', hrun⟩ := exec_cons.mp hrun
    have hfirst := receive_keeps_iff hs' (hms m List.mem_cons_self)
    have hrest := ih hrun fun m' hm' => hms m' (List.mem_cons_of_mem m hm')
    constructor
    · intro h
      have hgives : GivesText (s.session.getD "") m :=
        hfirst.mp (h [m] s' (List.prefix_append [m] ms) (exec_cons.mpr ⟨s', hs', rfl⟩))
      have hsame : s'.session.getD "" = s.session.getD "" :=
        (hfirst.mpr hgives).trans (lastGiven_of_givesText hgives)
      rw [hsame] at hrest
      refine List.forall_mem_cons.mpr ⟨hgives, hrest.mp fun fs u hfs hu => ?_⟩
      have hwhole := h (m :: fs) u (List.cons_prefix_cons.mpr ⟨rfl, hfs⟩)
        (exec_cons.mpr ⟨s', hs', hu⟩)
      rw [hwhole]
      exact congrArg (lastGiven · fs) (lastGiven_of_givesText hgives)
    · intro h fs u hfs hu
      obtain ⟨hgives, hall⟩ := List.forall_mem_cons.mp h
      have hsame : s'.session.getD "" = s.session.getD "" :=
        (hfirst.mpr hgives).trans (lastGiven_of_givesText hgives)
      rw [hsame] at hrest
      cases fs with
      | nil =>
        rw [exec_nil, Option.some.injEq] at hu
        rw [← hu]
        rfl
      | cons m' fs =>
        obtain ⟨rfl, hprefix⟩ := List.cons_prefix_cons.mp hfs
        obtain ⟨v, hv, hu⟩ := exec_cons.mp hu
        cases hs'.symm.trans hv
        rw [hrest.mpr hall fs u hprefix hu]
        exact (congrArg (lastGiven · fs) (lastGiven_of_givesText hgives)).symm

/-- After a login reply with the worker id `w`, the client sends the id given last all along the
messages exactly when `w` is no number and every later id is `w` again. -/
theorem worker_id_kept_iff (s t u : Client) (params : List Json) (w : Json) (ms : List JobMessage)
    (hid : params[PWorkerId]? = some w)
    (hlogin : invoke s (.response "login" (.arr params)) = some t)
    (hrun : exec receive t ms = some u)
    (hwritten : w.Written ∧ ∀ m ∈ ms, IdWritten m) :
    (∀ fs v, fs <+: ms → exec receive t fs = some v → Sends v (lastGiven w.text fs)) ↔
      w.variantToInt = 0 ∧ ∀ m ∈ ms, GivesText w.text m := by
  have hcall : JobSlot.login.call s params = some t := hlogin
  have hbefore : (JobSlot.login.before s params).session.getD "" = w.text := by
    show ((params[PWorkerId]?).bind Json.variantToString).getD "" = w.text
    rw [hid]
    rfl
  have hfirst := session_of_id hcall hid hwritten.1
  simp only [sends_iff]
  constructor
  · intro h
    have hsame : t.session.getD "" = w.text := h [] t List.nil_prefix rfl
    refine ⟨(hfirst.mp hsame).1, ?_⟩
    rw [← hsame] at h ⊢
    exact (exec_keeps_iff hrun hwritten.2).mp h
  · rintro ⟨hzero, hall⟩
    have hsame : t.session.getD "" = w.text := hfirst.mpr ⟨hzero, hbefore⟩
    rw [← hsame] at hall ⊢
    exact (exec_keeps_iff hrun hwritten.2).mpr hall

/-- A job, and a login reply with the same job and this worker id. -/
def jobList : List Json := hashes (.replicate 32 1) (.replicate 32 1)

def loginReply (w : Json) : List Json := jobList ++ [w]

theorem readable_jobList : Readable JobSlot.getjob.entries jobList := by
  refine ⟨entries_hashes _ _, ?_, ?_⟩
  · rw [jobList, (hashBytes_hashes _ _).2]
    decide
  · rw [jobList, boundaryOf_hashes]
    decide

theorem readable_loginReply (w : Json) : Readable JobSlot.login.entries (loginReply w) := by
  have hboundary : hashBytes (loginReply w) PBoudary = hashBytes jobList PBoudary := rfl
  refine ⟨?_, ?_, ?_⟩
  · rw [loginReply, List.length_append]
    exact Nat.succ_le_succ (entries_hashes _ _)
  · rw [hboundary]
    exact readable_jobList.boundary
  · rw [boundaryOf, hboundary]
    exact readable_jobList.divisor

/-- A worker id that is a name is sent after a job without an id. -/
theorem worker_name_sent : ∃ t u,
    invoke client (.response "login" (.arr (loginReply (.str "rig")))) = some t ∧
      exec receive t [.work jobList] = some u ∧ Sends u "rig" := by
  obtain ⟨t, ht⟩ := call_isSome (s := client) (readable_loginReply (.str "rig"))
  obtain ⟨u, hu⟩ := call_isSome (s := t) readable_jobList
  have hrun : exec receive t [.work jobList] = some u := exec_cons.mpr ⟨u, hu, rfl⟩
  have hnone : ∀ m ∈ [JobMessage.work jobList], m.params[PWorkerId]? = none := by
    intro m hm
    rw [List.mem_singleton.mp hm]
    rfl
  have hsends := (worker_id_kept_iff client t u (loginReply (.str "rig")) (.str "rig")
    [.work jobList] rfl ht hrun ⟨trivial, fun m hm v hv => by rw [hnone m hm] at hv; cases hv⟩).mpr
    ⟨by decide, fun m hm v hv => by rw [hnone m hm] at hv; cases hv⟩
  exact ⟨t, u, ht, hrun, hsends [.work jobList] u (List.prefix_refl _) hrun⟩

/-- The worker id 7 is sent as the character with that code. -/
theorem numeric_worker_id_lost :
    ¬ ∀ (s t u : Client) (params : List Json) (w : Json) (ms : List JobMessage),
      params[PWorkerId]? = some w → invoke s (.response "login" (.arr params)) = some t →
      exec receive t ms = some u → (w.Written ∧ ∀ m ∈ ms, IdWritten m) →
      Sends u (lastGiven w.text ms) := by
  intro h
  obtain ⟨t, ht⟩ := call_isSome (s := client) (readable_loginReply (.int 7))
  have hsends := h client t t (loginReply (.int 7)) (.int 7) [] rfl ht rfl
    ⟨trivial, fun m hm => by cases hm⟩
  obtain ⟨hzero, -⟩ := (session_of_id ht rfl trivial).mp ((sends_iff t _).mp hsends)
  exact absurd hzero (by decide)

end Pool.PoolClient
end MinerGate
