import MinerGate.Lib.KeyedUpdates
import MinerGate.Lib.Transition
import MinerGate.Qt.QString

/-!
# The logger

The main log and one log for every channel are text streams over files that stay open. A timer
rotates the files that have become large: each is closed, renamed, and opened anew. The calls on the
file system may fail, and what a failed one leaves is what the next message is written to.
-/

namespace MinerGate.Logger

set_option autoImplicit false

open KeyedUpdates Transition

def MAX_LOG_SIZE : Nat := 50 * 1024 * 1024

/-- What the build and the Qt library supply: whether debug messages are compiled in, the lower case
of a string, and the path of a file in the directory of the logs. -/
structure Env where
  QT_DEBUG : Bool
  toLower : QString → QString
  absoluteFilePath : QString → QString

structure QFile where
  fileName : QString
  isOpen : Bool
deriving DecidableEq, Repr

/-- The file object that a stream writes to. -/
inductive Device where
  | main
  | channel (name : QString)
deriving DecidableEq, Repr

/-- The pointer to a stream; `none` is null. -/
abbrev TextStreamPtr := Option Device

structure LoggerPrivate where
  m_log_file : QFile
  m_log_stream : TextStreamPtr
  m_log_channels : AList fun _ : QString => QFile × TextStreamPtr
  m_disable_log_files : Bool

/-- What the calls of one rotation find and whether they succeed. -/
structure RotateCalls where
  size : Nat
  oldExists : Bool
  remove : Bool
  rename : Bool
  opens : Bool
deriving DecidableEq, Repr

/-- The channel name of the main log. -/
def minergate : QString := "minergate".toList

section Files
variable (env : Env)

def logName (channelName : QString) : QString :=
  env.absoluteFilePath (QString.arg "%1.log".toList channelName)

/-- The file is named and opened; a stream is made only when that succeeds. -/
def resetLogFile (opens : Bool) (file : QFile) (stream : TextStreamPtr) (dev : Device)
    (channelName : QString) : Bool × QFile × TextStreamPtr :=
  let named : QFile := { file with fileName := logName env channelName }
  if opens then (true, { named with isOpen := true }, some dev) else (false, named, stream)

def checkRotate (calls : RotateCalls) (file : QFile) (stream : TextStreamPtr) (dev : Device)
    (channel : QString) : Bool × QFile × TextStreamPtr :=
  if calls.size < MAX_LOG_SIZE then (false, file, stream)
  else
    let closed : QFile := { file with isOpen := false }
    let secondFile := closed.fileName ++ ".old".toList
    if calls.oldExists ∧ ¬ calls.remove then (false, closed, none)
    else
      let renamed := if calls.rename then { closed with fileName := secondFile } else closed
      (true, (resetLogFile env calls.opens renamed none dev channel).2)

/-- One round of the loop over the channels: the file is the one in the map, the stream is put there
after a rotation only. -/
def rotateChannel (calls : QString → RotateCalls) (channel : QString)
    (pair : QFile × TextStreamPtr) : QFile × TextStreamPtr :=
  let newStream : TextStreamPtr := none
  let r := checkRotate env (calls channel) pair.1 newStream (.channel channel) channel
  (r.2.1, if r.1 then r.2.2 else pair.2)

def timerEvent (d : LoggerPrivate) (main : RotateCalls) (channels : QString → RotateCalls) :
    LoggerPrivate :=
  if d.m_disable_log_files then d
  else
    let r := checkRotate env main d.m_log_file d.m_log_stream .main minergate
    { d with
      m_log_file := r.2.1
      m_log_stream := r.2.2
      m_log_channels :=
        updateAll (rotateChannel env channels) d.m_log_channels.keys d.m_log_channels }

/-- The key of a channel: two coins have other names. -/
def channelKey (channel : QString) : QString :=
  let channel := env.toLower channel
  if channel = "mro".toList then "xmr".toList
  else if channel = "duck".toList then "xdn".toList
  else channel

/-- The stream for a channel; `opens` is the outcome for a file that is not open yet. -/
def getStream (d : LoggerPrivate) (channel : QString) (opens : Bool) :
    TextStreamPtr × LoggerPrivate :=
  if channel = [] then (d.m_log_stream, d)
  else
    let key := channelKey env channel
    match d.m_log_channels.lookup key with
    | some pair => (pair.2, d)
    | none =>
      let r := resetLogFile env opens ⟨logName env key, false⟩ none (.channel key) key
      if r.1 then
        (r.2.2, { d with m_log_channels := d.m_log_channels.insert key r.2 })
      else (d.m_log_stream, d)

/-- The constructor; `opens` is whether the main log can be opened. -/
def init (opens : Bool) : LoggerPrivate :=
  let r := resetLogFile env opens ⟨[], false⟩ none .main minergate
  ⟨r.2.1, r.2.2, ∅, false⟩

end Files

/-- The file object behind a device. -/
def fileOf (d : LoggerPrivate) : Device → Option QFile
  | .main => some d.m_log_file
  | .channel key => (d.m_log_channels.lookup key).map (·.1)

inductive Level where
  | debug
  | info
  | warning
  | critical
  | fatal
deriving DecidableEq, Repr

def Level.category : Level → QString
  | .debug => "debug".toList
  | .info => "info".toList
  | .warning => "warn".toList
  | .critical => "error".toList
  | .fatal => "fatal".toList

def createLogString (date log_cat msg : QString) : QString :=
  QString.arg (QString.arg (QString.arg "[%1] [%2]  %3".toList date) (log_cat.leftpad 5 ' ')) msg

/-- A call of `debug`, `info`, `warning`, `critical` or `fatal`, and the outcome of opening the file
of its channel. -/
structure LogCall where
  level : Level
  channel : QString
  msg : QString
  date : QString
  opens : Bool
deriving DecidableEq, Repr

def LogCall.line (call : LogCall) : QString :=
  createLogString call.date call.level.category call.msg

/-- The state of a run: `written` has every line that came to an open file, under the name of this
file. -/
structure Run where
  d : LoggerPrivate
  written : List (QString × QString)
  running : Bool

inductive Event where
  | log (call : LogCall)
  | timer (main : RotateCalls) (channels : QString → RotateCalls)
  | disableLogFiles (disable : Bool)

section Steps
variable (env : Env) (s : Run)

/-- `*getStream(_channel.toLower()) << msg << endl`: the process ends at a null stream, and a stream
over a closed file drops the line. -/
def write (call : LogCall) : Run :=
  let r := getStream env s.d (env.toLower call.channel) call.opens
  match r.1 with
  | none => { s with d := r.2, running := false }
  | some dev =>
    match fileOf r.2 dev with
    | some file =>
      if file.isOpen then { s with d := r.2, written := s.written ++ [(file.fileName, call.line)] }
      else { s with d := r.2 }
    | none => { s with d := r.2 }

/-- Whether a call comes to the files. -/
def Logged (call : LogCall) : Prop :=
  (call.level = .debug → env.QT_DEBUG) ∧ ¬ s.d.m_disable_log_files

instance (call : LogCall) : Decidable (Logged env s call) :=
  inferInstanceAs (Decidable ((call.level = .debug → env.QT_DEBUG) ∧ ¬ s.d.m_disable_log_files))

def logMsg (call : LogCall) : Run :=
  let t := if Logged env s call then write env s call else s
  -- `qFatal` ends the process
  if call.level = .fatal then { t with running := false } else t

def step : Event → Option Run
  | .log call => if s.running then some (logMsg env s call) else none
  | .timer main channels =>
    if s.running then some { s with d := timerEvent env s.d main channels } else none
  | .disableLogFiles disable =>
    if s.running then some { s with d := { s.d with m_disable_log_files := disable } } else none

end Steps

section Rotation
variable {env : Env} {calls : RotateCalls} {channels : QString → RotateCalls}
variable {file : QFile} {stream : TextStreamPtr} {pair : QFile × TextStreamPtr} {dev : Device}
variable {channel : QString}

/-- A rotation that is due can remove an old file that is there, and open the log anew. -/
def RotateCalls.Succeeds (calls : RotateCalls) : Prop :=
  MAX_LOG_SIZE ≤ calls.size → (calls.oldExists → calls.remove) ∧ calls.opens

instance : Decidable calls.Succeeds :=
  inferInstanceAs (Decidable (_ → _))

theorem checkRotate_of_lt (h : calls.size < MAX_LOG_SIZE) :
    checkRotate env calls file stream dev channel = (false, file, stream) := by
  rw [checkRotate, if_pos h]

theorem checkRotate_of_succeeds (hsize : MAX_LOG_SIZE ≤ calls.size) (h : calls.Succeeds) :
    checkRotate env calls file stream dev channel =
      (true, ⟨logName env channel, true⟩, some dev) := by
  obtain ⟨hremove, hopens⟩ := h hsize
  have hgoes : ¬ (calls.oldExists ∧ ¬ calls.remove) := fun hfail => hfail.2 (hremove hfail.1)
  simp only [checkRotate, if_neg (Nat.not_lt.mpr hsize), if_neg hgoes, resetLogFile, if_pos hopens]

/-- A failed rotation leaves a closed file and no stream. -/
theorem checkRotate_of_fails (h : ¬ calls.Succeeds) :
    (checkRotate env calls file stream dev channel).2.1.isOpen = false ∧
      (checkRotate env calls file stream dev channel).2.2 = none := by
  rw [RotateCalls.Succeeds, Classical.not_imp] at h
  obtain ⟨hsize, hfails⟩ := h
  rw [checkRotate, if_neg (Nat.not_lt.mpr hsize)]
  split
  · exact ⟨rfl, rfl⟩
  case isFalse hgoes =>
    have hopens : ¬ calls.opens := by
      intro hopens
      refine hfails ⟨fun hold => ?_, hopens⟩
      by_contra hremove
      exact hgoes ⟨hold, hremove⟩
    simp only [resetLogFile, if_neg hopens, and_true]
    split
    · rfl
    · rfl

/-- The stream is there and its file is open. -/
def Live (dev : Device) (pair : QFile × TextStreamPtr) : Prop :=
  pair.1.isOpen = true ∧ pair.2 = some dev

theorem live_checkRotate (hlive : Live dev (file, stream)) (h : calls.Succeeds) :
    Live dev (checkRotate env calls file stream dev channel).2 := by
  rcases Nat.lt_or_ge calls.size MAX_LOG_SIZE with hsize | hsize
  · rw [checkRotate_of_lt hsize]
    exact hlive
  · rw [checkRotate_of_succeeds hsize h]
    exact ⟨rfl, rfl⟩

theorem live_rotateChannel (hlive : Live (.channel channel) pair)
    (h : (channels channel).Succeeds) :
    Live (.channel channel) (rotateChannel env channels channel pair) := by
  rw [rotateChannel]
  rcases Nat.lt_or_ge (channels channel).size MAX_LOG_SIZE with hsize | hsize
  · rw [checkRotate_of_lt hsize]
    exact hlive
  · rw [checkRotate_of_succeeds hsize h]
    exact ⟨rfl, rfl⟩

/-- A channel whose rotation failed has a closed file, behind its old stream or none. -/
theorem rotateChannel_of_fails (hlive : Live (.channel channel) pair)
    (h : ¬ (channels channel).Succeeds) :
    (rotateChannel env channels channel pair).1.isOpen = false ∧
      ∀ dev ∈ (rotateChannel env channels channel pair).2, dev = .channel channel := by
  have hfails : (checkRotate env (channels channel) pair.1 none (.channel channel)
      channel).2.1.isOpen = false ∧ (checkRotate env (channels channel) pair.1 none
        (.channel channel) channel).2.2 = none := checkRotate_of_fails h
  refine ⟨hfails.1, fun dev hdev => ?_⟩
  simp only [rotateChannel, hfails.2, hlive.2] at hdev
  split at hdev
  · cases hdev
  · cases hdev
    rfl

end Rotation

section Streams
variable {env : Env} {d : LoggerPrivate} {channel key : QString} {opens : Bool}

/-- A stream that is there, over an open file. -/
def Bound (r : TextStreamPtr × LoggerPrivate) : Prop :=
  ∃ dev ∈ r.1, ∃ file ∈ fileOf r.2 dev, file.isOpen = true

structure Inv (env : Env) (d : LoggerPrivate) : Prop where
  main : Live .main (d.m_log_file, d.m_log_stream)
  channels : ∀ key pair, d.m_log_channels.lookup key = some pair → Live (.channel key) pair
  keys : ∀ key ∈ d.m_log_channels, ∃ channel ≠ [], channelKey env channel = key

theorem inv_init : Inv env (init env true) where
  main := ⟨rfl, rfl⟩
  channels := by
    intro key pair h
    rw [init, AList.lookup_empty] at h
    cases h
  keys := by
    intro key h
    exact absurd h (AList.notMem_empty key)

theorem getStream_empty : getStream env d [] opens = (d.m_log_stream, d) := if_pos rfl

theorem getStream_of_lookup {pair : QFile × TextStreamPtr} (hchannel : channel ≠ [])
    (h : d.m_log_channels.lookup (channelKey env channel) = some pair) :
    getStream env d channel opens = (pair.2, d) := by
  simp only [getStream, if_neg hchannel, h]

theorem getStream_of_none (hchannel : channel ≠ [])
    (h : d.m_log_channels.lookup (channelKey env channel) = none) :
    getStream env d channel opens =
      if opens then
        (some (.channel (channelKey env channel)), { d with
          m_log_channels := d.m_log_channels.insert (channelKey env channel)
            (⟨logName env (channelKey env channel), true⟩,
              some (.channel (channelKey env channel))) })
      else (d.m_log_stream, d) := by
  cases opens <;> simp [getStream, if_neg hchannel, h, resetLogFile]

theorem bound_main (hinv : Inv env d) : Bound (d.m_log_stream, d) :=
  ⟨.main, hinv.main.2, d.m_log_file, rfl, hinv.main.1⟩

/-- A channel that is opened joins the others. -/
theorem inv_insert (hinv : Inv env d) (hchannel : channel ≠ []) {pair : QFile × TextStreamPtr}
    (hlive : Live (.channel (channelKey env channel)) pair) :
    Inv env { d with
      m_log_channels := d.m_log_channels.insert (channelKey env channel) pair } where
  main := hinv.main
  channels := by
    intro key pair' h
    by_cases hkey : key = channelKey env channel
    · subst hkey
      rw [AList.lookup_insert, Option.some.injEq] at h
      exact h ▸ hlive
    · rw [AList.lookup_insert_ne hkey] at h
      exact hinv.channels key pair' h
  keys := by
    intro key h
    rcases (AList.mem_insert _).mp h with hkey | hkey
    · exact ⟨channel, hchannel, hkey.symm⟩
    · exact hinv.keys key hkey

/-- What `getStream` returns is a stream over an open file, and it keeps the invariant. -/
theorem getStream_spec (hinv : Inv env d) :
    Bound (getStream env d channel opens) ∧ Inv env (getStream env d channel opens).2 := by
  by_cases hchannel : channel = []
  · rw [hchannel, getStream_empty]
    exact ⟨bound_main hinv, hinv⟩
  cases hlookup : d.m_log_channels.lookup (channelKey env channel) with
  | some pair =>
    have hlive := hinv.channels _ pair hlookup
    rw [getStream_of_lookup hchannel hlookup]
    refine ⟨⟨_, hlive.2, pair.1, ?_, hlive.1⟩, hinv⟩
    rw [fileOf, hlookup]
    rfl
  | none =>
    rw [getStream_of_none hchannel hlookup]
    cases opens with
    | false => exact ⟨bound_main hinv, hinv⟩
    | true =>
      refine ⟨⟨_, rfl, ⟨logName env (channelKey env channel), true⟩, ?_, rfl⟩, ?_⟩
      · rw [fileOf, if_pos rfl, AList.lookup_insert]
        rfl
      · exact inv_insert hinv hchannel ⟨rfl, rfl⟩

end Streams

section Runs
variable (env : Env)

/-- Every rotation of a timer event succeeds; none is tried while the files are disabled. -/
def RotationsSucceed (s : Run) : Event → Prop
  | .timer main channels => s.running = true → s.d.m_disable_log_files = false →
    main.Succeeds ∧ ∀ key ∈ s.d.m_log_channels, (channels key).Succeeds
  | _ => True

/-- For any channel there is a stream over an open file, and a message comes to a file. -/
structure Survives (s : Run) : Prop where
  bound : ∀ channel opens, Bound (getStream env s.d channel opens)
  written : ∀ call, Logged env s call →
    ∃ file, (write env s call).written = s.written ++ [(file, call.line)]

variable {env} {d : LoggerPrivate} {s t : Run} {e : Event} {call : LogCall} {main : RotateCalls}
variable {channels : QString → RotateCalls}

theorem lookup_timerEvent (h : d.m_disable_log_files = false) (key : QString) :
    (timerEvent env d main channels).m_log_channels.lookup key =
      (d.m_log_channels.lookup key).map (rotateChannel env channels key) := by
  rw [timerEvent, if_neg (by rw [h]; exact Bool.false_ne_true)]
  exact lookup_updateAll_keys

theorem inv_timerEvent (hinv : Inv env d) (h : d.m_disable_log_files = false →
    main.Succeeds ∧ ∀ key ∈ d.m_log_channels, (channels key).Succeeds) :
    Inv env (timerEvent env d main channels) := by
  cases hdisable : d.m_disable_log_files with
  | true =>
    rw [timerEvent, if_pos hdisable]
    exact hinv
  | false =>
    obtain ⟨hmain, hchannels⟩ := h hdisable
    refine ⟨?_, fun key pair hpair => ?_, fun key hkey => hinv.keys key ?_⟩
    · rw [timerEvent, if_neg (by rw [hdisable]; exact Bool.false_ne_true)]
      exact live_checkRotate hinv.main hmain
    · rw [lookup_timerEvent hdisable, Option.map_eq_some_iff] at hpair
      obtain ⟨old, hold, rfl⟩ := hpair
      have hkey : key ∈ d.m_log_channels := by
        rw [← AList.lookup_isSome, hold]
        rfl
      exact live_rotateChannel (hinv.channels key old hold) (hchannels key hkey)
    · rw [← AList.lookup_isSome, lookup_timerEvent hdisable, Option.isSome_map,
        AList.lookup_isSome] at hkey
      exact hkey

/-- A message is written to the file that `getStream` gives. -/
theorem write_spec (hinv : Inv env s.d) : Inv env (write env s call).d ∧
    ∃ file, (write env s call).written = s.written ++ [(file, call.line)] := by
  have hstream : Bound (getStream env s.d (env.toLower call.channel) call.opens) ∧
      Inv env (getStream env s.d (env.toLower call.channel) call.opens).2 := getStream_spec hinv
  obtain ⟨⟨dev, hdev, file, hfile, hopen⟩, hinv'⟩ := hstream
  have hwrite : write env s call = { s with
      d := (getStream env s.d (env.toLower call.channel) call.opens).2
      written := s.written ++ [(file.fileName, call.line)] } := by
    rw [Option.mem_def] at hdev hfile
    simp only [write, hdev, hfile, if_pos hopen]
  rw [hwrite]
  exact ⟨hinv', _, rfl⟩

theorem inv_step (hinv : Inv env s.d) (hgood : RotationsSucceed s e)
    (hstep : step env s e = some t) : Inv env t.d := by
  cases e with
  | log call =>
    rw [step] at hstep
    split at hstep
    case isFalse => cases hstep
    case isTrue =>
      cases hstep
      have hlogged : Inv env (if Logged env s call then write env s call else s).d := by
        split
        · exact (write_spec hinv).1
        · exact hinv
      rw [logMsg]
      split
      · exact hlogged
      · exact hlogged
  | timer main channels =>
    rw [step] at hstep
    split at hstep
    case isFalse => cases hstep
    case isTrue hrunning =>
      cases hstep
      exact inv_timerEvent hinv (hgood hrunning)
  | disableLogFiles disable =>
    rw [step] at hstep
    split at hstep
    case isFalse => cases hstep
    case isTrue =>
      cases hstep
      exact ⟨hinv.main, hinv.channels, hinv.keys⟩

theorem survives_of_inv (hinv : Inv env s.d) : Survives env s where
  bound := fun _ _ => (getStream_spec hinv).1
  written := fun _ _ => (write_spec hinv).2

/-- After a rotation of the main log that failed, there is no stream without a channel. -/
theorem not_bound_main (hdisable : d.m_disable_log_files = false) (h : ¬ main.Succeeds) :
    ¬ Bound (getStream env (timerEvent env d main channels) [] true) := by
  have hnone : (timerEvent env d main channels).m_log_stream = none := by
    rw [timerEvent, if_neg (by rw [hdisable]; exact Bool.false_ne_true)]
    exact (checkRotate_of_fails h).2
  intro ⟨dev, hdev, _⟩
  rw [getStream_empty, hnone] at hdev
  cases hdev

/-- After a rotation of a channel that failed, its stream is null or over a closed file. -/
theorem not_bound_channel (hinv : Inv env d) (hdisable : d.m_disable_log_files = false)
    {key : QString} (hkey : key ∈ d.m_log_channels) (h : ¬ (channels key).Succeeds) :
    ∃ channel, ¬ Bound (getStream env (timerEvent env d main channels) channel true) := by
  obtain ⟨channel, hchannel, rfl⟩ := hinv.keys key hkey
  obtain ⟨pair, hpair⟩ := Option.isSome_iff_exists.mp (AList.lookup_isSome.mpr hkey)
  have hfails : (rotateChannel env channels (channelKey env channel) pair).1.isOpen = false ∧
      ∀ dev ∈ (rotateChannel env channels (channelKey env channel) pair).2,
        dev = .channel (channelKey env channel) :=
    rotateChannel_of_fails (hinv.channels _ pair hpair) h
  have hafter : (timerEvent env d main channels).m_log_channels.lookup (channelKey env channel) =
      some (rotateChannel env channels (channelKey env channel) pair) := by
    rw [lookup_timerEvent hdisable, hpair, Option.map_some]
  refine ⟨channel, fun ⟨dev, hdev, file, hfile, hopen⟩ => ?_⟩
  rw [getStream_of_lookup hchannel hafter] at hdev hfile
  rw [hfails.2 dev hdev, fileOf, hafter, Option.map_some, Option.mem_some_iff] at hfile
  rw [← hfile, hfails.1] at hopen
  cases hopen

theorem not_survives_of_fails (hinv : Inv env s.d) (h : ¬ RotationsSucceed s e) :
    ∃ t, step env s e = some t ∧ ¬ Survives env t := by
  cases e with
  | timer main channels =>
    simp only [RotationsSucceed, Classical.not_imp] at h
    obtain ⟨hrunning, hdisable, hfails⟩ := h
    refine ⟨_, if_pos hrunning, fun hsurvives => hfails ?_⟩
    constructor
    · by_contra hmain
      exact not_bound_main hdisable hmain (hsurvives.bound [] true)
    · intro key hkey
      by_contra hchannel
      obtain ⟨channel, hnot⟩ := not_bound_channel hinv hdisable hkey hchannel
      exact hnot (hsurvives.bound channel true)
  | _ => exact absurd trivial h

/-- A build for release; file names stand for their paths. -/
def release : Env := ⟨false, List.map Char.toLower, id⟩

/-- A message to the channel `eth`; its file can be opened. -/
def ethMessage : LogCall := ⟨.warning, "ETH".toList, "hi".toList, [], true⟩

def large (remove : Bool) : RotateCalls := ⟨MAX_LOG_SIZE, true, remove, true, true⟩

/-- The old file of the main log cannot be removed: its stream is null afterwards. With the one of a
channel the second of two messages is lost. -/
theorem failed_rotation_loses :
    (∃ t, exec (step release) ⟨init release true, [], true⟩
        [.timer (large false) fun _ => large true] = some t ∧
      (getStream release t.d [] true).1 = none) ∧
    ∃ t, exec (step release) ⟨init release true, [], true⟩
        [.log ethMessage, .timer (large true) fun _ => large false, .log ethMessage] = some t ∧
      t.running = true ∧ t.written.length = 1 :=
  ⟨⟨_, rfl, rfl⟩, _, rfl, rfl, rfl⟩

/-- Once the main log is open, there are streams over open files and no message is lost in every
state of a run, if and only if every rotation that is due removes the old file and opens the log
anew. -/
theorem logging_survives_iff {env : Env} {es : List Event} :
    (∀ fs t, fs <+: es → exec (step env) ⟨init env true, [], true⟩ fs = some t → Survives env t) ↔
      Along (step env) RotationsSucceed ⟨init env true, [], true⟩ es := by
  apply along_iff_reached (I := fun s => Inv env s.d)
  · intro s e t hinv hgood hstep
    exact inv_step hinv hgood hstep
  · intro s hinv
    exact survives_of_inv hinv
  · intro s e hinv hbad
    exact not_survives_of_fails hinv hbad
  · exact inv_init

end Runs

end MinerGate.Logger
