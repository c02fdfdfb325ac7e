import Sylar.Library.Since
import Sylar.Log.File

/-! The stream of one file appender, with writes that may fail: what its flags say, and
whether `reopen` gets the file back. -/
namespace Sylar

open Library

/-- What `std::ofstream` says of itself; a failed write leaves the file open. -/
structure Ofstream where
  isOpen : Bool
  failed : Bool
  deriving DecidableEq, Repr

namespace Ofstream

def new : Ofstream := ⟨false, false⟩

/-- `opened` is whether the file can be opened. -/
def «open» (opened : Bool) (s : Ofstream) : Ofstream :=
  if s.isOpen ∨ opened = false then { s with failed := true } else ⟨true, false⟩

def close (s : Ofstream) : Ofstream :=
  if s.isOpen then { s with isOpen := false } else { s with failed := true }

/-- One operation; `taken` is whether the file takes what is written. -/
def write (taken : Bool) (s : Ofstream) : Ofstream :=
  if s.failed then s else if s.isOpen ∧ taken = true then s else { s with failed := true }

def Usable (s : Ofstream) : Prop := s.isOpen = true ∧ s.failed = false

/-- Open, and every operation on it fails. -/
def Stuck (s : Ofstream) : Prop := s.isOpen = true ∧ s.failed = true

instance (s : Ofstream) : Decidable s.Usable := inferInstanceAs (Decidable (_ ∧ _))

instance (s : Ofstream) : Decidable s.Stuck := inferInstanceAs (Decidable (_ ∧ _))

/-- The operation fails and the file is open. -/
def Fails (taken : Bool) (s : Ofstream) : Bool := s.isOpen && !s.failed && !taken

theorem write_stuck (taken : Bool) (s : Ofstream) :
    (s.write taken).Stuck ↔ s.Stuck ∨ s.Fails taken = true := by
  obtain ⟨isOpen, failed⟩ := s
  cases isOpen <;> cases failed <;> cases taken <;> decide

/-- Opening a stream that was closed just before works when the file can be opened; one
that still has its file is stuck with it. -/
theorem open_usable (opened : Bool) (s : Ofstream) :
    ((if s.failed then s else s.close).open opened).Usable ↔ opened = true ∧ ¬ s.Stuck := by
  obtain ⟨isOpen, failed⟩ := s
  cases isOpen <;> cases failed <;> cases opened <;> decide

theorem open_stuck (opened : Bool) (s : Ofstream) :
    ((if s.failed then s else s.close).open opened).Stuck ↔ s.Stuck := by
  obtain ⟨isOpen, failed⟩ := s
  cases isOpen <;> cases failed <;> cases opened <;> decide

end Ofstream

/-- What is kept of a stream when only its flags are looked at. -/
def Ofstream.ofStream (stream : Library.Stream N α) : Ofstream := ⟨stream.target.isSome, stream.failed⟩

/-- `reopen` of the files and their contents does to the flags what it does here. -/
theorem Ofstream.ofStream_reopen (p : Nat) (filename : Text) (opened : Bool) (files : LogFiles) :
    ofStream ((files.after (reopen p filename opened files)).stream p) =
      (if (ofStream (files.stream p)).failed then ofStream (files.stream p)
        else (ofStream (files.stream p)).close).open opened := by
  cases failed : (files.stream p).failed with
  | true =>
    cases target : (files.stream p).target with
    | none => cases opened <;> simp [reopen, Files.after, Files.perform, Files.setStream,
        Files.setContent, ofStream, «open», failed, target]
    | some _ => simp [reopen, Files.after, Files.perform, Files.setStream, ofStream, «open», failed, target]
  | false =>
    cases target : (files.stream p).target with
    | none => cases opened <;> simp [reopen, Files.after, Files.perform, Files.setStream,
        Files.setContent, ofStream, «open», close, failed, target]
    | some _ => cases opened <;> simp [reopen, Files.after, Files.perform, Files.setStream,
        Files.setContent, ofStream, «open», close, failed, target]

/-- A file appender without its formatter, of which a log call only shows the writes. -/
structure FileLogAppender where
  filename : Text
  level : LogLevel
  lastTime : UInt64
  stream : Ofstream

/-- Calls with what the file does: whether it takes each operation of a log call, and
whether it can be opened. -/
inductive FileLogCall where
  | log (level : LogLevel) (now : UInt64) (taken : List Bool)
  | reopen (opened : Bool)

/-- What became of a call: whether a write failed on the open file, what `reopen` returned. -/
inductive FileLogEvent where
  | logged (failed : Bool)
  | reopened (opened result : Bool)
  deriving DecidableEq, Repr

namespace FileLogAppender

/-- The members before the body of the constructor, which is `reopen()`. -/
def create (filename : Text) : FileLogAppender := ⟨filename, .debug, 0, .new⟩

/-- The operations of `m_formatter->format(m_filestream, …)`, and whether one failed on
the open file. -/
def format (stream : Ofstream) : List Bool → Bool × Ofstream
  | [] => (false, stream)
  | taken :: rest =>
    let (failed, final) := format (stream.write taken) rest
    (stream.Fails taken || failed, final)

def log (level : LogLevel) (now : UInt64) (taken : List Bool) (appender : FileLogAppender) :
    Bool × FileLogAppender :=
  if appender.level ≤ level then
    let lastTime := if now ≥ appender.lastTime + 3 then now else appender.lastTime
    let (failed, stream) := format appender.stream taken
    (failed, { appender with lastTime, stream })
  else (false, appender)

def reopen (opened : Bool) (appender : FileLogAppender) : Bool × FileLogAppender :=
  let stream := if appender.stream.failed then appender.stream else appender.stream.close
  let stream := stream.open opened
  (!stream.failed, { appender with stream })

def step (appender : FileLogAppender) : FileLogCall → Option (List FileLogEvent × FileLogAppender)
  | .log level now taken =>
    some ([.logged (appender.log level now taken).1], (appender.log level now taken).2)
  | .reopen opened => some ([.reopened opened (appender.reopen opened).1], (appender.reopen opened).2)

/-- A file is lost by the first operation on it that fails. -/
theorem format_stuck (stream : Ofstream) (taken : List Bool) :
    (format stream taken).2.Stuck ↔ stream.Stuck ∨ (format stream taken).1 = true := by
  induction taken generalizing stream with
  | nil => simp [format]
  | cons first rest ih =>
    rw [format, ih, Ofstream.write_stuck, Bool.or_eq_true, or_assoc]

theorem log_stuck (level : LogLevel) (now : UInt64) (taken : List Bool) (appender : FileLogAppender) :
    (appender.log level now taken).2.stream.Stuck ↔
      appender.stream.Stuck ∨ (appender.log level now taken).1 = true := by
  unfold log
  split
  · exact format_stuck appender.stream taken
  · simp

theorem reopen_stuck (opened : Bool) (appender : FileLogAppender) :
    (appender.reopen opened).2.stream.Stuck ↔ appender.stream.Stuck :=
  Ofstream.open_stuck opened appender.stream

/-- The call returns `true` and the stream is open and usable. -/
def Recovered (result : Bool) (appender : FileLogAppender) : Prop :=
  result = true ∧ appender.stream.Usable

/-- `reopen` gets the file back unless the stream is stuck with it. -/
theorem reopen_recovers (opened : Bool) (appender : FileLogAppender) :
    Recovered (appender.reopen opened).1 (appender.reopen opened).2 ↔
      opened = true ∧ ¬ appender.stream.Stuck := by
  rw [← Ofstream.open_usable, Recovered]
  constructor
  · exact And.right
  · intro usable
    refine ⟨?_, usable⟩
    have good := usable.2
    simp [reopen, good]

/-- The last call, if it was a `reopen` while the file could be opened, got the file back. -/
def Recovers (appender : FileLogAppender) (past : List FileLogEvent) : Prop :=
  ∀ result, past.getLast? = some (.reopened true result) → Recovered result appender

/-- No write has failed on the open file before a `reopen` while the file can be opened. -/
def Unharmed (events : List FileLogEvent) : Prop :=
  ∀ front result back, events = front ++ .reopened true result :: back → .logged true ∉ front

/-- The stream is stuck once a write has failed on the open file. -/
def Traced (appender : FileLogAppender) (past : List FileLogEvent) : Prop :=
  appender.stream.Stuck ↔ .logged true ∈ past

theorem unharmed_concat {past : List FileLogEvent} (event : FileLogEvent) :
    Unharmed (past ++ [event]) ↔
      Unharmed past ∧ ∀ result, event = .reopened true result → .logged true ∉ past := by
  constructor
  · intro unharmed
    constructor
    · rintro front result back rfl
      exact unharmed front result (back ++ [event]) (by simp)
    · rintro result rfl
      exact unharmed past result [] rfl
  · rintro ⟨unharmed, last⟩ front result back split
    rcases split_concat split with ⟨rfl, same, _⟩ | ⟨rest, rfl, before⟩
    · exact last result same.symm
    · exact unharmed front result rest before

theorem traced_step {appender next : FileLogAppender} {call : FileLogCall}
    {past events : List FileLogEvent} (traced : Traced appender past)
    (taken : step appender call = some (events, next)) : Traced next (past ++ events) := by
  unfold Traced at traced ⊢
  cases call with
  | log level now outcomes =>
    simp only [step, Option.some.injEq, Prod.mk.injEq] at taken
    obtain ⟨rfl, rfl⟩ := taken
    rw [log_stuck, traced, List.mem_append, List.mem_singleton, FileLogEvent.logged.injEq,
      eq_comm (a := true)]
  | reopen opened =>
    simp only [step, Option.some.injEq, Prod.mk.injEq] at taken
    obtain ⟨rfl, rfl⟩ := taken
    rw [reopen_stuck, traced]
    simp

theorem recovers_step {appender next : FileLogAppender} {call : FileLogCall}
    {past events : List FileLogEvent} (traced : Traced appender past) (unharmed : Unharmed past)
    (taken : step appender call = some (events, next)) :
    Recovers next (past ++ events) ↔ Unharmed (past ++ events) := by
  unfold Traced at traced
  cases call with
  | log level now outcomes =>
    simp only [step, Option.some.injEq, Prod.mk.injEq] at taken
    obtain ⟨rfl, rfl⟩ := taken
    rw [unharmed_concat]
    simp [Recovers, unharmed]
  | reopen opened =>
    simp only [step, Option.some.injEq, Prod.mk.injEq] at taken
    obtain ⟨rfl, rfl⟩ := taken
    rw [unharmed_concat, ← traced]
    have recovers := reopen_recovers opened appender
    constructor
    · intro holds
      refine ⟨unharmed, ?_⟩
      rintro result same
      cases same
      exact (recovers.mp (holds _ (by simp))).2
    · rintro ⟨_, apart⟩ result last
      rw [List.getLast?_concat] at last
      cases last
      exact recovers.mpr ⟨rfl, apart _ rfl⟩

/-- From the construction on, every `reopen` while the file can be opened gets the file
back just when no write failed on the open file before it. -/
theorem reopen_recovers_iff (filename : Text) (opened : Bool) {calls : List FileLogCall}
    {events : List FileLogEvent} {final : FileLogAppender}
    (ran : run step (.reopen opened :: calls) (create filename) = some (events, final)) :
    Always step Recovers (.reopen opened :: calls) (create filename) ↔ Unharmed events := by
  have kept (appender : FileLogAppender) (call : FileLogCall) (past events : List FileLogEvent)
      (next : FileLogAppender) (traced : Traced appender past)
      (taken : step appender call = some (events, next)) : Traced next (past ++ events) :=
    traced_step traced taken
  refine always_iff_events kept ?_ ?_ ran ?_ ?_ ?_
  · intro appender call past events next traced _ unharmed taken
    exact recovers_step traced unharmed taken
  · intro past events unharmed front result back split
    subst split
    exact unharmed front result (back ++ events) (by simp)
  · simp [Traced, create, Ofstream.new, Ofstream.Stuck]
  · intro result last
    cases last
  · intro front result back split
    simp at split

/-- The file was moved away and is opened again. -/
theorem reopen_recovers_iff_twice :
    ∃ events final, run step [.reopen true, .log .info 7 [true], .reopen true] (create ['f']) =
        some (events, final) ∧
      (Always step Recovers [.reopen true, .log .info 7 [true], .reopen true] (create ['f']) ↔
        Unharmed events) :=
  ⟨_, _, rfl, reopen_recovers_iff ['f'] true rfl⟩

/-- A write fails, as on a full disk, and the file is never got back. -/
theorem reopen_after_failed_write :
    run step [.reopen true, .log .info 7 [false], .reopen true, .reopen true] (create ['f']) =
      some ([.reopened true true, .logged true, .reopened true false, .reopened true false],
        ⟨['f'], .debug, 7, ⟨true, true⟩⟩) ∧
    ¬ Always step Recovers [.reopen true, .log .info 7 [false], .reopen true, .reopen true] (create ['f']) := by
  refine ⟨rfl, ?_⟩
  intro always
  have recovered : Recovers ⟨['f'], .debug, 7, ⟨true, true⟩⟩ _ := always _ [] (List.append_nil _).symm _ _ rfl
  cases (recovered false rfl).1

end FileLogAppender

end Sylar
