import Mathlib.Data.List.Dedup
import Sylar.Library.Streams
import Sylar.Log.System

/-! What becomes of the files that appenders write to. The `m_filestream` of an appender is
the stream of the appender's number, and a filename stands for one file. `m_lastTime` is
left out, since the `reopen` that it is kept for is commented out. -/
namespace Sylar

open Library

abbrev LogFiles := Files Text Char

abbrev FileOp := StreamOp Text Char

namespace LogFiles

/-- The calls after each other; a gap in a file reads as null characters. -/
abbrev after (ops : List FileOp) (files : LogFiles) : LogFiles := Files.after '\x00' ops files

end LogFiles

/-- `FileLogAppender::reopen`: a stream without an error is closed first. -/
def reopen (p : Nat) (filename : Text) (opened : Bool) (files : LogFiles) : List FileOp :=
  (if (files.stream p).failed then [] else [.close p]) ++ [.open p filename opened]

/-- `FileLogAppender::FileLogAppender(filename)`. -/
def openFile (p : Nat) (filename : Text) (opened : Bool) : List FileOp :=
  [.create p, .close p, .open p filename opened]

theorem openFile_reopen (p : Nat) (filename : Text) (opened : Bool) (files : LogFiles) :
    openFile p filename opened =
      .create p :: reopen p filename opened (files.perform '\x00' (.create p)) := by
  simp [openFile, reopen, Files.perform, Files.setStream, Stream.new]

/-- `LogFormatter::format(ofs, …)`: each item writes to the stream, and `std::endl` flushes it. -/
def LogFormatter.formatTo (p : Nat) (clock : Clock) (level : LogLevel) (event : LogEvent)
    (formatter : LogFormatter) : List FileOp :=
  formatter.items.flatMap fun item =>
    .write p (item.format clock level event) :: if item = .newLine then [.flush p] else []

/-- The stream is given the same text that the other overload returns. -/
theorem LogFormatter.formatTo_text (p : Nat) (clock : Clock) (level : LogLevel) (event : LogEvent)
    (formatter : LogFormatter) :
    (formatter.formatTo p clock level event).flatMap StreamOp.text = formatter.format clock level event := by
  have each (item : FormatItem) : (StreamOp.write p (item.format clock level event) ::
      if item = .newLine then [StreamOp.flush p] else [] : List FileOp).flatMap StreamOp.text =
        item.format clock level event := by
    split <;> simp [StreamOp.text]
  simp only [formatTo, format, List.flatMap_assoc, each]

/-- What is done to an appender as far as its stream is concerned: it is constructed or
opened again, a line is formatted to it, it is destroyed, or its stream hands over a part
of what it holds. -/
inductive FileAction where
  | construct (p : Nat) (filename : Text) (opened : Bool)
  | reopen (p : Nat) (filename : Text) (opened : Bool)
  | format (line : Line) (level : LogLevel) (event : LogEvent)
  | destroy (p : Nat)
  | spill (p n : Nat)

/-- The calls on the stream. The destructor closes it if it is open. -/
def FileAction.ops (clock : Clock) (files : LogFiles) : FileAction → List FileOp
  | .construct p filename opened => openFile p filename opened
  | .reopen p filename opened => Sylar.reopen p filename opened files
  | .format line level event =>
    match line.sink with
    | .stdout => []
    | .file _ => line.formatter.formatTo line.appender clock level event
  | .destroy p => if (files.stream p).target.isSome then [.close p] else []
  | .spill p n => [.spill p n]

/-- The calls on streams of actions after each other. -/
def actionOps (clock : Clock) : List FileAction → LogFiles → List FileOp
  | [], _ => []
  | action :: rest, files =>
    action.ops clock files ++ actionOps clock rest (files.after (action.ops clock files))

/-- Some logger has the appender in its list. -/
def Loggers.attached (s : Loggers) (p : Nat) : Bool := s.table.entries.any fun logger => p ∈ logger.appenders

/-- Of appenders that have lost a reference those are destroyed that have lost the last one:
no logger has them, and the program neither. -/
def released (held : List Nat) (s : Loggers) (ps : List Nat) : List FileAction :=
  (ps.dedup.filter fun p => ¬ (p ∈ held ∨ s.attached p)).map .destroy

/-- `clearAppenders` of the logger of a name. -/
def clearing (held : List Nat) (name : Text) (s : Loggers) : List FileAction :=
  let (logger, s) := s.getLogger name
  released held (s.write logger.clearAppenders s.heap) logger.appenders

/-- The appenders made for a definition, from the first new one on. -/
def openNew (opened : Nat → Bool) : Nat → List LogAppender → List FileAction
  | _, [] => []
  | p, appender :: rest =>
    match appender.sink with
    | .stdout => openNew opened (p + 1) rest
    | .file filename => .construct p filename (opened p) :: openNew opened (p + 1) rest

/-- The first loop of the listener: for each definition the logger's appenders go before
the new ones are made. -/
def applyNewActions (daemon : Bool) (old : LogDefines) (held : List Nat) (opened : Nat → Bool) :
    List LogDefine → Loggers → List FileAction
  | [], _ => []
  | i :: rest, s =>
    if changed old i then
      match configure daemon i s with
      | none => []
      | some next =>
        clearing held i.name s ++ openNew opened s.heap.length (next.heap.drop s.heap.length) ++
          applyNewActions daemon old held opened rest next
    else applyNewActions daemon old held opened rest s

/-- The second loop. -/
def removeOldActions (new : LogDefines) (held : List Nat) : List LogDefine → Loggers → List FileAction
  | [], _ => []
  | i :: rest, s =>
    match new.find? i.name with
    | none => clearing held i.name s ++ removeOldActions new held rest (disable i s)
    | some _ => removeOldActions new held rest s

/-- What the listener does to appenders, its first line included. -/
def logIniterActions (daemon : Bool) (held : List Nat) (opened : Nat → Bool) (event : LogEvent)
    (old new : LogDefines) (s : Loggers) : Option (List FileAction) :=
  match s.announce, applyNew daemon old new.entries s with
  | some lines, some middle =>
    let event := { event with content := "on_logger_conf_changed".toList, loggerName := Loggers.rootName }
    some (lines.map (.format · .info event) ++ applyNewActions daemon old held opened new.entries s ++
      removeOldActions new held old.entries middle)
  | _, _ => none

/-- The logging system with the appenders that the program itself has pointers to, and the
files that appenders write to. -/
structure FileSystem where
  system : LogSystem
  held : List Nat
  files : LogFiles

/-- What a program does that touches log files, with the choices of its surroundings:
whether a file can be opened, and when a stream hands over what it holds. -/
inductive FileCall where
  | change (op : LogOp) (event : LogEvent) (opened : Nat → Bool)
  | newFile (filename : Text) (opened : Bool)
  | release (p : Nat)
  | addAppender (name : Text) (p : Nat)
  | reopen (p : Nat) (opened : Bool)
  | log (name : Text) (level : LogLevel) (event : LogEvent)
  | logOne (p : Nat) (level : LogLevel) (event : LogEvent)
  | spill (p n : Nat)

/-- What a call comes to: the actions on appenders, and the loggers and pointers after it. -/
structure Done where
  actions : List FileAction
  system : LogSystem
  held : List Nat

namespace FileSystem

variable (clock : Clock) (daemon : Bool)

def create (content : Text → Text) : FileSystem := ⟨.create, [], Files.initial content⟩

/-- A call of the program; `none` is one that it cannot make, or that crashes. -/
def perform (s : FileSystem) : FileCall → Option Done
  | .change op event opened =>
    match s.system.step daemon op with
    | none => none
    | some (.notified _ old new :: _, next) =>
      match logIniterActions daemon s.held opened event old new s.system.manager.loggers with
      | none => none
      | some actions => some ⟨actions, next, s.held⟩
    | some (_, next) => some ⟨[], next, s.held⟩
  | .newFile filename opened =>
    let m := s.system.manager
    let p := m.loggers.heap.length
    some ⟨[.construct p filename opened],
      { s.system with manager := m.newAppender (LogAppender.create (.file filename)) }, p :: s.held⟩
  | .release p =>
    if p ∈ s.held then
      let held := s.held.erase p
      some ⟨released held s.system.manager.loggers [p], s.system, held⟩
    else none
  | .addAppender name p =>
    if there : p ∈ s.held ∧ p < s.system.manager.loggers.heap.length then
      some ⟨[], { s.system with manager := s.system.manager.addAppender name p there.2 }, s.held⟩
    else none
  | .reopen p opened =>
    if p ∈ s.held then
      match s.system.manager.loggers.heap[p]? with
      | some ⟨.file filename, _, _, _⟩ => some ⟨[.reopen p filename opened], s.system, s.held⟩
      | _ => none
    else none
  | .log name level event =>
    let m := s.system.manager.getLogger name
    match m.loggers.log level 2 name with
    | none => none
    | some lines => some ⟨lines.map (.format · level event), { s.system with manager := m }, s.held⟩
  | .logOne p level event =>
    if p ∈ s.held then
      match s.system.manager.loggers.heap[p]? with
      | none => none
      | some appender =>
        match appender.log p level with
        | none => none
        | some lines => some ⟨lines.map (.format · level event), s.system, s.held⟩
    else none
  | .spill p n => some ⟨[.spill p n], s.system, s.held⟩

/-- The files are changed by the calls on streams only. -/
def step (s : FileSystem) (call : FileCall) : Option (List FileOp × FileSystem) :=
  match s.perform daemon call with
  | none => none
  | some done =>
    let ops := actionOps clock done.actions s.files
    some (ops, ⟨done.system, done.held, s.files.after ops⟩)

theorem step_cases {s next : FileSystem} {call : FileCall} {ops : List FileOp}
    (taken : s.step clock daemon call = some (ops, next)) :
    ∃ done, s.perform daemon call = some done ∧ ops = actionOps clock done.actions s.files ∧
      next = ⟨done.system, done.held, s.files.after ops⟩ := by
  unfold step at taken
  split at taken
  · cases taken
  · rename_i done performed
    cases taken
    exact ⟨done, performed, rfl, rfl⟩

/-- At the end of a run the files are what all calls on streams have made of them. -/
theorem run_files {calls : List FileCall} {s final : FileSystem} {ops : List FileOp}
    (ran : run (step clock daemon) calls s = some (ops, final)) : final.files = s.files.after ops := by
  have made : final.files = s.files.after ([] ++ ops) := by
    apply run_history (fun (next : FileSystem) past => next.files = s.files.after past) ?_ ran rfl
    intro middle call past new next before taken
    obtain ⟨_, _, _, rfl⟩ := step_cases clock daemon taken
    rw [before]
    exact (Files.after_append _ past new s.files).symm
  exact made

/-- All that a call can come to. -/
inductive Performs (s : FileSystem) : FileCall → Done → Prop
  | changed {op : LogOp} {event : LogEvent} {opened : Nat → Bool} {id : Nat} {old new : LogDefines}
      {rest : List (Event LogDefines)} {next : LogSystem} {actions : List FileAction}
      (stepped : s.system.step daemon op = some (.notified id old new :: rest, next))
      (listened : logIniterActions daemon s.held opened event old new s.system.manager.loggers = some actions) :
      Performs s (.change op event opened) ⟨actions, next, s.held⟩
  | unchanged {op : LogOp} {event : LogEvent} {opened : Nat → Bool} {events : List (Event LogDefines)}
      {next : LogSystem} (stepped : s.system.step daemon op = some (events, next)) :
      Performs s (.change op event opened) ⟨[], next, s.held⟩
  | newFile {filename : Text} {opened : Bool} :
      Performs s (.newFile filename opened) ⟨[.construct s.system.manager.loggers.heap.length filename opened],
        { s.system with manager := s.system.manager.newAppender (LogAppender.create (.file filename)) },
        s.system.manager.loggers.heap.length :: s.held⟩
  | release {p : Nat} (holds : p ∈ s.held) :
      Performs s (.release p) ⟨released (s.held.erase p) s.system.manager.loggers [p], s.system, s.held.erase p⟩
  | addAppender {name : Text} {p : Nat} (inside : p < s.system.manager.loggers.heap.length) :
      Performs s (.addAppender name p)
        ⟨[], { s.system with manager := s.system.manager.addAppender name p inside }, s.held⟩
  | reopen {p : Nat} {opened : Bool} {filename : Text} {appender : LogAppender}
      (there : s.system.manager.loggers.heap[p]? = some appender) (sink : appender.sink = .file filename) :
      Performs s (.reopen p opened) ⟨[.reopen p filename opened], s.system, s.held⟩
  | log {name : Text} {level : LogLevel} {event : LogEvent} {lines : List Line}
      (logged : (s.system.manager.getLogger name).loggers.log level 2 name = some lines) :
      Performs s (.log name level event)
        ⟨lines.map (.format · level event), { s.system with manager := s.system.manager.getLogger name }, s.held⟩
  | logOne {p : Nat} {level : LogLevel} {event : LogEvent} {appender : LogAppender} {lines : List Line}
      (there : s.system.manager.loggers.heap[p]? = some appender) (logged : appender.log p level = some lines) :
      Performs s (.logOne p level event) ⟨lines.map (.format · level event), s.system, s.held⟩
  | spill {p n : Nat} : Performs s (.spill p n) ⟨[.spill p n], s.system, s.held⟩

theorem perform_cases {s : FileSystem} {call : FileCall} {done : Done} (performed : s.perform daemon call = some done) :
    s.Performs daemon call done := by
  cases call with
  | change op event opened =>
    simp only [perform] at performed
    split at performed
    · cases performed
    · rename_i stepped
      split at performed
      · cases performed
      · rename_i listened
        cases performed
        exact .changed stepped listened
    · rename_i stepped
      cases performed
      exact .unchanged stepped
  | newFile filename opened =>
    cases performed
    exact .newFile
  | release p =>
    simp only [perform] at performed
    split at performed
    · rename_i holds
      cases performed
      exact .release holds
    · cases performed
  | addAppender name p =>
    simp only [perform] at performed
    split at performed
    · rename_i there
      cases performed
      exact .addAppender there.2
    · cases performed
  | reopen p opened =>
    simp only [perform] at performed
    split at performed
    · split at performed
      · rename_i there
        cases performed
        exact .reopen there rfl
      · cases performed
    · cases performed
  | log name level event =>
    simp only [perform] at performed
    split at performed
    · cases performed
    · rename_i logged
      cases performed
      exact .log logged
  | logOne p level event =>
    simp only [perform] at performed
    split at performed
    · split at performed
      · cases performed
      · rename_i there
        split at performed
        · cases performed
        · rename_i logged
          cases performed
          exact .logOne there logged
    · cases performed
  | spill p n =>
    cases performed
    exact .spill

/-- The loggers after a call. -/
theorem perform_loggers {property : Loggers → Prop}
    (opened : ∀ name s, property s → property (s.getLogger name).2)
    (called : ∀ name call s, KeepsName call → property s → property (s.onName name call))
    (made : ∀ appender (m : LoggerManager), property m.loggers → property (m.newAppender appender).loggers)
    {s : FileSystem} {call : FileCall} {done : Done} (before : property s.system.manager.loggers)
    (performed : s.perform daemon call = some done) : property done.system.manager.loggers := by
  cases perform_cases daemon performed with
  | changed stepped | unchanged stepped => exact LogSystem.step_keeps opened called before stepped
  | newFile => exact made _ _ before
  | addAppender => exact called _ (Logger.addAppender _) _ (fun _ _ => ⟨rfl, rfl⟩) before
  | log => exact opened _ _ before
  | release | reopen | logOne | spill => exact before

end FileSystem

/-- Every logger that has a root has the root logger. -/
def Flat (s : Loggers) : Prop :=
  ∀ name logger, s.table.find? name = some logger → logger.root = none ∨ logger.root = some Loggers.rootName

namespace Flat

variable {s next : Loggers}

theorem openLogger (flat : Flat s) (name : Text) :
    (s.getLogger name).2.table.find? name = some (s.getLogger name).1 ∧ Flat (s.getLogger name).2 := by
  cases found : s.table.find? name with
  | some logger =>
    rw [Loggers.getLogger, found]
    exact ⟨found, flat⟩
  | none =>
    have made : (s.getLogger name).2.table.find? name = some (s.getLogger name).1 := by
      rw [Loggers.getLogger, found]
      exact Table.find?_put_same s.table { Logger.create name with root := some Loggers.rootName }
    refine ⟨made, fun other logger inside => ?_⟩
    by_cases same : name = other
    · rw [← same, made, Loggers.getLogger, found] at inside
      cases inside
      exact .inr rfl
    · exact flat other logger ((Loggers.getLogger_other same s).symm.trans inside)

theorem onName (flat : Flat s) (name : Text) {call : Logger → List LogAppender → Logger × List LogAppender}
    (keeps : KeepsName call) : Flat (s.onName name call) := by
  obtain ⟨found, opened⟩ := flat.openLogger name
  have sameRoot := (keeps (s.getLogger name).1 (s.getLogger name).2.heap).2
  have called := Loggers.find?_onName_same keeps name s
  intro other logger inside
  by_cases same : name = other
  · rw [← same, called] at inside
    rw [← Option.some.inj inside, sameRoot]
    exact opened name _ found
  · exact opened other logger ((Loggers.find?_onName_other keeps same s).symm.trans inside)

theorem create : Flat LoggerManager.create.loggers := by
  intro name logger found
  obtain ⟨member, _⟩ := (Table.find?_eq_some_iff _ _ _).mp found
  rcases (Table.mem_put _ _ _).mp member with rfl | ⟨absent, _⟩
  · exact .inl rfl
  · cases absent

/-- An event is handed on at most once, so that fuel for two calls is enough. -/
theorem log_enough (flat : Flat s) (sound : s.Sound) (level : LogLevel) (fuel : Nat) (name : Text) :
    s.log level (fuel + 2) name = s.log level 2 name := by
  obtain ⟨root, atRoot, unrooted⟩ := sound.rooted
  have atMost (fuel : Nat) : s.log level (fuel + 1) Loggers.rootName = s.log level 1 Loggers.rootName := by
    simp only [Loggers.log, atRoot, unrooted]
  cases found : s.table.find? name with
  | none => simp only [Loggers.log, found]
  | some logger =>
    rw [Loggers.log, Loggers.log]
    simp only [found]
    rcases flat name logger found with unrooted | rooted
    · rw [unrooted]
    · rw [rooted]
      simp only [atMost fuel]

end Flat

namespace FileSystem

/-- Whatever was called before, the fuel that `perform` gives to a log call is enough. -/
theorem log_fuel {clock : Clock} {daemon : Bool} {content : Text → Text} {calls : List FileCall}
    {s : FileSystem} {ops : List FileOp} (ran : run (step clock daemon) calls (create content) = some (ops, s))
    (level : LogLevel) (fuel : Nat) (name : Text) :
    s.system.manager.loggers.log level (fuel + 2) name = s.system.manager.loggers.log level 2 name := by
  have flat : Flat s.system.manager.loggers := by
    refine run_invariant (fun s => Flat s.system.manager.loggers) ?_ ran Flat.create
    intro s call ops next flat taken
    obtain ⟨done, performed, _, rfl⟩ := step_cases clock daemon taken
    exact perform_loggers daemon (fun name _ flat => (flat.openLogger name).2)
      (fun name _ _ keeps flat => flat.onName name keeps) (fun _ _ flat => flat) flat performed
  exact flat.log_enough s.system.manager.sound level fuel name

def noClock : Clock := ⟨fun _ _ => [], fun _ _ => []⟩

def message (content : Text) : LogEvent := ⟨[], 1, 0, 1, 0, 0, [], content, Loggers.rootName⟩

/-- The root logger gets the pattern `%m%n` and an appender for the file `f`. -/
def attachFile : List FileCall :=
  [.change (.setFormatter Loggers.rootName ['%', 'm', '%', 'n']) (message []) fun _ => true,
    .newFile ['f'] true, .addAppender Loggers.rootName 1]

theorem log_fuel_attachFile :
    ∃ s ops, run (step noClock false) attachFile (create fun _ => []) = some (ops, s) ∧
      s.system.manager.loggers.log .info 7 Loggers.rootName =
        s.system.manager.loggers.log .info 2 Loggers.rootName := by
  have ran : ∃ s ops, run (step noClock false) attachFile (create fun _ => []) = some (ops, s) := ⟨_, _, rfl⟩
  obtain ⟨s, ops, ran⟩ := ran
  exact ⟨s, ops, ran, log_fuel ran .info 5 Loggers.rootName⟩

end FileSystem

end Sylar
