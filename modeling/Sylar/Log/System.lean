import Sylar.Library.Machine
import Sylar.Log.Change

/-! Runs of the logging system: loggers are got, formatters set from texts and the
`logs` variable changed. Whatever the texts, no formatter with an error gets in. -/
namespace Sylar

open Library

namespace Loggers

/-- `logger->setFormatter(text)` on the logger of a name. -/
def setFormatterText (name text : Text) (s : Loggers) : Loggers :=
  let (logger, s) := s.getLogger name
  let (logger, heap) := logger.setFormatterText text s.heap
  s.write logger heap

theorem Sound.setFormatterText {s : Loggers} (sound : s.Sound) (name text : Text) :
    (s.setFormatterText name text).Sound := by
  obtain ⟨_, _, appenders, length⟩ := (s.getLogger name).1.setFormatterText_fields text s.heap
  have keeps : KeepsName (Logger.setFormatterText text) := fun logger heap =>
    ⟨(logger.setFormatterText_fields text heap).1, (logger.setFormatterText_fields text heap).2.1⟩
  refine sound.onName name keeps (Nat.le_of_eq length.symm) fun p member => ?_
  rw [appenders] at member
  rw [length]
  exact sound.getLogger name p member

end Loggers

namespace LoggerManager

def getLogger (name : Text) (m : LoggerManager) : LoggerManager :=
  ⟨(m.loggers.getLogger name).2, m.sound.openLogger name⟩

def setFormatterText (name text : Text) (m : LoggerManager) : LoggerManager :=
  ⟨m.loggers.setFormatterText name text, m.sound.setFormatterText name text⟩

end LoggerManager

/-- The value of the `logs` variable and the loggers. -/
structure LogSystem where
  logs : LogDefines
  manager : LoggerManager

inductive LogOp where
  | getLogger (name : Text)
  | setFormatter (name text : Text)
  | setLogs (v : LogDefines)

namespace LogSystem

def create : LogSystem := ⟨.empty, .create⟩

/-- `g_log_defines->setValue(v)`; the step is impossible where the listener crashes. -/
def setLogs (daemon : Bool) (v : LogDefines) (s : LogSystem) :
    Option (List (Event LogDefines) × LogSystem) :=
  match (logsVar daemon s.logs).setValue v s.manager with
  | (events, var, .returns () manager) => some (events, ⟨var.getValue, manager⟩)
  | _ => none

def step (daemon : Bool) (s : LogSystem) : LogOp → Option (List (Event LogDefines) × LogSystem)
  | .getLogger name => some ([], { s with manager := s.manager.getLogger name })
  | .setFormatter name text => some ([], { s with manager := s.manager.setFormatterText name text })
  | .setLogs v => s.setLogs daemon v

/-- A change that compares equal does nothing; another one is announced, applied and stored. -/
theorem setLogs_cases {daemon : Bool} {v : LogDefines} {s next : LogSystem}
    {events : List (Event LogDefines)} (done : s.setLogs daemon v = some (events, next)) :
    (v == s.logs) = true ∧ events = [] ∧ next = s ∨
    (v == s.logs) = false ∧ events = [.notified 1 s.logs v, .stored v] ∧ next.logs = v ∧
      s.manager.loggers.Announces ∧ reconfigure daemon s.logs v s.manager.loggers = some next.manager.loggers := by
  cases same : v == s.logs with
  | true =>
    simp only [setLogs, setValue_same same] at done
    cases done
    exact .inl ⟨rfl, rfl, rfl⟩
  | false =>
    by_cases announces : s.manager.loggers.Announces
    · cases result : reconfigure daemon s.logs v s.manager.loggers with
      | none =>
        simp only [setLogs, setValue_crashed same (.inr result)] at done
        cases done
      | some loggers =>
        simp only [setLogs, setValue_applied same announces result] at done
        cases done
        exact .inr ⟨rfl, rfl, rfl, announces, rfl⟩
    · simp only [setLogs, setValue_crashed same (.inl announces)] at done
      cases done

/-- What looking up a logger and calls on it keep, every operation keeps. -/
theorem step_keeps {daemon : Bool} {property : Loggers → Prop}
    (opened : ∀ name s, property s → property (s.getLogger name).2)
    (called : ∀ name call s, KeepsName call → property s → property (s.onName name call))
    {s next : LogSystem} {op : LogOp} {events : List (Event LogDefines)} (before : property s.manager.loggers)
    (taken : s.step daemon op = some (events, next)) : property next.manager.loggers := by
  cases op with
  | getLogger name =>
    cases taken
    exact opened name _ before
  | setFormatter name text =>
    cases taken
    have keeps : KeepsName (Logger.setFormatterText text) := fun logger heap =>
      ⟨(logger.setFormatterText_fields text heap).1, (logger.setFormatterText_fields text heap).2.1⟩
    exact called name (Logger.setFormatterText text) _ keeps before
  | setLogs v =>
    rcases setLogs_cases taken with ⟨_, _, rfl⟩ | ⟨_, _, _, _, done⟩
    · exact before
    · refine reconfigure_keeps ?_ ?_ before done
      · intro i s next before configured
        obtain ⟨call, keeps, rfl⟩ := configure_onName configured
        exact called i.name call s keeps before
      · intro i s before
        exact called i.name (fun logger heap => ((logger.setLevel .unknow).clearAppenders, heap)) s
          (fun _ _ => ⟨rfl, rfl⟩) before

end LogSystem

/-- A formatter is there and has no error. -/
def Valid (formatter : Option LogFormatter) : Prop := ∃ f, formatter = some f ∧ f.isError = false

theorem default_valid : Valid (some (LogFormatter.create defaultPattern)) :=
  ⟨_, rfl, by decide⟩

theorem formatterOr_valid {other : Option LogFormatter} (valid : Valid other) (text : Text) :
    Valid (formatterOr text other) := by
  unfold formatterOr
  split
  · rename_i good
    exact ⟨_, rfl, good.2⟩
  · exact valid

/-- No logger and no appender has a null or a broken formatter. -/
structure AllValid (s : Loggers) : Prop where
  loggers : ∀ logger ∈ s.table.entries, Valid logger.formatter
  heap : ∀ appender ∈ s.heap, Valid appender.formatter

namespace AllValid

variable {s next : Loggers}

theorem openLogger (valid : AllValid s) (name : Text) :
    Valid (s.getLogger name).1.formatter ∧ AllValid (s.getLogger name).2 := by
  cases found : s.table.find? name with
  | some logger =>
    rw [Loggers.getLogger, found]
    exact ⟨valid.loggers logger ((Table.find?_eq_some_iff _ _ _).mp found).1, valid⟩
  | none =>
    rw [Loggers.getLogger, found]
    refine ⟨default_valid, ?_, valid.heap⟩
    intro logger member
    rcases (Table.mem_put _ _ _).mp member with rfl | ⟨old, _⟩
    · exact default_valid
    · exact valid.loggers logger old

theorem write (valid : AllValid s) {logger : Logger} {heap : List LogAppender}
    (formatter : Valid logger.formatter) (all : ∀ appender ∈ heap, Valid appender.formatter) :
    AllValid (s.write logger heap) := by
  refine ⟨?_, all⟩
  intro other member
  rcases (Table.mem_put _ _ _).mp member with rfl | ⟨old, _⟩
  · exact formatter
  · exact valid.loggers other old

/-- A text that does not parse is refused, and one that does is handed to appenders
without a formatter of their own. -/
theorem setText {logger : Logger} {heap : List LogAppender} (formatter : Valid logger.formatter)
    (all : ∀ appender ∈ heap, Valid appender.formatter) (text : Text) :
    Valid (logger.setFormatterText text heap).1.formatter ∧
      ∀ appender ∈ (logger.setFormatterText text heap).2, Valid appender.formatter := by
  cases error : (LogFormatter.create text).isError with
  | true =>
    rw [Logger.setFormatterText, if_pos error]
    exact ⟨formatter, all⟩
  | false =>
    rw [Logger.setFormatterText, if_neg (by simp [error])]
    have parsed : Valid (some (LogFormatter.create text)) := ⟨_, rfl, error⟩
    refine ⟨parsed, forall_modifyAll ?_ all logger.appenders⟩
    intro appender old
    unfold Logger.inherit
    split
    · exact old
    · exact parsed

theorem setFormatterText (valid : AllValid s) (name text : Text) :
    AllValid (s.setFormatterText name text) := by
  obtain ⟨formatter, opened⟩ := valid.openLogger name
  obtain ⟨after, all⟩ := setText formatter opened.heap text
  exact opened.write after all

theorem configure {daemon : Bool} {i : LogDefine} (valid : AllValid s)
    (done : configure daemon i s = some next) : AllValid next := by
  have typed := configure_some done
  obtain ⟨formatter, opened⟩ := valid.openLogger i.name
  set logger := (s.getLogger i.name).1.setLevel i.level with isLogger
  have before : Valid logger.formatter := formatter
  have formatted : Valid (if i.formatter = [] then (logger, (s.getLogger i.name).2.heap)
        else logger.setFormatterText i.formatter (s.getLogger i.name).2.heap).1.formatter ∧
      ∀ appender ∈ (if i.formatter = [] then (logger, (s.getLogger i.name).2.heap)
        else logger.setFormatterText i.formatter (s.getLogger i.name).2.heap).2,
        Valid appender.formatter := by
    split
    · exact ⟨before, opened.heap⟩
    · exact setText before opened.heap i.formatter
  simp only [Sylar.configure, ← isLogger] at done
  rw [addDefined_typed daemon i.appenders typed] at done
  cases done
  refine opened.write formatted.1 ?_
  intro appender member
  rcases List.mem_append.mp member with old | new
  · exact formatted.2 appender old
  · obtain ⟨a, _, rfl⟩ := List.mem_map.mp new
    exact formatterOr_valid formatted.1 a.formatter

theorem disable (valid : AllValid s) (i : LogDefine) : AllValid (disable i s) := by
  obtain ⟨formatter, opened⟩ := valid.openLogger i.name
  exact opened.write formatter opened.heap

theorem reconfigure {daemon : Bool} {old new : LogDefines} (valid : AllValid s)
    (done : reconfigure daemon old new s = some next) : AllValid next :=
  reconfigure_keeps (fun _ _ _ valid done => valid.configure done) (fun i _ valid => valid.disable i) valid done

end AllValid

theorem create_valid : AllValid LoggerManager.create.loggers := by
  refine ⟨?_, ?_⟩
  · intro logger member
    rw [List.mem_singleton.mp member]
    exact default_valid
  · intro appender member
    rw [List.mem_singleton.mp member]
    exact default_valid

namespace LogSystem

theorem step_valid {daemon : Bool} {s next : LogSystem} {op : LogOp} {events : List (Event LogDefines)}
    (valid : AllValid s.manager.loggers) (taken : s.step daemon op = some (events, next)) :
    AllValid next.manager.loggers := by
  cases op with
  | getLogger name =>
    cases taken
    exact (valid.openLogger name).2
  | setFormatter name text =>
    cases taken
    exact valid.setFormatterText name text
  | setLogs v =>
    rcases setLogs_cases taken with ⟨_, _, rfl⟩ | ⟨_, _, _, _, done⟩
    · exact valid
    · exact valid.reconfigure done

/-- However texts are set and configurations changed, every logger and every attached
appender has a formatter without an error. -/
theorem formatters_valid (daemon : Bool) (ops : List LogOp) {events : List (Event LogDefines)}
    {s : LogSystem} (ran : run (step daemon) ops create = some (events, s)) {name : Text} {logger : Logger}
    (found : s.manager.loggers.table.find? name = some logger) :
    Valid logger.formatter ∧ ∀ p ∈ logger.appenders, ∃ appender,
      s.manager.loggers.heap[p]? = some appender ∧ Valid appender.formatter := by
  have valid : AllValid s.manager.loggers :=
    run_invariant (fun s => AllValid s.manager.loggers)
      (fun _ _ _ _ valid taken => step_valid valid taken) ran create_valid
  refine ⟨valid.loggers logger ((Table.find?_eq_some_iff _ _ _).mp found).1, ?_⟩
  intro p member
  have inside := s.manager.sound.attached name logger found p member
  exact ⟨_, List.getElem?_eq_getElem inside, valid.heap _ (List.getElem_mem inside)⟩

/-- A broken text for the root logger. -/
theorem formatters_valid_refused :
    ∃ s, run (step false) [.setFormatter Loggers.rootName ['%']] create = some ([], s) ∧
      ∃ logger, s.manager.loggers.table.find? Loggers.rootName = some logger ∧ Valid logger.formatter := by
  refine ⟨_, rfl, ?_⟩
  have found : (LoggerManager.create.setFormatterText Loggers.rootName ['%']).loggers.table.find?
      Loggers.rootName = some LoggerManager.rootLogger.1 := rfl
  exact ⟨_, found, (formatters_valid false [.setFormatter Loggers.rootName ['%']] rfl found).1⟩

end LogSystem

end Sylar
