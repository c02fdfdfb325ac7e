import Sylar.Library.Machine
import Sylar.Log.Logger

/-! Loggers as objects in memory. Here `m_root` and the entries of `m_loggers` are
pointers, so that it is a question which logger a name leads to and where a logger's
events go; loggers and appenders that the manager does not know are there as well. -/
namespace Sylar

open Library

/-- A logger in memory: `parent` is the pointer `m_root`, and `root` the name of its target. -/
structure LoggerObject extends Logger where
  parent : Option Nat

structure LogObjects where
  loggers : List LoggerObject
  heap : List LogAppender
  table : Table fun entry : Text × Nat => entry.1
  root : Nat

/-- What `getLogger` returned for a name. -/
structure Got where
  name : Text
  logger : Nat

/-- The calls on the manager, on loggers and on appenders, other than `log`. -/
inductive LogCall where
  | getLogger (name : Text)
  | newLogger (name : Text)
  | newAppender (sink : Sink)
  | addAppender (l p : Nat)
  | delAppender (l p : Nat)
  | clearAppenders (l : Nat)
  | setLevel (l : Nat) (val : LogLevel)
  | setFormatter (l : Nat) (val : Option LogFormatter)
  | setFormatterText (l : Nat) (val : Text)
  | setOwn (p : Nat) (val : Option LogFormatter)

namespace LogObjects

/-- `LoggerManager::LoggerManager` -/
def create : LogObjects where
  loggers := [{ toLogger := LoggerManager.rootLogger.1, parent := none }]
  heap := LoggerManager.rootLogger.2
  table := Table.empty.put (Loggers.rootName, 0)
  root := 0

/-- `getLogger` by pointers. -/
def getLogger (name : Text) (s : LogObjects) : Nat × LogObjects :=
  match s.table.find? name with
  | some entry => (entry.2, s)
  | none =>
    let logger := { Logger.create name with root := some Loggers.rootName }
    (s.loggers.length,
      { s with
        loggers := s.loggers ++ [{ toLogger := logger, parent := some s.root }]
        table := s.table.put (name, s.loggers.length) })

/-- A call on a logger, which there must be, with its effect on logger and appenders. -/
def onLogger (l : Nat) (call : Logger → List LogAppender → Logger × List LogAppender) (s : LogObjects) :
    Option (List Got × LogObjects) :=
  match s.loggers[l]? with
  | none => none
  | some object =>
    let (logger, heap) := call object.toLogger s.heap
    some ([], { s with loggers := s.loggers.set l ⟨logger, object.parent⟩, heap := heap })

def step (s : LogObjects) : LogCall → Option (List Got × LogObjects)
  | .getLogger name => some ([⟨name, (s.getLogger name).1⟩], (s.getLogger name).2)
  | .newLogger name =>
    some ([], { s with loggers := s.loggers ++ [{ toLogger := Logger.create name, parent := none }] })
  | .newAppender sink => some ([], { s with heap := s.heap ++ [LogAppender.create sink] })
  | .addAppender l p => if p < s.heap.length then s.onLogger l (Logger.addAppender p) else none
  | .delAppender l p => s.onLogger l fun logger heap => (logger.delAppender p, heap)
  | .clearAppenders l => s.onLogger l fun logger heap => (logger.clearAppenders, heap)
  | .setLevel l val => s.onLogger l fun logger heap => (logger.setLevel val, heap)
  | .setFormatter l val => s.onLogger l (Logger.setFormatter val)
  | .setFormatterText l val => s.onLogger l (Logger.setFormatterText val)
  | .setOwn p val =>
    if p < s.heap.length then
      some ([], { s with heap := s.heap.modify p (LogAppender.setFormatter val) })
    else none

/-- A call `appender->log(logger, level, event)`. -/
structure Delivery (E : Type) where
  logger : Nat
  appender : Nat
  level : LogLevel
  event : E
  deriving DecidableEq

/-- `Logger::log`, as the calls that it makes on appenders; `appender->log` is taken to
return (`Loggers.log` has the one that fails, of an appender whose formatter is null). It
calls itself on the parent, so that it only ends if enough fuel is left. -/
def log (s : LogObjects) (level : LogLevel) (event : E) : Nat → Nat → Option (List (Delivery E))
  | 0, _ => none
  | fuel + 1, l =>
    match s.loggers[l]? with
    | none => none
    | some logger =>
      if logger.level ≤ level then
        if logger.appenders ≠ [] then some (logger.appenders.map fun p => ⟨l, p, level, event⟩)
        else
          match logger.parent with
          | some root => s.log level event fuel root
          | none => some []
      else some []

/-- A call on a logger replaces its own fields only. -/
theorem onLogger_some {l : Nat} {call : Logger → List LogAppender → Logger × List LogAppender}
    {s next : LogObjects} {events : List Got} (done : s.onLogger l call = some (events, next)) :
    ∃ object, s.loggers[l]? = some object ∧ events = [] ∧
      next = { s with
        loggers := s.loggers.set l ⟨(call object.toLogger s.heap).1, object.parent⟩
        heap := (call object.toLogger s.heap).2 } := by
  unfold onLogger at done
  split at done
  · cases done
  · rename_i object found
    cases done
    exact ⟨object, found, rfl, rfl⟩

/-- A logger after the update of one. -/
theorem getElem?_updated {loggers : List LoggerObject} {l m : Nat} {logger updated other : LoggerObject}
    (before : loggers[l]? = some logger) :
    (loggers.set l updated)[m]? = some other ↔
      (m = l ∧ updated = other) ∨ (m ≠ l ∧ loggers[m]? = some other) := by
  have inside : l < loggers.length := (List.getElem?_eq_some_iff.mp before).1
  rw [List.getElem?_set]
  by_cases same : l = m
  · simp [same, same ▸ inside]
  · simp [same, Ne.symm same]

/-- A call other than attaching an appender or giving one a formatter. -/
def Other : LogCall → Prop
  | .addAppender _ _ | .setOwn _ _ => False
  | _ => True

/-- What a call makes of the loggers and appenders. -/
inductive Change (s : LogObjects) (call : LogCall) : LogObjects → Prop where
  | same (other : Other call) : Change s call s
  | newLogger (object : LoggerObject) (table : Table fun entry : Text × Nat => entry.1) (other : Other call)
      (empty : object.appenders = []) (formatter : object.formatter ≠ none) :
      Change s call { s with loggers := s.loggers ++ [object], table := table }
  | newAppender (sink : Sink) (other : Other call) :
      Change s call { s with heap := s.heap ++ [LogAppender.create sink] }
  | attach (l p : Nat) (logger : LoggerObject) (attaches : call = .addAppender l p)
      (found : s.loggers[l]? = some logger) (inside : p < s.heap.length) :
      Change s call { s with
        loggers := s.loggers.set l ⟨(logger.addAppender p s.heap).1, logger.parent⟩
        heap := (logger.addAppender p s.heap).2 }
  | shrink (l : Nat) (logger updated : LoggerObject) (other : Other call) (found : s.loggers[l]? = some logger)
      (formatter : updated.formatter = logger.formatter) (fewer : ∀ p ∈ updated.appenders, p ∈ logger.appenders) :
      Change s call { s with loggers := s.loggers.set l updated }
  | setFormatter (l : Nat) (val : Option LogFormatter) (logger : LoggerObject) (other : Other call)
      (null : val = none → call = .setFormatter l none) (found : s.loggers[l]? = some logger) :
      Change s call { s with
        loggers := s.loggers.set l ⟨(logger.setFormatter val s.heap).1, logger.parent⟩
        heap := (logger.setFormatter val s.heap).2 }
  | setOwn (p : Nat) (val : Option LogFormatter) (sets : call = .setOwn p val) (inside : p < s.heap.length) :
      Change s call { s with heap := s.heap.modify p (LogAppender.setFormatter val) }

/-- All that a step can do. -/
theorem step_change {s next : LogObjects} {call : LogCall} {events : List Got}
    (taken : s.step call = some (events, next)) : Change s call next := by
  cases call with
  | getLogger name =>
    cases taken
    unfold getLogger
    split
    · exact .same trivial
    · exact .newLogger _ _ trivial rfl (by simp [Logger.create])
  | newLogger name =>
    cases taken
    exact .newLogger _ s.table trivial rfl (by simp [Logger.create])
  | newAppender sink =>
    cases taken
    exact .newAppender sink trivial
  | addAppender l p =>
    simp only [step] at taken
    split_ifs at taken with inside
    obtain ⟨logger, found, rfl, rfl⟩ := onLogger_some taken
    exact .attach l p logger rfl found inside
  | delAppender l p =>
    simp only [step] at taken
    obtain ⟨logger, found, rfl, rfl⟩ := onLogger_some taken
    exact .shrink l logger _ trivial found rfl fun q => List.mem_of_mem_erase
  | clearAppenders l =>
    simp only [step] at taken
    obtain ⟨logger, found, rfl, rfl⟩ := onLogger_some taken
    exact .shrink l logger _ trivial found rfl fun q member => absurd member List.not_mem_nil
  | setLevel l val =>
    simp only [step] at taken
    obtain ⟨logger, found, rfl, rfl⟩ := onLogger_some taken
    exact .shrink l logger _ trivial found rfl fun q => id
  | setFormatter l val =>
    simp only [step] at taken
    obtain ⟨logger, found, rfl, rfl⟩ := onLogger_some taken
    exact .setFormatter l val logger trivial (fun null => null ▸ rfl) found
  | setFormatterText l val =>
    simp only [step] at taken
    obtain ⟨logger, found, rfl, rfl⟩ := onLogger_some taken
    simp only [Logger.setFormatterText]
    split_ifs with error
    · exact .shrink l logger _ trivial found rfl fun q => id
    · exact .setFormatter l _ logger trivial (fun null => absurd null (by simp)) found
  | setOwn p val =>
    simp only [step] at taken
    split_ifs at taken with inside
    cases taken
    exact .setOwn p val rfl inside

end LogObjects

end Sylar
