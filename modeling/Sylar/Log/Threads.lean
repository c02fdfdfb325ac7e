import Sylar.Library.Locks
import Sylar.Log.Manager

/-! The loggers and appenders used by many threads. A call is the sequence of its
critical sections; what comes next depends on what a section finds. -/
namespace Sylar

open Library

/-- The spinlocks: the manager's, and one for each logger and each appender. -/
inductive Lock where
  | manager
  | logger (l : Nat)
  | appender (p : Nat)
  deriving DecidableEq

/-- Calls whose whole effect is in one section. -/
def LogCall.single : LogCall → Bool
  | .addAppender _ _ | .setFormatter _ _ | .setFormatterText _ _ => false
  | _ => true

/-- What is done between taking and giving back locks. -/
inductive LogAction where
  | whole (call : LogCall) (single : call.single = true)
  /-- `level >= m_level` in `Logger::log`, before the lock -/
  | log (l : Nat) (level : LogLevel)
  | route (l : Nat) (level : LogLevel)
  /-- `level >= m_level` in the `log` of an appender, before the lock -/
  | append (p : Nat) (level : LogLevel)
  | setFormatter (l : Nat) (val : Option LogFormatter)
  | inherit (p : Nat) (val : Option LogFormatter)
  /-- `!appender->getFormatter()` in `addAppender`, under the lock of `getFormatter` -/
  | check (l p : Nat)
  | adopt (l p : Nat)
  | push (l p : Nat)
  | printLogger (l : Nat)
  | printAll
  /-- a section that changes no logger and no appender: formatting an event, printing an
  appender, returning a formatter, opening a file again -/
  | read

abbrev LogCode := List (LockInstr Lock LogAction)

/-- The public operations. -/
inductive PublicCall where
  | change (call : LogCall)
  | log (l : Nat) (level : LogLevel)
  | getFormatter (l : Nat)
  | toYamlString (l : Nat)
  | dump
  | appendTo (p : Nat) (level : LogLevel)
  | getOwn (p : Nat)
  | printAppender (p : Nat)
  | reopen (p : Nat)

/-- An action under one lock. -/
def guarded (lock : Lock) (action : LogAction) : LogCode := [.acquire lock, .act action, .release lock]

/-- Loggers and appenders are made and levels set without a lock. -/
def LogCall.code : LogCall → LogCode
  | .getLogger name => guarded .manager (.whole (.getLogger name) rfl)
  | .newLogger name => [.act (.whole (.newLogger name) rfl)]
  | .newAppender sink => [.act (.whole (.newAppender sink) rfl)]
  | .addAppender l p =>
    [.acquire (.logger l), .acquire (.appender p), .act (.check l p), .release (.logger l)]
  | .delAppender l p => guarded (.logger l) (.whole (.delAppender l p) rfl)
  | .clearAppenders l => guarded (.logger l) (.whole (.clearAppenders l) rfl)
  | .setLevel l val => [.act (.whole (.setLevel l val) rfl)]
  | .setFormatter l val => guarded (.logger l) (.setFormatter l val)
  | .setFormatterText l val =>
    let newVal := LogFormatter.create val
    if newVal.isError then [] else guarded (.logger l) (.setFormatter l (some newVal))
  | .setOwn p val => guarded (.appender p) (.whole (.setOwn p val) rfl)

def PublicCall.code : PublicCall → LogCode
  | .change call => call.code
  | .log l level => [.act (.log l level)]
  | .getFormatter l => guarded (.logger l) .read
  | .toYamlString l => guarded (.logger l) (.printLogger l)
  | .dump => guarded .manager .printAll
  | .appendTo p level => [.act (.append p level)]
  | .getOwn p => guarded (.appender p) .read
  | .printAppender p => guarded (.appender p) .read
  | .reopen p => guarded (.appender p) .read

/-- A formatter that `LogAppender::setFormatter` has set. -/
structure OwnSet where
  appender : Nat
  val : Option LogFormatter

def LogCall.reported : LogCall → List OwnSet
  | .setOwn p val => [⟨p, val⟩]
  | _ => []

namespace LogObjects

/-- The loop over a logger's appenders, with a piece of code for each. -/
def eachAppender (s : LogObjects) (l : Nat) (piece : Nat → LogCode) : Option LogCode :=
  match s.loggers[l]? with
  | none => none
  | some logger => some (logger.appenders.flatMap piece)

/-- The body of `Logger::log` under the logger's lock. -/
def route (s : LogObjects) (l : Nat) (level : LogLevel) : Option LogCode :=
  match s.loggers[l]? with
  | none => none
  | some logger =>
    if logger.appenders ≠ [] then some (logger.appenders.flatMap fun p => [.act (.append p level)])
    else
      match logger.parent with
      | some root => some [.act (.log root level)]
      | none => some []

/-- An action, with what it leaves to do; a null or dangling pointer ends everything. -/
def perform : LogAction → LogObjects → Option (List OwnSet × LogObjects × LogCode)
  | .whole call _, s =>
    match s.step call with
    | none => none
    | some (_, next) => some (call.reported, next, [])
  | .log l level, s =>
    match s.loggers[l]? with
    | none => none
    | some logger => some ([], s, if logger.level ≤ level then guarded (.logger l) (.route l level) else [])
  | .route l level, s =>
    match s.route l level with
    | none => none
    | some code => some ([], s, code)
  | .append p level, s =>
    match s.heap[p]? with
    | none => none
    | some a => some ([], s, if a.level ≤ level then guarded (.appender p) .read else [])
  | .setFormatter l val, s =>
    match s.onLogger l fun logger heap => ({ logger with formatter := val }, heap) with
    | none => none
    | some (_, next) =>
      match s.eachAppender l fun p => guarded (.appender p) (.inherit p val) with
      | none => none
      | some code => some ([], next, code)
  | .inherit p val, s =>
    if p < s.heap.length then some ([], { s with heap := s.heap.modify p (Logger.inherit val) }, []) else none
  | .check l p, s =>
    match s.heap[p]? with
    | none => none
    | some a =>
      some ([], s, .release (.appender p) ::
        ((if a.getFormatter.isNone then guarded (.appender p) (.adopt l p) else []) ++ [.act (.push l p)]))
  | .adopt l p, s =>
    match s.loggers[l]? with
    | none => none
    | some logger =>
      if p < s.heap.length then
        some ([], { s with heap := s.heap.modify p fun a => { a with formatter := logger.formatter } }, [])
      else none
  | .push l p, s =>
    match s.onLogger l fun logger heap => ({ logger with appenders := logger.appenders ++ [p] }, heap) with
    | none => none
    | some (_, next) => some ([], next, [])
  | .printLogger l, s =>
    match s.eachAppender l fun p => guarded (.appender p) .read with
    | none => none
    | some code => some ([], s, code)
  | .printAll, s =>
    some ([], s, s.table.entries.flatMap fun entry => guarded (.logger entry.2) (.printLogger entry.2))
  | .read, s => some ([], s, [])

end LogObjects

/-- The threads that use the loggers. -/
abbrev LogThreads (T : Type) := LockSystem T Lock LogAction LogObjects

def LogThreads.step [DecidableEq T] : LogThreads T → Turn T PublicCall → Option (List OwnSet × LogThreads T) :=
  LockSystem.step PublicCall.code LogObjects.perform

/-- A new manager, and no thread busy. -/
def LogThreads.create : LogThreads T := LockSystem.idle LogObjects.create

end Sylar
