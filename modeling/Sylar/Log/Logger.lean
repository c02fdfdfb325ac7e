import Mathlib.Data.List.Lex
import Sylar.Library.Heap
import Sylar.Library.Table
import Sylar.Log.Formatter

/-! Loggers, their appenders and the manager. A logger never leaves the manager's
table, so its name identifies it; appenders are shared and live in a heap. Logging goes
as far as the calls of `format`: what these write to the sinks is not modelled here. -/
namespace Sylar

open Library

/-- `StdoutLogAppender` or `FileLogAppender(filename)`. -/
inductive Sink where
  | stdout
  | file (filename : Text)
  deriving DecidableEq, Repr

/-- Formatters do not change, so a `LogFormatter::ptr` is its target or null. -/
structure LogAppender where
  sink : Sink
  level : LogLevel
  hasFormatter : Bool
  formatter : Option LogFormatter
  deriving DecidableEq

namespace LogAppender

def create (sink : Sink) : LogAppender := ⟨sink, .debug, false, none⟩

def setFormatter (val : Option LogFormatter) (appender : LogAppender) : LogAppender :=
  { appender with formatter := val, hasFormatter := val.isSome }

def getFormatter (appender : LogAppender) : Option LogFormatter := appender.formatter

def setLevel (val : LogLevel) (appender : LogAppender) : LogAppender := { appender with level := val }

end LogAppender

/-- `m_appenders` holds pointers into the heap of appenders, `m_root` a logger's name. -/
structure Logger where
  name : Text
  level : LogLevel
  appenders : List Nat
  formatter : Option LogFormatter
  root : Option Text
  deriving DecidableEq

namespace Logger

/-- `Logger::Logger(name)`. -/
def create (name : Text) : Logger := ⟨name, .debug, [], some (LogFormatter.create defaultPattern), none⟩

def setLevel (val : LogLevel) (logger : Logger) : Logger := { logger with level := val }

/-- What `Logger::setFormatter` does to an attached appender. -/
def inherit (val : Option LogFormatter) (appender : LogAppender) : LogAppender :=
  if appender.hasFormatter then appender else { appender with formatter := val }

/-- `Logger::setFormatter(LogFormatter::ptr)`. -/
def setFormatter (val : Option LogFormatter) (logger : Logger) (heap : List LogAppender) :
    Logger × List LogAppender :=
  ({ logger with formatter := val }, modifyAll (inherit val) logger.appenders heap)

/-- `Logger::setFormatter(const std::string&)`. -/
def setFormatterText (val : Text) (logger : Logger) (heap : List LogAppender) :
    Logger × List LogAppender :=
  let newVal := LogFormatter.create val
  if newVal.isError then (logger, heap) else logger.setFormatter (some newVal) heap

/-- What `Logger::addAppender` does to the appender. -/
def adopt (logger : Logger) (appender : LogAppender) : LogAppender :=
  if appender.getFormatter.isNone then { appender with formatter := logger.formatter } else appender

def addAppender (appender : Nat) (logger : Logger) (heap : List LogAppender) :
    Logger × List LogAppender :=
  ({ logger with appenders := logger.appenders ++ [appender] }, heap.modify appender logger.adopt)

/-- `delAppender`: the first occurrence goes. -/
def delAppender (appender : Nat) (logger : Logger) : Logger :=
  { logger with appenders := logger.appenders.erase appender }

def clearAppenders (logger : Logger) : Logger := { logger with appenders := [] }

/-- A text sets formatters only. -/
theorem setFormatterText_fields (val : Text) (logger : Logger) (heap : List LogAppender) :
    (logger.setFormatterText val heap).1.name = logger.name ∧
      (logger.setFormatterText val heap).1.root = logger.root ∧
      (logger.setFormatterText val heap).1.appenders = logger.appenders ∧
      (logger.setFormatterText val heap).2.length = heap.length := by
  rw [setFormatterText]
  split
  · exact ⟨rfl, rfl, rfl, rfl⟩
  · exact ⟨rfl, rfl, rfl, length_modifyAll _ _ heap⟩

end Logger

/-- A call on a logger and the appenders that leaves the logger its name and its root. -/
def KeepsName (call : Logger → List LogAppender → Logger × List LogAppender) : Prop :=
  ∀ logger heap, (call logger heap).1.name = logger.name ∧ (call logger heap).1.root = logger.root

/-- `m_loggers` with the heap that its loggers point into. -/
structure Loggers where
  table : Table Logger.name
  heap : List LogAppender

namespace Loggers

def rootName : Text := ['r', 'o', 'o', 't']

/-- `getLogger`: a new logger is entered with the root as its `m_root`. -/
def getLogger (name : Text) (s : Loggers) : Logger × Loggers :=
  match s.table.find? name with
  | some logger => (logger, s)
  | none =>
    let logger := { Logger.create name with root := some rootName }
    (logger, { s with table := s.table.put logger })

/-- The writes of a call on one logger take effect in the table and the heap. -/
def write (logger : Logger) (heap : List LogAppender) (s : Loggers) : Loggers :=
  ⟨s.table.put logger, heap⟩

/-- A call on the logger of a name. -/
def onName (name : Text) (call : Logger → List LogAppender → Logger × List LogAppender) (s : Loggers) : Loggers :=
  let (logger, s) := s.getLogger name
  let (logger, heap) := call logger s.heap
  s.write logger heap

/-- No logger points outside the heap, and the root is there, itself without a root. -/
structure Sound (s : Loggers) : Prop where
  attached : ∀ name logger, s.table.find? name = some logger → ∀ p ∈ logger.appenders, p < s.heap.length
  rooted : ∃ root, s.table.find? rootName = some root ∧ root.root = none

@[simp] theorem find?_write_same (logger : Logger) (heap : List LogAppender) (s : Loggers) :
    (s.write logger heap).table.find? logger.name = some logger :=
  Table.find?_put_same s.table logger

theorem find?_write_other {logger : Logger} {name : Text} (other : logger.name ≠ name)
    (heap : List LogAppender) (s : Loggers) :
    (s.write logger heap).table.find? name = s.table.find? name :=
  Table.find?_put_other s.table other

theorem getLogger_name (name : Text) (s : Loggers) : (s.getLogger name).1.name = name := by
  cases found : s.table.find? name with
  | none => simp [getLogger, found, Logger.create]
  | some logger =>
    rw [getLogger, found]
    exact ((Table.find?_eq_some_iff _ _ _).mp found).2

/-- The call's result is the logger of the name then, and no other logger is changed. -/
theorem find?_onName_same {call : Logger → List LogAppender → Logger × List LogAppender} (keeps : KeepsName call)
    (name : Text) (s : Loggers) : (s.onName name call).table.find? name =
      some (call (s.getLogger name).1 (s.getLogger name).2.heap).1 := by
  have written := find?_write_same (call (s.getLogger name).1 (s.getLogger name).2.heap).1
    (call (s.getLogger name).1 (s.getLogger name).2.heap).2 (s.getLogger name).2
  rw [(keeps _ _).1, s.getLogger_name name] at written
  exact written

theorem find?_onName_other {call : Logger → List LogAppender → Logger × List LogAppender} (keeps : KeepsName call)
    {name other : Text} (apart : name ≠ other) (s : Loggers) :
    (s.onName name call).table.find? other = (s.getLogger name).2.table.find? other := by
  have outside : (call (s.getLogger name).1 (s.getLogger name).2.heap).1.name ≠ other := by
    rw [(keeps _ _).1, s.getLogger_name name]
    exact apart
  exact find?_write_other outside _ _

theorem getLogger_heap (name : Text) (s : Loggers) : (s.getLogger name).2.heap = s.heap := by
  cases found : s.table.find? name with
  | none | some => simp [getLogger, found]

theorem getLogger_other {name other : Text} (apart : name ≠ other) (s : Loggers) :
    (s.getLogger name).2.table.find? other = s.table.find? other := by
  cases found : s.table.find? name with
  | none => simpa [getLogger, found] using Table.find?_put_other s.table (by simpa [Logger.create] using apart)
  | some logger => simp [getLogger, found]

/-- A logger of the table, or a new one without appenders. -/
theorem getLogger_cases (name : Text) (s : Loggers) :
    s.table.find? name = some (s.getLogger name).1 ∨
      s.table.find? name = none ∧ (s.getLogger name).1.appenders = [] := by
  cases found : s.table.find? name with
  | none => exact .inr ⟨rfl, by simp [getLogger, found, Logger.create]⟩
  | some logger => exact .inl (by simp [getLogger, found])

theorem getLogger_found {name : Text} {s : Loggers} {logger : Logger}
    (found : s.table.find? name = some logger) : (s.getLogger name).1 = logger := by
  rw [getLogger, found]

theorem getLogger_congr {name : Text} {s next : Loggers}
    (same : next.table.find? name = s.table.find? name) :
    (next.getLogger name).1 = (s.getLogger name).1 := by
  cases found : s.table.find? name with
  | none | some => simp [getLogger, same, found]

theorem Sound.getLogger {s : Loggers} (sound : s.Sound) (name : Text) :
    ∀ p ∈ (s.getLogger name).1.appenders, p < s.heap.length := by
  intro p member
  rcases s.getLogger_cases name with found | ⟨_, empty⟩
  · exact sound.attached name _ found p member
  · rw [empty] at member
    cases member

theorem Sound.write {s : Loggers} (sound : s.Sound) {logger : Logger} {heap : List LogAppender}
    (grows : s.heap.length ≤ heap.length) (inside : ∀ p ∈ logger.appenders, p < heap.length)
    (top : logger.name = rootName → logger.root = none) : (s.write logger heap).Sound where
  attached name other found p member := by
    obtain ⟨entry, same⟩ := (Table.find?_eq_some_iff _ _ _).mp found
    rcases (Table.mem_put _ _ _).mp entry with rfl | ⟨old, _⟩
    · exact inside p member
    · have before := (Table.find?_eq_some_iff _ _ _).mpr ⟨old, same⟩
      exact Nat.lt_of_lt_of_le (sound.attached name other before p member) grows
  rooted := by
    by_cases same : logger.name = rootName
    · exact ⟨logger, by rw [← same, find?_write_same], top same⟩
    · obtain ⟨root, found, unrooted⟩ := sound.rooted
      exact ⟨root, (find?_write_other same heap s).trans found, unrooted⟩

/-- The root logger has no root, new or found. -/
theorem Sound.top {s : Loggers} (sound : s.Sound) {name : Text} (isRoot : name = rootName) :
    (s.getLogger name).1.root = none := by
  obtain ⟨root, found, unrooted⟩ := sound.rooted
  rw [isRoot, getLogger_found found, unrooted]

theorem Sound.openLogger {s : Loggers} (sound : s.Sound) (name : Text) : (s.getLogger name).2.Sound := by
  cases found : s.table.find? name with
  | some logger => simpa [Loggers.getLogger, found] using sound
  | none =>
    have apart : name ≠ rootName := by
      intro same
      obtain ⟨root, there, _⟩ := sound.rooted
      rw [same, there] at found
      cases found
    have made : (s.write { Logger.create name with root := some rootName } s.heap).Sound := by
      refine sound.write (Nat.le_refl s.heap.length) ?_ fun same => absurd same apart
      simp [Logger.create]
    simpa [Loggers.getLogger, found, Loggers.write] using made

/-- A call on one logger that leaves its appenders in the heap. -/
theorem Sound.onName {s : Loggers} (sound : s.Sound) (name : Text)
    {call : Logger → List LogAppender → Logger × List LogAppender} (keeps : KeepsName call)
    (grows : s.heap.length ≤ (call (s.getLogger name).1 s.heap).2.length)
    (inside : ∀ p ∈ (call (s.getLogger name).1 s.heap).1.appenders, p < (call (s.getLogger name).1 s.heap).2.length) :
    (s.onName name call).Sound := by
  have heap := s.getLogger_heap name
  rw [← heap] at grows inside
  obtain ⟨sameName, sameRoot⟩ := keeps (s.getLogger name).1 (s.getLogger name).2.heap
  have top : (call (s.getLogger name).1 (s.getLogger name).2.heap).1.name = rootName →
      (call (s.getLogger name).1 (s.getLogger name).2.heap).1.root = none := by
    intro isRoot
    rw [sameName, s.getLogger_name name] at isRoot
    exact sameRoot.trans (sound.top isRoot)
  exact (sound.openLogger name).write grows inside top

end Loggers

/-- A call of `m_formatter->format`: the appender, where it writes, and the formatter. -/
structure Line where
  appender : Nat
  sink : Sink
  formatter : LogFormatter

/-- `log` of either appender class; `none` is a null formatter used. -/
def LogAppender.log (p : Nat) (level : LogLevel) (appender : LogAppender) : Option (List Line) :=
  if appender.level ≤ level then
    match appender.formatter with
    | none => none
    | some formatter => some [⟨p, appender.sink, formatter⟩]
  else some []

theorem LogAppender.log_eq_some_iff (p : Nat) (level : LogLevel) (appender : LogAppender) :
    (∃ lines, appender.log p level = some lines) ↔ (appender.level ≤ level → appender.formatter ≠ none) := by
  unfold LogAppender.log
  by_cases reached : appender.level ≤ level
  · cases given : appender.formatter with
    | none | some => simp [reached]
  · simp [reached]

namespace Loggers

/-- The loop of `Logger::log` over the appenders. -/
def logAll (level : LogLevel) (heap : List LogAppender) : List Nat → Option (List Line)
  | [] => some []
  | p :: rest =>
    match heap[p]? with
    | none => none
    | some appender =>
      match appender.log p level, logAll level heap rest with
      | some lines, some later => some (lines ++ later)
      | _, _ => none

/-- `Logger::log` of the logger of a name. It calls itself on the root, so that it only
ends if enough fuel is left. -/
def log (level : LogLevel) (s : Loggers) : Nat → Text → Option (List Line)
  | 0, _ => none
  | fuel + 1, name =>
    match s.table.find? name with
    | none => none
    | some logger =>
      if logger.level ≤ level then
        if logger.appenders ≠ [] then logAll level s.heap logger.appenders
        else
          match logger.root with
          | some root => s.log level fuel root
          | none => some []
      else some []

/-- The first line of the listener on `logs`,
`SYLAR_LOG_INFO(SYLAR_LOG_ROOT()) << "on_logger_conf_changed"`. -/
def announce (s : Loggers) : Option (List Line) := s.log .info 2 rootName

/-- No appender of the root logger that the line reaches has a null formatter. -/
def Announces (s : Loggers) : Prop :=
  ∀ root, s.table.find? rootName = some root → root.level ≤ .info → ∀ p ∈ root.appenders,
    ∀ appender, s.heap[p]? = some appender → appender.level ≤ .info → appender.formatter ≠ none

theorem logAll_eq_some_iff (level : LogLevel) (heap : List LogAppender) {ps : List Nat}
    (inside : ∀ p ∈ ps, p < heap.length) :
    (∃ lines, logAll level heap ps = some lines) ↔
      ∀ p ∈ ps, ∀ appender, heap[p]? = some appender → appender.level ≤ level → appender.formatter ≠ none := by
  induction ps with
  | nil => simp [logAll]
  | cons p rest ih =>
    obtain ⟨here, later⟩ := List.forall_mem_cons.mp inside
    have first := heap[p].log_eq_some_iff p level
    rw [List.forall_mem_cons, ← ih later]
    simp only [logAll, List.getElem?_eq_getElem here, Option.some.injEq, forall_eq']
    rw [← first]
    cases heap[p].log p level with
    | none => simp
    | some lines =>
      cases logAll level heap rest with
      | none | some => simp

/-- The root logger passes nothing on, so its own appenders decide. -/
theorem Sound.announce_eq_some_iff {s : Loggers} (sound : s.Sound) :
    (∃ lines, s.announce = some lines) ↔ s.Announces := by
  obtain ⟨root, found, top⟩ := sound.rooted
  have all := logAll_eq_some_iff .info s.heap (sound.attached rootName root found)
  simp only [announce, log, Announces, found, top, Option.some.injEq, forall_eq']
  by_cases reached : root.level ≤ .info
  · by_cases empty : root.appenders = []
    · simp [reached, empty]
    · simpa [reached, empty] using all
  · simp [reached]

end Loggers

/-- `LoggerManager`: sound loggers. -/
structure LoggerManager where
  loggers : Loggers
  sound : loggers.Sound

namespace LoggerManager

/-- The root logger of a new manager with its one appender, which has inherited. -/
def rootLogger : Logger × List LogAppender :=
  (Logger.create Loggers.rootName).addAppender 0 [LogAppender.create .stdout]

/-- `LoggerManager::LoggerManager`. -/
def create : LoggerManager where
  loggers := ⟨Table.empty.put rootLogger.1, rootLogger.2⟩
  sound := by
    constructor
    · intro name logger found p inside
      obtain ⟨member, _⟩ := (Table.find?_eq_some_iff _ _ _).mp found
      rcases (Table.mem_put _ _ _).mp member with rfl | ⟨absent, _⟩
      · simpa [rootLogger, Logger.addAppender, Logger.create] using inside
      · cases absent
    · exact ⟨rootLogger.1, Table.find?_put_same Table.empty rootLogger.1, rfl⟩

/-- An appender that is not attached to any logger yet. -/
def newAppender (appender : LogAppender) (m : LoggerManager) : LoggerManager where
  loggers := { m.loggers with heap := m.loggers.heap ++ [appender] }
  sound := by
    refine ⟨fun name logger found p member => ?_, m.sound.rooted⟩
    have inside := m.sound.attached name logger found p member
    rw [List.length_append]
    omega

/-- `getLogger(name)->addAppender(p)`. -/
def addAppender (name : Text) (p : Nat) (m : LoggerManager) (inside : p < m.loggers.heap.length) :
    LoggerManager where
  loggers := m.loggers.onName name (Logger.addAppender p)
  sound := by
    have length : ((m.loggers.getLogger name).1.addAppender p m.loggers.heap).2.length = m.loggers.heap.length :=
      List.length_modify _ _ _
    refine m.sound.onName name (fun _ _ => ⟨rfl, rfl⟩) (Nat.le_of_eq length.symm) fun q member => ?_
    rw [length]
    rcases List.mem_append.mp member with old | new
    · exact m.sound.getLogger name q old
    · rw [List.mem_singleton.mp new]
      exact inside

/-- `appender->setFormatter(val)` -/
def setOwn (p : Nat) (val : Option LogFormatter) (m : LoggerManager) : LoggerManager where
  loggers := { m.loggers with heap := m.loggers.heap.modify p (LogAppender.setFormatter val) }
  sound := by
    refine ⟨fun name logger found q member => ?_, m.sound.rooted⟩
    rw [List.length_modify]
    exact m.sound.attached name logger found q member

end LoggerManager

end Sylar
