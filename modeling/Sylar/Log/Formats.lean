import Sylar.Log.Inherit

/-! Whether an attached appender can format. `log` of both appender classes dereferences
`m_formatter`, which is null at first and again after `setFormatter(nullptr)`. -/
namespace Sylar

open Library

namespace LogObjects

/-- Every attached appender has a formatter. -/
def Formats (s : LogObjects) : Prop :=
  ∀ (l : Nat) (logger : LoggerObject), s.loggers[l]? = some logger → ∀ p ∈ logger.appenders,
    ∀ a : LogAppender, s.heap[p]? = some a → a.formatter ≠ none

/-- Then no log call on an attached appender uses a null formatter. -/
theorem Formats.log {s : LogObjects} (formats : s.Formats) {l p : Nat} {logger : LoggerObject} {a : LogAppender}
    (found : s.loggers[l]? = some logger) (member : p ∈ logger.appenders) (there : s.heap[p]? = some a)
    (level : LogLevel) : ∃ lines, a.log p level = some lines :=
  (a.log_eq_some_iff p level).mpr fun _ => formats l logger found p member a there

/-- Attached appenders exist, and every logger has a formatter to give. -/
structure Equipped (s : LogObjects) : Prop where
  allocated : ∀ (l : Nat) (logger : LoggerObject), s.loggers[l]? = some logger →
    ∀ p ∈ logger.appenders, p < s.heap.length
  formatter : ∀ (l : Nat) (logger : LoggerObject), s.loggers[l]? = some logger → logger.formatter ≠ none

/-- Loggers are not given null formatters. -/
def NonNull (_ : LogObjects) : LogCall → Prop
  | .setFormatter _ val => val ≠ none
  | _ => True

theorem NonNull.given {s : LogObjects} {call : LogCall} (nonNull : s.NonNull call) {l : Nat}
    {val : Option LogFormatter} (null : val = none → call = .setFormatter l none) : val ≠ none := by
  intro none_given
  cases null none_given
  exact nonNull rfl

/-- An appender that is given a null formatter is attached to no logger. -/
def Detached (s : LogObjects) : LogCall → Prop
  | .setOwn p none => ∀ (l : Nat) (logger : LoggerObject), s.loggers[l]? = some logger → p ∉ logger.appenders
  | _ => True

section Calls

variable {s : LogObjects} {l : Nat} {logger updated : LoggerObject} {heap : List LogAppender}

/-- An update of a logger and of appenders that takes no formatter away. -/
theorem Formats.update (formats : s.Formats) (found : s.loggers[l]? = some logger)
    (kept : ∀ (p : Nat) (a : LogAppender), heap[p]? = some a →
      ∃ old, s.heap[p]? = some old ∧ (old.formatter ≠ none → a.formatter ≠ none))
    (attached : ∀ p ∈ updated.appenders, p ∈ logger.appenders ∨
      ∀ a : LogAppender, heap[p]? = some a → a.formatter ≠ none) :
    Formats { s with loggers := s.loggers.set l updated, heap := heap } := by
  intro m other after p member a there
  obtain ⟨old, before, keeps⟩ := kept p a there
  rcases (getElem?_updated found).mp after with ⟨_, rfl⟩ | ⟨_, same⟩
  · rcases attached p member with inside | given
    · exact keeps (formats l logger found p inside old before)
    · exact given a there
  · exact keeps (formats m other same p member old before)

theorem Equipped.update (equipped : s.Equipped) (found : s.loggers[l]? = some logger)
    (length : heap.length = s.heap.length) (formatter : updated.formatter ≠ none)
    (attached : ∀ p ∈ updated.appenders, p ∈ logger.appenders ∨ p < s.heap.length) :
    Equipped { s with loggers := s.loggers.set l updated, heap := heap } := by
  constructor
  · intro m other after p member
    rw [length]
    rcases (getElem?_updated found).mp after with ⟨_, rfl⟩ | ⟨_, same⟩
    · rcases attached p member with inside | new
      · exact equipped.allocated l logger found p inside
      · exact new
    · exact equipped.allocated m other same p member
  · intro m other after
    rcases (getElem?_updated found).mp after with ⟨_, rfl⟩ | ⟨_, same⟩
    · exact formatter
    · exact equipped.formatter m other same

/-- A new logger has a formatter and no appender. -/
theorem Equipped.grow (equipped : s.Equipped) {object : LoggerObject} (empty : object.appenders = [])
    (formatter : object.formatter ≠ none) (table : Table fun entry : Text × Nat => entry.1) :
    Equipped { s with loggers := s.loggers ++ [object], table := table } := by
  constructor
  · intro m other found p member
    exact equipped.allocated m other (getElem?_newLogger empty found member) p member
  · intro m other found
    rcases getElem?_allocated.mp found with old | ⟨_, rfl⟩
    · exact equipped.formatter m other old
    · exact formatter

theorem Formats.grow (formats : s.Formats) {object : LoggerObject} (empty : object.appenders = [])
    (table : Table fun entry : Text × Nat => entry.1) :
    Formats { s with loggers := s.loggers ++ [object], table := table } := by
  intro m other found p member a there
  exact formats m other (getElem?_newLogger empty found member) p member a there

/-- A formatter that a logger passes on takes none away. -/
theorem inherit_formatter {val : Option LogFormatter} (given : val ≠ none) (a : LogAppender)
    (before : a.formatter ≠ none) : (Logger.inherit val a).formatter ≠ none := by
  unfold Logger.inherit
  split_ifs
  · exact before
  · exact given

/-- `addAppender` leaves the appender with a formatter. -/
theorem adopt_formatter {logger : Logger} (given : logger.formatter ≠ none) (a : LogAppender) :
    (logger.adopt a).formatter ≠ none := by
  unfold Logger.adopt LogAppender.getFormatter
  split_ifs with missing
  · exact given
  · simpa using missing

end Calls

theorem step_equipped {s next : LogObjects} {call : LogCall} {events : List Got} (nonNull : s.NonNull call)
    (equipped : s.Equipped) (taken : s.step call = some (events, next)) : next.Equipped := by
  cases step_change taken with
  | same => exact equipped
  | newLogger object table _ empty formatter => exact equipped.grow empty formatter table
  | newAppender sink =>
    constructor
    · intro l logger found p member
      have old := equipped.allocated l logger found p member
      rw [List.length_append]
      omega
    · exact equipped.formatter
  | attach l p logger _ found inside =>
    refine equipped.update found (List.length_modify _ _ _) (equipped.formatter l logger found) ?_
    intro q member
    rcases List.mem_append.mp member with old | new
    · exact .inl old
    · rw [List.mem_singleton.mp new]
      exact .inr inside
  | shrink l logger updated _ found formatter fewer =>
    apply equipped.update found rfl
    · rw [formatter]
      exact equipped.formatter l logger found
    · exact fun q member => .inl (fewer q member)
  | setFormatter l val logger _ null found =>
    exact equipped.update found (length_modifyAll _ _ _) (nonNull.given null) fun q => .inl
  | setOwn p val =>
    constructor
    · intro l logger found q member
      rw [List.length_modify]
      exact equipped.allocated l logger found q member
    · exact equipped.formatter

theorem Detached.of_other {s : LogObjects} {call : LogCall} (other : Other call) : s.Detached call := by
  cases call with
  | setOwn => cases other
  | _ => exact trivial

/-- An appender loses its formatter exactly by a null one of its own. -/
theorem formats_setOwn_iff {s : LogObjects} (formats : s.Formats) {p : Nat} (inside : p < s.heap.length)
    (val : Option LogFormatter) :
    Formats { s with heap := s.heap.modify p (LogAppender.setFormatter val) } ↔ s.Detached (.setOwn p val) := by
  cases val with
  | some formatter =>
    refine iff_of_true ?_ trivial
    intro l logger found q member a there
    have given (a : LogAppender) (_ : a.formatter ≠ none) :
        (a.setFormatter (some formatter)).formatter ≠ none := by
      simp [LogAppender.setFormatter]
    obtain ⟨old, before, keeps⟩ := kept_modify given there
    exact keeps (formats l logger found q member old before)
  | none =>
    constructor
    · intro after l logger found attached
      have there : (s.heap.modify p (LogAppender.setFormatter none))[p]? =
          some (s.heap[p].setFormatter none) := by
        simp [List.getElem?_eq_getElem inside]
      exact after l logger found p attached _ there rfl
    · intro detached l logger found q member a there
      have different : p ≠ q := by
        rintro rfl
        exact detached l logger found member
      rw [List.getElem?_modify_ne _ _ different] at there
      exact formats l logger found q member a there

/-- A step leaves every attached appender a formatter, unless it takes one away. -/
theorem step_formats_iff {s next : LogObjects} {call : LogCall} {events : List Got} (nonNull : s.NonNull call)
    (equipped : s.Equipped) (formats : s.Formats) (taken : s.step call = some (events, next)) :
    next.Formats ↔ s.Detached call := by
  cases step_change taken with
  | same other => exact iff_of_true formats (.of_other other)
  | newLogger object table other empty => exact iff_of_true (formats.grow empty table) (.of_other other)
  | newAppender sink other =>
    refine iff_of_true ?_ (.of_other other)
    intro l logger found p member a there
    have old := equipped.allocated l logger found p member
    rcases getElem?_allocated.mp there with before | ⟨new, _⟩
    · exact formats l logger found p member a before
    · exact absurd new (Nat.ne_of_lt old)
  | attach l p logger attaches found =>
    subst attaches
    refine iff_of_true (formats.update found ?_ ?_) trivial
    · intro q a there
      exact kept_modify (fun a _ => adopt_formatter (equipped.formatter l logger found) a) there
    · intro q member
      rcases List.mem_append.mp member with old | new
      · exact .inl old
      · rw [List.mem_singleton.mp new]
        refine .inr ?_
        intro a there
        obtain ⟨old, _, rfl⟩ : ∃ old, s.heap[p]? = some old ∧ logger.toLogger.adopt old = a := by
          simpa [Logger.addAppender, List.getElem?_modify] using there
        exact adopt_formatter (equipped.formatter l logger found) old
  | shrink l logger updated other found _ fewer =>
    refine iff_of_true (formats.update found ?_ fun q member => .inl (fewer q member)) (.of_other other)
    intro q a there
    exact ⟨a, there, id⟩
  | setFormatter l val logger other null found =>
    refine iff_of_true (formats.update found ?_ fun q => .inl) (.of_other other)
    intro q a there
    exact kept_modifyAll (inherit_formatter (nonNull.given null)) there
  | setOwn p val sets inside =>
    subst sets
    exact formats_setOwn_iff formats inside val

theorem create_formats : create.Equipped ∧ create.Formats := by
  have root {l : Nat} {logger : LoggerObject} (found : create.loggers[l]? = some logger) :
      logger = { toLogger := LoggerManager.rootLogger.1, parent := none } :=
    List.mem_singleton.mp (List.mem_of_getElem? found)
  refine ⟨⟨?_, ?_⟩, ?_⟩
  · intro l logger found p member
    rw [root found] at member
    rw [List.mem_singleton.mp member]
    exact Nat.zero_lt_one
  · intro l logger found
    rw [root found]
    simp [LoggerManager.rootLogger, Logger.addAppender, Logger.create]
  · intro l logger found p member a there
    rw [root found] at member
    rw [List.mem_singleton.mp member] at there
    cases there
    simp [Logger.adopt, LogAppender.getFormatter, LogAppender.create, Logger.create]

/-- At every point of a run all attached appenders have a formatter, exactly when none is
given a null one while it is attached. -/
theorem formats_iff {calls : List LogCall} {events : List Got} {s : LogObjects}
    (ran : run step calls create = some (events, s)) (nonNull : Throughout step NonNull calls create) :
    Always step (fun s _ => s.Formats) calls create ↔ Throughout step Detached calls create := by
  have kept : ∀ s call events next, NonNull s call → Equipped s → step s call = some (events, next) →
      Equipped next := fun _ _ _ _ => step_equipped
  have exactly : ∀ s call (past : List Got) events next, NonNull s call → Equipped s → Formats s →
      step s call = some (events, next) → (Formats next ↔ Detached s call) :=
    fun _ _ _ _ _ => step_formats_iff
  exact always_iff_throughout kept exactly ran nonNull create_formats.1 create_formats.2

/-- An appender is given a null formatter before it is attached. -/
def prepared : List LogCall := [.newAppender .stdout, .setOwn 1 none, .addAppender 0 1]

theorem formats_iff_prepared :
    Always step (fun s _ => s.Formats) prepared create ↔ Throughout step Detached prepared create :=
  formats_iff rfl ((throughout_cons rfl).mpr ⟨trivial, (throughout_cons rfl).mpr ⟨trivial,
    (throughout_cons rfl).mpr ⟨trivial, trivial⟩⟩⟩)

/-- The appender of the root logger is given a null formatter; the next event that it
logs uses it. -/
theorem formats_fails :
    Throughout step NonNull [.setOwn 0 none] create ∧
    ∃ s, run step [.setOwn 0 none] create = some ([], s) ∧ ¬ s.Formats ∧
      ∃ a, s.heap[0]? = some a ∧ a.log 0 .fatal = none := by
  refine ⟨(throughout_cons rfl).mpr ⟨trivial, trivial⟩, _, rfl, ?_, _, rfl, rfl⟩
  intro formats
  exact formats 0 _ rfl 0 List.mem_cons_self _ rfl rfl

end LogObjects

end Sylar
