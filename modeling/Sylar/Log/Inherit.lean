import Sylar.Log.Objects

/-! Inherited formatters. An appender without a formatter of its own is given the
logger's when it is attached, and again whenever the logger's changes. -/
namespace Sylar

open Library

namespace LogObjects

/-- Each attached appender without a formatter of its own has its logger's. -/
def Inherits (s : LogObjects) : Prop :=
  ∀ (l : Nat) (logger : LoggerObject), s.loggers[l]? = some logger → ∀ p ∈ logger.appenders,
    ∀ a : LogAppender, s.heap[p]? = some a → a.hasFormatter = false → a.formatter = logger.formatter

/-- No appender is attached to two loggers, nor is one that does not exist yet. -/
structure Exclusive (s : LogObjects) : Prop where
  one : ∀ (l m : Nat) (logger other : LoggerObject) (p : Nat), s.loggers[l]? = some logger → s.loggers[m]? = some other →
    p ∈ logger.appenders → p ∈ other.appenders → l = m
  allocated : ∀ (l : Nat) (logger : LoggerObject) (p : Nat), s.loggers[l]? = some logger → p ∈ logger.appenders → p < s.heap.length

/-- Only an appender that no other logger has is attached, and appenders are not given
null formatters. -/
def Usual (s : LogObjects) : LogCall → Prop
  | .addAppender l p =>
    ∀ (m : Nat) (other : LoggerObject), s.loggers[m]? = some other → p ∈ other.appenders → m = l
  | .setOwn _ val => val.isSome
  | _ => True

/-- An attached appender has a formatter of its own, or none, or the logger's. -/
def Adopts (s : LogObjects) : LogCall → Prop
  | .addAppender l p => ∀ (logger : LoggerObject) (a : LogAppender), s.loggers[l]? = some logger → s.heap[p]? = some a →
    a.hasFormatter = false → a.formatter = none ∨ a.formatter = logger.formatter
  | _ => True

section Calls

variable {s : LogObjects} {l : Nat} {logger updated : LoggerObject}

/-- An update that keeps a logger's formatter and attaches nothing. -/
theorem Inherits.shrink (inherits : s.Inherits) (found : s.loggers[l]? = some logger)
    (formatter : updated.formatter = logger.formatter) (fewer : ∀ p ∈ updated.appenders, p ∈ logger.appenders) :
    Inherits { s with loggers := s.loggers.set l updated } := by
  intro m other after p member a there inherited
  rcases (getElem?_updated found).mp after with ⟨_, rfl⟩ | ⟨_, before⟩
  · rw [formatter]
    exact inherits l logger found p (fewer p member) a there inherited
  · exact inherits m other before p member a there inherited

theorem Exclusive.update (exclusive : s.Exclusive) (found : s.loggers[l]? = some logger) {heap : List LogAppender}
    (length : heap.length = s.heap.length) (fewer : ∀ p ∈ updated.appenders, p ∈ logger.appenders) :
    Exclusive { s with loggers := s.loggers.set l updated, heap := heap } := by
  -- what is attached afterwards was attached to the same logger before
  have before {m : Nat} {other : LoggerObject} {p : Nat} (after : (s.loggers.set l updated)[m]? = some other)
      (member : p ∈ other.appenders) : ∃ old, s.loggers[m]? = some old ∧ p ∈ old.appenders := by
    rcases (getElem?_updated found).mp after with ⟨rfl, rfl⟩ | ⟨_, same⟩
    · exact ⟨logger, found, fewer p member⟩
    · exact ⟨other, same, member⟩
  constructor
  · intro m n first second p after after' member member'
    obtain ⟨old, same, inside⟩ := before after member
    obtain ⟨old', same', inside'⟩ := before after' member'
    exact exclusive.one m n old old' p same same' inside inside'
  · intro m other p after member
    obtain ⟨old, same, inside⟩ := before after member
    rw [length]
    exact exclusive.allocated m old p same inside

theorem inherit_once (val : Option LogFormatter) (a : LogAppender) :
    Logger.inherit val (Logger.inherit val a) = Logger.inherit val a := by
  unfold Logger.inherit
  split_ifs with own
  · rfl
  · rfl

/-- A new formatter reaches the logger's appenders and, as no other logger has these,
nothing that inherits from another. -/
theorem Inherits.change (inherits : s.Inherits) (exclusive : s.Exclusive) (found : s.loggers[l]? = some logger)
    (val : Option LogFormatter) :
    Inherits { s with
      loggers := s.loggers.set l ⟨(logger.setFormatter val s.heap).1, logger.parent⟩
      heap := (logger.setFormatter val s.heap).2 } := by
  intro m other after p member a there inherited
  rcases (getElem?_updated found).mp after with ⟨_, rfl⟩ | ⟨apart, before⟩
  · have inside : p ∈ logger.appenders := member
    change (modifyAll (Logger.inherit val) logger.appenders s.heap)[p]? = some a at there
    rw [getElem?_modifyAll_mem (inherit_once val) inside] at there
    obtain ⟨old, _, rfl⟩ := Option.map_eq_some_iff.mp there
    unfold Logger.inherit at inherited ⊢
    split_ifs at inherited ⊢ with own
    · simp [own] at inherited
    · rfl
  · have elsewhere : p ∉ logger.appenders := fun inside =>
      apart (exclusive.one m l other logger p before found member inside)
    simp only [Logger.setFormatter, getElem?_modifyAll _ elsewhere] at there
    exact inherits m other before p member a there inherited

/-- Attaching keeps the link exactly where the appender adopts it or has it already. -/
theorem Inherits.attach_iff (inherits : s.Inherits) (found : s.loggers[l]? = some logger) {p : Nat}
    {a : LogAppender} (there : s.heap[p]? = some a)
    (alone : ∀ (m : Nat) (other : LoggerObject), s.loggers[m]? = some other → p ∈ other.appenders → m = l) :
    Inherits { s with
        loggers := s.loggers.set l ⟨(logger.addAppender p s.heap).1, logger.parent⟩
        heap := (logger.addAppender p s.heap).2 } ↔
      (a.hasFormatter = false → a.formatter = none ∨ a.formatter = logger.formatter) := by
  have adopted : (s.heap.modify p logger.toLogger.adopt)[p]? = some (logger.toLogger.adopt a) := by
    simp [there]
  have own : (logger.toLogger.adopt a).hasFormatter = a.hasFormatter := by
    unfold Logger.adopt
    split_ifs with missing
    · rfl
    · rfl
  have same : (logger.toLogger.adopt a).formatter = logger.formatter ↔
      a.formatter = none ∨ a.formatter = logger.formatter := by
    unfold Logger.adopt LogAppender.getFormatter
    cases formatter : a.formatter with
    | none => simp
    | some f => simp [formatter]
  constructor
  · intro after inherited
    refine same.mp (after l ⟨(logger.addAppender p s.heap).1, logger.parent⟩ ?_ p ?_ _ adopted (own.trans inherited))
    · exact (getElem?_updated found).mpr (.inl ⟨rfl, rfl⟩)
    · simp [Logger.addAppender]
  · intro adopts m other after q member b at_q inherited
    have elsewhere (different : q ≠ p) : s.heap[q]? = some b := by
      simpa [Logger.addAppender, List.getElem?_modify_ne _ _ (Ne.symm different)] using at_q
    rcases (getElem?_updated found).mp after with ⟨rfl, rfl⟩ | ⟨apart, before⟩
    · by_cases here : q = p
      · subst here
        cases adopted.symm.trans at_q
        exact same.mpr (adopts (own.symm.trans inherited))
      · have old : q ∈ logger.appenders := by simpa [Logger.addAppender, here] using member
        exact inherits m logger found q old b (elsewhere here) inherited
    · have different : q ≠ p := by
        rintro rfl
        exact apart (alone m other before member)
      exact inherits m other before q member b (elsewhere different) inherited

theorem Exclusive.attach (exclusive : s.Exclusive) (found : s.loggers[l]? = some logger) {p : Nat}
    (inside : p < s.heap.length)
    (alone : ∀ (m : Nat) (other : LoggerObject), s.loggers[m]? = some other → p ∈ other.appenders → m = l) :
    Exclusive { s with
      loggers := s.loggers.set l ⟨(logger.addAppender p s.heap).1, logger.parent⟩
      heap := (logger.addAppender p s.heap).2 } := by
  -- what is attached afterwards was before, or is the new appender of this logger
  have before {m : Nat} {other : LoggerObject} {q : Nat}
      (after : (s.loggers.set l ⟨(logger.addAppender p s.heap).1, logger.parent⟩)[m]? = some other)
      (member : q ∈ other.appenders) :
      (∃ old, s.loggers[m]? = some old ∧ q ∈ old.appenders) ∨ (m = l ∧ q = p) := by
    rcases (getElem?_updated found).mp after with ⟨rfl, rfl⟩ | ⟨_, same⟩
    · rcases List.mem_append.mp member with old | new
      · exact .inl ⟨logger, found, old⟩
      · exact .inr ⟨rfl, List.mem_singleton.mp new⟩
    · exact .inl ⟨other, same, member⟩
  constructor
  · intro m n first second q after after' member member'
    rcases before after member with ⟨old, same, there⟩ | ⟨rfl, rfl⟩
    · rcases before after' member' with ⟨old', same', there'⟩ | ⟨rfl, rfl⟩
      · exact exclusive.one m n old old' q same same' there there'
      · exact alone m old same there
    · rcases before after' member' with ⟨old', same', there'⟩ | ⟨rfl, _⟩
      · exact (alone n old' same' there').symm
      · rfl
  · intro m other q after member
    have length : (s.heap.modify p logger.toLogger.adopt).length = s.heap.length := List.length_modify _ _ _
    change q < (s.heap.modify p logger.toLogger.adopt).length
    rw [length]
    rcases before after member with ⟨old, same, there⟩ | ⟨_, rfl⟩
    · exact exclusive.allocated m old q same there
    · exact inside

end Calls

/-- A formatter set on an appender is its own. -/
theorem Inherits.setOwn {s : LogObjects} (inherits : s.Inherits) (p : Nat) (val : LogFormatter) :
    Inherits { s with heap := s.heap.modify p (LogAppender.setFormatter (some val)) } := by
  intro l logger found q member a there inherited
  by_cases here : p = q
  · subst here
    obtain ⟨old, _, rfl⟩ : ∃ old, s.heap[p]? = some old ∧ old.setFormatter (some val) = a := by
      simpa [List.getElem?_modify] using there
    cases inherited
  · rw [List.getElem?_modify_ne _ _ here] at there
    exact inherits l logger found q member a there inherited

theorem Exclusive.heap {s : LogObjects} (exclusive : s.Exclusive) {heap : List LogAppender}
    (grows : s.heap.length ≤ heap.length) : Exclusive { s with heap := heap } where
  one := exclusive.one
  allocated l logger p found member := Nat.lt_of_lt_of_le (exclusive.allocated l logger p found member) grows

/-- A new logger has no appender. -/
theorem getElem?_newLogger {loggers : List LoggerObject} {object logger : LoggerObject} {l p : Nat}
    (empty : object.appenders = []) (found : (loggers ++ [object])[l]? = some logger)
    (member : p ∈ logger.appenders) : loggers[l]? = some logger := by
  rcases getElem?_allocated.mp found with old | ⟨_, rfl⟩
  · exact old
  · rw [empty] at member
    cases member

theorem Exclusive.grow {s : LogObjects} (exclusive : s.Exclusive) {object : LoggerObject}
    (empty : object.appenders = []) (table : Table fun entry : Text × Nat => entry.1) :
    Exclusive { s with loggers := s.loggers ++ [object], table := table } where
  one l m logger other p found found' member member' :=
    exclusive.one l m logger other p (getElem?_newLogger empty found member)
      (getElem?_newLogger empty found' member') member member'
  allocated l logger p found member :=
    exclusive.allocated l logger p (getElem?_newLogger empty found member) member

theorem Inherits.grow {s : LogObjects} (inherits : s.Inherits) {object : LoggerObject}
    (empty : object.appenders = []) (table : Table fun entry : Text × Nat => entry.1) :
    Inherits { s with loggers := s.loggers ++ [object], table := table } := by
  intro l logger found p member a there inherited
  exact inherits l logger (getElem?_newLogger empty found member) p member a there inherited

theorem step_exclusive {s next : LogObjects} {call : LogCall} {events : List Got}
    (usual : s.Usual call) (exclusive : s.Exclusive) (taken : s.step call = some (events, next)) :
    next.Exclusive := by
  cases step_change taken with
  | same => exact exclusive
  | newLogger object table _ empty => exact exclusive.grow empty table
  | newAppender sink => exact exclusive.heap (by simp)
  | attach l p logger attaches found inside =>
    subst attaches
    exact exclusive.attach found inside usual
  | shrink l logger updated _ found _ fewer => exact exclusive.update found rfl fewer
  | setFormatter l val logger _ _ found => exact exclusive.update found (length_modifyAll _ _ _) fun q => id
  | setOwn p val => exact exclusive.heap (by simp)

theorem Adopts.of_other {s : LogObjects} {call : LogCall} (other : Other call) : s.Adopts call := by
  cases call with
  | addAppender => cases other
  | _ => exact trivial

/-- Every call but `addAppender` keeps the link between appenders and loggers. -/
theorem step_inherits_iff {s next : LogObjects} {call : LogCall} {events : List Got}
    (usual : s.Usual call) (exclusive : s.Exclusive) (inherits : s.Inherits)
    (taken : s.step call = some (events, next)) : next.Inherits ↔ s.Adopts call := by
  cases step_change taken with
  | same other => exact iff_of_true inherits (.of_other other)
  | newLogger object table other empty => exact iff_of_true (inherits.grow empty table) (.of_other other)
  | newAppender sink other =>
    refine iff_of_true ?_ (.of_other other)
    intro l logger found p member a there inherited
    have old := exclusive.allocated l logger p found member
    rcases getElem?_allocated.mp there with same | ⟨new, _⟩
    · exact inherits l logger found p member a same inherited
    · exact absurd new (Nat.ne_of_lt old)
  | attach l p logger attaches found inside =>
    subst attaches
    obtain ⟨a, there⟩ : ∃ a, s.heap[p]? = some a := ⟨_, List.getElem?_eq_getElem inside⟩
    rw [inherits.attach_iff found there usual]
    constructor
    · intro adopts other b found' there'
      cases found.symm.trans found'
      cases there.symm.trans there'
      exact adopts
    · intro adopts
      exact adopts logger a found there
  | shrink l logger updated other found formatter fewer =>
    exact iff_of_true (inherits.shrink found formatter fewer) (.of_other other)
  | setFormatter l val logger other _ found =>
    exact iff_of_true (inherits.change exclusive found val) (.of_other other)
  | setOwn p val sets =>
    subst sets
    obtain ⟨formatter, rfl⟩ := Option.isSome_iff_exists.mp usual
    exact iff_of_true (inherits.setOwn p formatter) trivial

/-- In a new manager only the root has an appender, which has inherited. -/
theorem create_linked : create.Exclusive ∧ create.Inherits := by
  have root {l : Nat} {logger : LoggerObject} (found : create.loggers[l]? = some logger) :
      l = 0 ∧ logger = { toLogger := LoggerManager.rootLogger.1, parent := none } := by
    have inside : l < 1 := (List.getElem?_eq_some_iff.mp found).1
    exact ⟨by omega, List.mem_singleton.mp (List.mem_of_getElem? found)⟩
  refine ⟨⟨?_, ?_⟩, ?_⟩
  · intro l m logger other p found found' _ _
    rw [(root found).1, (root found').1]
  · intro l logger p found member
    rw [(root found).2] at member
    rw [List.mem_singleton.mp member]
    exact Nat.zero_lt_one
  · intro l logger found p member a there _
    obtain ⟨_, rfl⟩ := root found
    rw [List.mem_singleton.mp member] at there
    cases there
    rfl

/-- At every point of a run attached appenders without a formatter of their own have
their logger's, exactly when each that is attached has none yet or has it already. -/
theorem inherits_iff {calls : List LogCall} {events : List Got} {s : LogObjects}
    (ran : run step calls create = some (events, s)) (usual : Throughout step Usual calls create) :
    Always step (fun s _ => s.Inherits) calls create ↔ Throughout step Adopts calls create := by
  have kept : ∀ s call events next, Usual s call → Exclusive s → step s call = some (events, next) →
      Exclusive next := fun _ _ _ _ => step_exclusive
  have exactly : ∀ s call (past : List Got) events next, Usual s call → Exclusive s → Inherits s →
      step s call = some (events, next) → (Inherits next ↔ Adopts s call) :=
    fun _ _ _ _ _ => step_inherits_iff
  exact always_iff_throughout kept exactly ran usual create_linked.1 create_linked.2

/-- An appender that no logger has may be attached. -/
theorem usual_unattached {s : LogObjects} {l p : Nat} (free : ∀ logger ∈ s.loggers, p ∉ logger.appenders) :
    s.Usual (.addAppender l p) :=
  fun _ other found member => absurd member (free other (List.mem_of_getElem? found))

/-- An appender attached after a change of the formatter. -/
theorem inherits_iff_fresh :
    Always step (fun s _ => s.Inherits) [.newAppender .stdout,
      .setFormatter 0 (some (LogFormatter.create ['%', 'm'])), .addAppender 0 1] create := by
  refine (inherits_iff rfl ?_).mpr ?_
  · exact (throughout_cons rfl).mpr ⟨trivial, (throughout_cons rfl).mpr ⟨trivial,
      (throughout_cons rfl).mpr ⟨usual_unattached (by decide), trivial⟩⟩⟩
  · refine (throughout_cons rfl).mpr ⟨trivial, (throughout_cons rfl).mpr ⟨trivial,
      (throughout_cons rfl).mpr ⟨?_, trivial⟩⟩⟩
    intro logger a found there inherited
    cases there
    exact .inl rfl

/-- An appender that is detached while its logger's formatter changes comes back with
the old one. -/
def reattached : List LogCall :=
  [.newAppender .stdout, .addAppender 0 1, .delAppender 0 1,
    .setFormatter 0 (some (LogFormatter.create ['%', 'm'])), .addAppender 0 1]

theorem inherits_fails :
    ∃ s, run step reattached create = some ([], s) ∧ Throughout step Usual reattached create ∧
      ¬ Inherits s := by
  refine ⟨_, rfl, ?_, ?_⟩
  · exact (throughout_cons rfl).mpr ⟨trivial, (throughout_cons rfl).mpr
      ⟨usual_unattached (by decide), (throughout_cons rfl).mpr ⟨trivial, (throughout_cons rfl).mpr
        ⟨trivial, (throughout_cons rfl).mpr ⟨usual_unattached (by decide), trivial⟩⟩⟩⟩⟩
  · intro inherits
    have same := inherits 0 _ rfl 1 (List.mem_cons_of_mem 0 (List.mem_singleton_self 1)) _ rfl rfl
    exact absurd (congrArg (Option.map LogFormatter.getPattern) same) (by decide)

end LogObjects

end Sylar
