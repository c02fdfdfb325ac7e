import Mathlib.Logic.Relation
import Sylar.Log.File
import Sylar.Log.Manager

/-! Loggers by name against loggers in memory: what is done to the logger of a name is
done to the object that the name leads to, and its events reach the same appenders. -/
namespace Sylar

open Library

/-- The objects of the manager's table are the loggers of their names, and `m_root`
points to something where the logger by name has a root. -/
structure Represents (o : LogObjects) (s : Loggers) : Prop where
  rooted : o.Rooted
  heap : o.heap = s.heap
  known : ∀ entry ∈ o.table.entries, ∃ object : LoggerObject,
    o.loggers[entry.2]? = some object ∧ s.table.find? entry.1 = some object.toLogger
  unknown : ∀ name, o.table.find? name = none → s.table.find? name = none
  roots : ∀ object ∈ o.loggers, object.root = object.parent.map fun _ => Loggers.rootName

namespace LogObjects

/-- What may happen to the objects: the manager looks a name up, a call is made on the
logger found, or an appender is constructed. -/
inductive Changed (o : LogObjects) : LogObjects → Prop
  | getLogger (name : Text) : Changed o (o.getLogger name).2
  | onLogger (name : Text) {call : Logger → List LogAppender → Logger × List LogAppender} {next : LogObjects}
      (keeps : KeepsName call)
      (done : (o.getLogger name).2.onLogger (o.getLogger name).1 call = some ([], next)) : Changed o next
  | newAppender (appender : LogAppender) : Changed o { o with heap := o.heap ++ [appender] }

end LogObjects

namespace Represents

variable {o : LogObjects} {s : Loggers}

theorem create : Represents .create LoggerManager.create.loggers where
  rooted := .create
  heap := rfl
  known entry member := by
    rw [List.mem_singleton.mp member]
    exact ⟨_, rfl, Table.find?_put_same Table.empty LoggerManager.rootLogger.1⟩
  unknown name absent := by
    have apart : Loggers.rootName ≠ name := by
      intro same
      rw [← same] at absent
      exact absurd ((LogObjects.Rooted.create.root).symm.trans absent) (by simp)
    exact Table.find?_put_other Table.empty apart
  roots object member := by
    rw [List.mem_singleton.mp member]
    rfl

theorem found (represents : Represents o s) {name : Text} {l : Nat}
    (known : o.table.find? name = some (name, l)) :
    ∃ object : LoggerObject, o.loggers[l]? = some object ∧ object.name = name ∧
      s.table.find? name = some object.toLogger := by
  obtain ⟨member, _⟩ := (Table.find?_eq_some_iff _ _ _).mp known
  obtain ⟨object, there, found⟩ := represents.known (name, l) member
  exact ⟨object, there, ((Table.find?_eq_some_iff _ _ _).mp found).2, found⟩

/-- Both models find the logger of a name, or make one. -/
theorem openLogger (represents : Represents o s) (name : Text) :
    Represents (o.getLogger name).2 (s.getLogger name).2 ∧
      (o.getLogger name).2.table.find? name = some (name, (o.getLogger name).1) ∧
      (s.getLogger name).2.table.find? name = some (s.getLogger name).1 := by
  cases lookup : o.table.find? name with
  | some entry =>
    obtain ⟨key, l⟩ := entry
    obtain ⟨rfl, _⟩ := represents.rooted.found lookup
    obtain ⟨object, there, _, found⟩ := represents.found lookup
    simp only [LogObjects.getLogger, lookup, Loggers.getLogger, found, and_self, and_true]
    exact represents
  | none =>
    have absent := represents.unknown name lookup
    have rooted := represents.rooted.getLogger name
    simp only [LogObjects.getLogger, lookup] at rooted
    simp only [LogObjects.getLogger, lookup, Loggers.getLogger, absent]
    have made := Table.find?_put_same s.table { Logger.create name with root := some Loggers.rootName }
    refine ⟨⟨rooted, represents.heap, ?_, ?_, ?_⟩, Table.find?_put_same o.table (name, o.loggers.length), made⟩
    · intro entry member
      rcases (Table.mem_put _ _ _).mp member with rfl | ⟨old, apart⟩
      · exact ⟨_, getElem?_allocated.mpr (.inr ⟨rfl, rfl⟩), made⟩
      · obtain ⟨object, there, found⟩ := represents.known entry old
        exact ⟨object, getElem?_allocated.mpr (.inl there),
          (Table.find?_put_other s.table (Ne.symm apart)).trans found⟩
    · intro other unknown
      by_cases same : name = other
      · rw [← same, Table.find?_put_same o.table (name, o.loggers.length)] at unknown
        cases unknown
      · have before := (Table.find?_put_other o.table (a := (name, o.loggers.length)) same).symm.trans unknown
        exact (Table.find?_put_other s.table same).trans (represents.unknown other before)
    · intro object member
      rcases List.mem_append.mp member with old | new
      · exact represents.roots object old
      · rw [List.mem_singleton.mp new]
        rfl

/-- What a call does to the logger of a name it does to the object that the name leads to. -/
theorem onName (represents : Represents o s) (name : Text)
    {call : Logger → List LogAppender → Logger × List LogAppender} (keeps : KeepsName call) :
    ∃ next, o.Changed next ∧ Represents next (s.onName name call) := by
  obtain ⟨opened, lookup, found⟩ := represents.openLogger name
  set between := (o.getLogger name).2
  set l := (o.getLogger name).1
  obtain ⟨object, there, named, same⟩ := opened.found lookup
  have logger : object.toLogger = (s.getLogger name).1 := Option.some.inj (same.symm.trans found)
  set updated := call object.toLogger between.heap with result
  obtain ⟨sameName, sameRoot⟩ := keeps object.toLogger between.heap
  have done : between.onLogger l call = some ([], { between with
      loggers := between.loggers.set l ⟨updated.1, object.parent⟩
      heap := updated.2 }) := by
    simp only [LogObjects.onLogger, there, result]
  have called := Loggers.find?_onName_same keeps name s
  rw [← logger, ← opened.heap, ← result] at called
  have heap : updated.2 = (s.onName name call).heap := by
    rw [result, logger, opened.heap]
    rfl
  refine ⟨_, .onLogger name keeps done, ?_⟩
  have kept : (⟨updated.1, object.parent⟩ : LoggerObject).name = object.name := sameName
  refine ⟨opened.rooted.update there kept rfl _, heap, ?_, ?_, ?_⟩
  · intro entry member
    by_cases here : entry.2 = l
    · obtain ⟨other, otherThere, otherFound⟩ := opened.known entry member
      cases (here ▸ otherThere).symm.trans there
      have key : entry.1 = name :=
        ((Table.find?_eq_some_iff _ _ _).mp otherFound).2.symm.trans named
      exact ⟨_, (LogObjects.getElem?_updated there).mpr (.inl ⟨here, rfl⟩), key ▸ called⟩
    · obtain ⟨other, otherThere, otherFound⟩ := opened.known entry member
      have apart : name ≠ entry.1 := by
        intro same
        have known := (Table.find?_eq_some_iff _ _ _).mpr ⟨member, same.symm⟩
        cases known.symm.trans lookup
        exact here rfl
      exact ⟨other, (LogObjects.getElem?_updated there).mpr (.inr ⟨here, otherThere⟩),
        (Loggers.find?_onName_other keeps apart s).trans otherFound⟩
  · intro other absent
    have apart : name ≠ other := by
      intro same
      rw [← same, lookup] at absent
      cases absent
    exact (Loggers.find?_onName_other keeps apart s).trans (opened.unknown other absent)
  · intro other member
    rcases List.mem_or_eq_of_mem_set member with old | rfl
    · exact opened.roots other old
    · exact sameRoot.trans (opened.roots object (List.mem_of_getElem? there))

/-- Both models hand an event to the same appenders in the same order. -/
theorem log (represents : Represents o s) (level : LogLevel) (event : LogEvent) (fuel : Nat)
    {name : Text} {l : Nat} (known : o.table.find? name = some (name, l)) :
    s.log level fuel name = (o.log level event fuel l).bind fun deliveries =>
      Loggers.logAll level s.heap (deliveries.map LogObjects.Delivery.appender) := by
  induction fuel generalizing name l with
  | zero => rfl
  | succ fuel ih =>
    obtain ⟨object, there, _, found⟩ := represents.found known
    have root := represents.roots object (List.mem_of_getElem? there)
    simp only [Loggers.log, LogObjects.log, found, there]
    by_cases reached : object.level ≤ level
    · by_cases empty : object.appenders = []
      · cases parent : object.parent with
        | none => simp [reached, empty, root, parent, Loggers.logAll]
        | some top =>
          have atRoot : o.table.find? Loggers.rootName = some (Loggers.rootName, top) := by
            rcases represents.rooted.parents l object there with none | ⟨_, same⟩
            · rw [parent] at none
              cases none
            · rw [represents.rooted.root, Option.some.inj (same.symm.trans parent)]
          simp [reached, empty, root, parent, ih atRoot]
      · simp [reached, empty, Function.comp_def]
    · simp [reached, Loggers.logAll]

end Represents

/-- Some steps on the objects end in objects that represent the loggers by name. -/
def LogObjects.Reaches (o : LogObjects) (s : Loggers) : Prop :=
  ∃ next, Relation.ReflTransGen Changed o next ∧ Represents next s

namespace FileSystem

/-- Each step on loggers by name is some steps on the objects. -/
theorem step_represented {clock : Clock} {daemon : Bool} {s next : FileSystem} {call : FileCall}
    {ops : List FileOp} {o : LogObjects} (represents : Represents o s.system.manager.loggers)
    (taken : s.step clock daemon call = some (ops, next)) : o.Reaches next.system.manager.loggers := by
  obtain ⟨done, performed, _, rfl⟩ := step_cases clock daemon taken
  have start : o.Reaches s.system.manager.loggers := ⟨o, .refl, represents⟩
  refine perform_loggers daemon ?_ ?_ ?_ start performed
  · rintro name loggers ⟨between, reached, represents⟩
    exact ⟨_, reached.tail (.getLogger name), (represents.openLogger name).1⟩
  · rintro name call loggers keeps ⟨between, reached, represents⟩
    obtain ⟨after, changed, represents⟩ := represents.onName name keeps
    exact ⟨after, reached.tail changed, represents⟩
  · rintro appender m ⟨between, reached, represents⟩
    refine ⟨_, reached.tail (.newAppender appender), ?_⟩
    exact ⟨represents.rooted.setHeap _, congrArg (· ++ _) represents.heap, represents.known,
      represents.unknown, represents.roots⟩

/-- Whatever is called, the loggers by name are those of objects that the manager and
calls on its loggers lead to. -/
theorem run_represented {clock : Clock} {daemon : Bool} {content : Text → Text} {calls : List FileCall}
    {s : FileSystem} {ops : List FileOp} (ran : run (step clock daemon) calls (create content) = some (ops, s)) :
    LogObjects.create.Reaches s.system.manager.loggers := by
  have start : LogObjects.create.Reaches (create content).system.manager.loggers := ⟨_, .refl, .create⟩
  refine run_invariant (fun s => LogObjects.create.Reaches s.system.manager.loggers) ?_ ran start
  rintro s call events next ⟨between, reached, represents⟩ taken
  obtain ⟨after, later, representsNext⟩ := step_represented represents taken
  exact ⟨after, reached.trans later, representsNext⟩

theorem run_represented_attachFile :
    ∃ s ops, run (step noClock false) attachFile (create fun _ => []) = some (ops, s) ∧
      LogObjects.create.Reaches s.system.manager.loggers := by
  have ran : ∃ s ops, run (step noClock false) attachFile (create fun _ => []) = some (ops, s) := ⟨_, _, rfl⟩
  obtain ⟨s, ops, ran⟩ := ran
  exact ⟨s, ops, ran, run_represented ran⟩

end FileSystem

end Sylar
