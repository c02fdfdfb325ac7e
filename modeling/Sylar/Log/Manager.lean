import Sylar.Log.Objects

/-! Where the events of a logger go. The names of the manager lead to loggers of these
names, and `m_root` leads from each of them to the root and from the root nowhere. -/
namespace Sylar

open Library

namespace LogObjects

/-- Table entries lead to loggers of their names, whose parent is the root unless they
are the root; no logger has another parent, and the root has none. -/
structure Rooted (s : LogObjects) : Prop where
  root : s.table.find? Loggers.rootName = some (Loggers.rootName, s.root)
  entries : ∀ entry ∈ s.table.entries, ∃ object : LoggerObject, s.loggers[entry.2]? = some object ∧
    object.name = entry.1 ∧ (entry.2 ≠ s.root → object.parent = some s.root)
  parents : ∀ (l : Nat) (object : LoggerObject), s.loggers[l]? = some object →
    object.parent = none ∨ (l ≠ s.root ∧ object.parent = some s.root)

namespace Rooted

variable {s : LogObjects}

theorem create : LogObjects.create.Rooted where
  root := Table.find?_put_same Table.empty (Loggers.rootName, 0)
  entries entry member := by
    rw [List.mem_singleton.mp member]
    exact ⟨_, rfl, rfl, fun apart => absurd rfl apart⟩
  parents l object found := by
    rw [List.mem_singleton.mp (List.mem_of_getElem? found)]
    exact .inl rfl

theorem found (rooted : s.Rooted) {name : Text} {entry : Text × Nat} (known : s.table.find? name = some entry) :
    entry.1 = name ∧ ∃ object : LoggerObject, s.loggers[entry.2]? = some object ∧ object.name = entry.1 ∧
      (entry.2 ≠ s.root → object.parent = some s.root) := by
  obtain ⟨member, same⟩ := (Table.find?_eq_some_iff _ _ _).mp known
  exact ⟨same, rooted.entries entry member⟩

/-- A logger may change anything but its name and its parent. -/
theorem update (rooted : s.Rooted) {l : Nat} {object updated : LoggerObject} (there : s.loggers[l]? = some object)
    (name : updated.name = object.name) (parent : updated.parent = object.parent) (heap : List LogAppender) :
    Rooted { s with loggers := s.loggers.set l updated, heap := heap } where
  root := rooted.root
  entries entry member := by
    obtain ⟨other, found, named, under⟩ := rooted.entries entry member
    by_cases same : entry.2 = l
    · cases (same ▸ found).symm.trans there
      exact ⟨updated, (getElem?_updated there).mpr (.inl ⟨same, rfl⟩), name.trans named,
        fun apart => parent.trans (under apart)⟩
    · exact ⟨other, (getElem?_updated there).mpr (.inr ⟨same, found⟩), named, under⟩
  parents m other found := by
    rcases (getElem?_updated there).mp found with ⟨rfl, rfl⟩ | ⟨_, before⟩
    · rw [parent]
      exact rooted.parents m object there
    · exact rooted.parents m other before

theorem setHeap (rooted : s.Rooted) (heap : List LogAppender) : Rooted { s with heap := heap } :=
  ⟨rooted.root, rooted.entries, rooted.parents⟩

/-- A new logger has the root as parent, or none. -/
theorem grow (rooted : s.Rooted) {object : LoggerObject}
    (parent : object.parent = none ∨ object.parent = some s.root) :
    Rooted { s with loggers := s.loggers ++ [object] } where
  root := rooted.root
  entries entry member := by
    obtain ⟨other, found, rest⟩ := rooted.entries entry member
    exact ⟨other, getElem?_allocated.mpr (.inl found), rest⟩
  parents l other found := by
    rcases getElem?_allocated.mp found with old | ⟨new, rfl⟩
    · exact rooted.parents l other old
    · refine parent.imp_right fun under => ⟨?_, under⟩
      obtain ⟨_, root, there, _⟩ := rooted.found rooted.root
      have inside : s.root < s.loggers.length := (List.getElem?_eq_some_iff.mp there).1
      rw [new]
      exact (Nat.ne_of_lt inside).symm

/-- The new logger's name leads to it. -/
theorem enter (rooted : s.Rooted) {object : LoggerObject} (parent : object.parent = some s.root)
    (absent : s.table.find? object.name = none) :
    Rooted { s with
      loggers := s.loggers ++ [object]
      table := s.table.put (object.name, s.loggers.length) } where
  root := by
    have apart : object.name ≠ Loggers.rootName := by
      intro same
      rw [same, rooted.root] at absent
      cases absent
    exact (Table.find?_put_other s.table apart).trans rooted.root
  entries entry member := by
    rcases (Table.mem_put _ _ _).mp member with rfl | ⟨old, _⟩
    · exact ⟨object, getElem?_allocated.mpr (.inr ⟨rfl, rfl⟩), rfl, fun _ => parent⟩
    · exact (rooted.grow (.inr parent)).entries entry old
  parents := (rooted.grow (.inr parent)).parents

theorem getLogger (rooted : s.Rooted) (name : Text) : (s.getLogger name).2.Rooted := by
  unfold LogObjects.getLogger
  split
  · exact rooted
  · rename_i absent
    exact rooted.enter rfl absent

theorem onLogger (rooted : s.Rooted) {l : Nat} {call : Logger → List LogAppender → Logger × List LogAppender}
    {next : LogObjects} {events : List Got} (names : ∀ logger heap, (call logger heap).1.name = logger.name)
    (done : s.onLogger l call = some (events, next)) :
    next.Rooted ∧ next.table = s.table ∧ events = [] := by
  obtain ⟨object, found, rfl, rfl⟩ := onLogger_some done
  have named : (⟨(call object.toLogger s.heap).1, object.parent⟩ : LoggerObject).name = object.name :=
    names _ _
  exact ⟨rooted.update found named rfl _, rfl, rfl⟩

end Rooted

/-- Of all calls only `getLogger` enters a name. -/
theorem step_rooted {s next : LogObjects} {call : LogCall} {events : List Got} (rooted : s.Rooted)
    (taken : s.step call = some (events, next)) :
    next.Rooted ∧ ((∃ name, call = .getLogger name) ∨ next.table = s.table ∧ events = []) := by
  cases call with
  | getLogger name =>
    cases taken
    exact ⟨rooted.getLogger name, .inl ⟨name, rfl⟩⟩
  | newLogger name =>
    cases taken
    exact ⟨rooted.grow (.inl rfl), .inr ⟨rfl, rfl⟩⟩
  | newAppender sink =>
    cases taken
    exact ⟨rooted.setHeap _, .inr ⟨rfl, rfl⟩⟩
  | addAppender l p =>
    simp only [step] at taken
    split_ifs at taken
    exact (rooted.onLogger (fun _ _ => rfl) taken).imp_right .inr
  | delAppender l p | clearAppenders l | setLevel l val | setFormatter l val =>
    simp only [step] at taken
    exact (rooted.onLogger (fun _ _ => rfl) taken).imp_right .inr
  | setFormatterText l val =>
    simp only [step] at taken
    exact (rooted.onLogger (fun _ _ => (Logger.setFormatterText_fields _ _ _).1) taken).imp_right .inr
  | setOwn p val =>
    simp only [step] at taken
    split_ifs at taken
    cases taken
    exact ⟨rooted.setHeap _, .inr ⟨rfl, rfl⟩⟩

theorem onLogger_root {s next : LogObjects} {l : Nat} {events : List Got}
    {call : Logger → List LogAppender → Logger × List LogAppender}
    (done : s.onLogger l call = some (events, next)) : next.root = s.root := by
  obtain ⟨_, _, _, rfl⟩ := onLogger_some done
  rfl

/-- The root stays the root. -/
theorem step_root {s next : LogObjects} {call : LogCall} {events : List Got}
    (taken : s.step call = some (events, next)) : next.root = s.root := by
  cases call with
  | getLogger name =>
    cases taken
    unfold getLogger
    split
    · rfl
    · rfl
  | newLogger name | newAppender sink =>
    cases taken
    rfl
  | addAppender l p =>
    simp only [step] at taken
    split_ifs at taken
    exact onLogger_root taken
  | delAppender l p | clearAppenders l | setLevel l val | setFormatter l val | setFormatterText l val =>
    simp only [step] at taken
    exact onLogger_root taken
  | setOwn p val =>
    simp only [step] at taken
    split_ifs at taken
    cases taken
    rfl

/-- What `getLogger` has returned is what the table says. -/
def Known (s : LogObjects) (past : List Got) : Prop :=
  ∀ got ∈ past, s.table.find? got.name = some (got.name, got.logger)

theorem getLogger_known {s : LogObjects} {past : List Got} (rooted : s.Rooted) (known : s.Known past)
    (name : Text) : (s.getLogger name).2.Known (past ++ [⟨name, (s.getLogger name).1⟩]) := by
  intro got member
  cases found : s.table.find? name with
  | some entry =>
    simp only [getLogger, found] at member ⊢
    rcases List.mem_append.mp member with old | new
    · exact known got old
    · rw [List.mem_singleton.mp new, found, ← (rooted.found found).1]
  | none =>
    simp only [getLogger, found] at member ⊢
    rcases List.mem_append.mp member with old | new
    · have apart : name ≠ got.name := by
        intro same
        rw [same, known got old] at found
        cases found
      exact (Table.find?_put_other s.table apart).trans (known got old)
    · rw [List.mem_singleton.mp new]
      exact Table.find?_put_same s.table (name, s.loggers.length)

/-- Runs keep the table's invariant and what they have returned. -/
theorem run_known {calls : List LogCall} {events : List Got} {s : LogObjects}
    (ran : run step calls create = some (events, s)) : s.Rooted ∧ s.Known events := by
  have extended : ∀ s call past events next, s.Rooted ∧ s.Known past →
      step s call = some (events, next) → next.Rooted ∧ next.Known (past ++ events) := by
    intro s call past events next before taken
    obtain ⟨rooted, known⟩ := before
    obtain ⟨next_rooted, ⟨name, rfl⟩ | ⟨same, rfl⟩⟩ := step_rooted rooted taken
    · cases taken
      exact ⟨next_rooted, getLogger_known rooted known name⟩
    · refine ⟨next_rooted, fun got member => ?_⟩
      rw [List.append_nil] at member
      rw [same]
      exact known got member
  have start : create.Rooted ∧ create.Known [] := ⟨.create, by simp [Known]⟩
  exact run_history (fun s past => s.Rooted ∧ s.Known past) extended ran start

/-- One call for each appender of a logger, where an event's level reaches its own. -/
def deliveries (l : Nat) (logger : Logger) (level : LogLevel) (event : E) : List (Delivery E) :=
  if logger.level ≤ level then logger.appenders.map fun p => ⟨l, p, level, event⟩ else []

/-- What `log` is for: the logger's appenders get the event, or the root's if it has none. -/
def routed (s : LogObjects) (l : Nat) (logger root : Logger) (level : LogLevel) (event : E) :
    List (Delivery E) :=
  if ¬ logger.level ≤ level then []
  else if logger.appenders ≠ [] then logger.appenders.map fun p => ⟨l, p, level, event⟩
  else if l ≠ s.root then deliveries s.root root level event
  else []

theorem routed_one (s : LogObjects) (l : Nat) (logger root : Logger) (level : LogLevel) (event : E) :
    (∀ d ∈ s.routed l logger root level event, d.logger = l) ∨
      ∀ d ∈ s.routed l logger root level event, d.logger = s.root := by
  unfold routed deliveries
  split_ifs with silent own other reached
  all_goals simp

namespace Rooted

variable {s : LogObjects} {level : LogLevel} {event : E}

/-- The root passes its events on to nobody. -/
theorem log_root (rooted : s.Rooted) {root : LoggerObject} (there : s.loggers[s.root]? = some root)
    (fuel : Nat) : s.log level event (fuel + 1) s.root = some (deliveries s.root root.toLogger level event) := by
  have top : root.parent = none := (rooted.parents s.root root there).resolve_right fun ⟨apart, _⟩ => apart rfl
  rw [log, there]
  by_cases reached : root.level ≤ level
  · by_cases empty : root.appenders = []
    · simp [deliveries, reached, empty, top]
    · simp [deliveries, reached, empty]
  · simp [deliveries, reached]

/-- A logger of the table passes its events on at most once. -/
theorem log_spec (rooted : s.Rooted) {l : Nat} {logger root : LoggerObject} (found : s.loggers[l]? = some logger)
    (under : l ≠ s.root → logger.parent = some s.root) (there : s.loggers[s.root]? = some root)
    {fuel : Nat} (enough : 2 ≤ fuel) :
    s.log level event fuel l = some (s.routed l logger.toLogger root.toLogger level event) := by
  obtain ⟨fuel, rfl⟩ : ∃ n, fuel = n + 2 := ⟨fuel - 2, by omega⟩
  by_cases isRoot : l = s.root
  · subst isRoot
    cases found.symm.trans there
    rw [rooted.log_root there (fuel + 1)]
    by_cases reached : logger.level ≤ level
    · by_cases empty : logger.appenders = []
      · simp [deliveries, routed, reached, empty]
      · simp [deliveries, routed, reached, empty]
    · simp [deliveries, routed, reached]
  · have parent := under isRoot
    rw [log, found]
    by_cases reached : logger.level ≤ level
    · by_cases empty : logger.appenders = []
      · simp [routed, reached, empty, parent, isRoot, rooted.log_root there fuel]
      · simp [routed, reached, empty]
    · simp [routed, reached]

end Rooted

/-- In every state reached, the events of a logger got from the manager go where they
should, and loggers got are the same just when their names are. -/
theorem log_routing {calls : List LogCall} {events : List Got} {s : LogObjects}
    (ran : run step calls create = some (events, s)) :
    (∀ got ∈ events, ∃ logger root, s.loggers[got.logger]? = some logger ∧ s.loggers[s.root]? = some root ∧
      ∀ (level : LogLevel) (event : E),
        (∀ fuel, 2 ≤ fuel → s.log level event fuel got.logger =
          some (s.routed got.logger logger.toLogger root.toLogger level event)) ∧
        ((∀ d ∈ s.routed got.logger logger.toLogger root.toLogger level event, d.logger = got.logger) ∨
          ∀ d ∈ s.routed got.logger logger.toLogger root.toLogger level event, d.logger = s.root)) ∧
    ∀ a ∈ events, ∀ b ∈ events, a.name = b.name ↔ a.logger = b.logger := by
  obtain ⟨rooted, known⟩ := run_known ran
  constructor
  · intro got member
    obtain ⟨_, logger, found, _, under⟩ := rooted.found (known got member)
    obtain ⟨_, root, there, _⟩ := rooted.found rooted.root
    refine ⟨logger, root, found, there, fun level event => ⟨?_, routed_one _ _ _ _ _ _⟩⟩
    intro fuel enough
    exact rooted.log_spec found under there enough
  · intro a inside b member
    have first := known a inside
    have second := known b member
    constructor
    · intro same
      rw [same, second] at first
      exact (congrArg Prod.snd (Option.some.inj first)).symm
    · intro same
      obtain ⟨_, logger, found, name, _⟩ := rooted.found first
      obtain ⟨_, other, found', name', _⟩ := rooted.found second
      rw [same] at found
      cases found.symm.trans found'
      exact name.symm.trans name'

/-- A new logger passes an event on to the root's appender. -/
theorem log_routing_root :
    ∃ s, run step [.getLogger ['a']] create = some ([⟨['a'], 1⟩], s) ∧
      s.log .info () 2 1 = some [⟨0, 0, .info, ()⟩] := by
  refine ⟨_, rfl, ?_⟩
  obtain ⟨logger, root, found, there, goes⟩ :=
    (@log_routing Unit [.getLogger ['a']] _ _ rfl).1 ⟨['a'], 1⟩ (List.mem_singleton_self _)
  have routed := (goes .info ()).1 2 (Nat.le_refl 2)
  cases found
  cases there
  exact routed

end LogObjects

end Sylar
