import Sylar.Config.Load
import Sylar.Log.Dump
import Sylar.Log.System

/-! What one process dumps, another loads: the text of `LoggerManager::toYamlString` under
the key `logs` of a document, and `Config::LoadFromYaml` of that document. -/
namespace Sylar

open Library Yaml

/-- The name under which `g_log_defines` is looked up. -/
def logsName : Text := ['l', 'o', 'g', 's']

/-- `g_log_defines` behind its base class, with the listener of `LogIniter`. -/
def logsBase (yaml : YamlCpp) (daemon : Bool) (v : LogDefines) : ConfigVarBase LoggerManager :=
  (logsVar daemon v).base (LogDefines.ofText yaml)

/-- A document with one key. -/
def logsRoot (node : Node) : Node := .map [(.scalar logsName, node)]

/-- Every logger has a formatter, and its pattern is not the empty one. -/
def Patterned (s : Loggers) : Prop := ∀ logger ∈ s.table.entries, patternOf logger.formatter ≠ []

theorem patternOf_valid {formatter : Option LogFormatter} (valid : Valid formatter) :
    formatter = some (LogFormatter.create (patternOf formatter)) ∧
      (LogFormatter.create (patternOf formatter)).isError = false := by
  obtain ⟨f, rfl, right⟩ := valid
  have made : LogFormatter.create (patternOf (some f)) = f := LogFormatter.ext_pattern rfl
  rw [made]
  exact ⟨rfl, right⟩

theorem described_plain (appender : LogAppender) : appender.described.Plain := by
  rw [LogAppender.described]
  cases appender.sink with
  | file filename => exact ⟨rfl, .inl rfl⟩
  | stdout => exact ⟨rfl, .inr ⟨rfl, rfl⟩⟩

theorem described_formattable {appender : LogAppender} (valid : Valid appender.formatter) :
    Formattable appender.described.formatter := by
  have own : Formattable (patternOf appender.own) := by
    rw [LogAppender.own]
    split_ifs
    · exact .inr (patternOf_valid valid).2
    · exact .inl rfl
  rw [LogAppender.described]
  cases appender.sink with
  | file filename => exact own
  | stdout => exact own

section Set

variable {s : Loggers}

theorem mem_described {d : LogDefine} :
    d ∈ s.described.entries ↔ ∃ logger ∈ s.table.entries, logger.described s.heap = d :=
  List.mem_map

theorem described_appenders (valid : AllValid s) {d : LogDefine} (member : d ∈ s.described.entries) :
    ∀ a ∈ d.appenders, a.Plain ∧ Formattable a.formatter := by
  obtain ⟨logger, _, rfl⟩ := mem_described.mp member
  intro a inside
  obtain ⟨appender, attached, rfl⟩ := List.mem_map.mp inside
  obtain ⟨p, _, found⟩ := List.mem_filterMap.mp attached
  exact ⟨described_plain appender, described_formattable (valid.heap appender (List.mem_of_getElem? found))⟩

theorem described_unique {logger : Logger} (member : logger ∈ s.table.entries) :
    s.described.find? logger.name = some (logger.described s.heap) :=
  (Table.find?_eq_some_iff _ _ _).mpr ⟨mem_described.mpr ⟨logger, member, rfl⟩, rfl⟩

/-- There is the root logger. -/
theorem Loggers.Sound.described_differs (sound : s.Sound) : (s.described == .empty) = false := by
  obtain ⟨root, found, _⟩ := sound.rooted
  have member := mem_described.mpr ⟨root, ((Table.find?_eq_some_iff _ _ _).mp found).1, rfl⟩
  change (s.described.entries == []) = false
  cases entries : s.described.entries with
  | nil =>
    rw [entries] at member
    cases member
  | cons d rest => rfl

end Set

/-- The loggers that the descriptions of a process make in a fresh one. -/
structure Restored (s next : Loggers) : Prop where
  loggers : ∀ logger ∈ s.table.entries, ∃ after ∈ next.table.entries, after.name = logger.name ∧
    after.level = logger.level ∧ (after.described next.heap).appenders = (logger.described s.heap).appenders ∧
    after.formatter = if patternOf logger.formatter = [] then some (LogFormatter.create defaultPattern)
      else logger.formatter
  names : ∀ after ∈ next.table.entries, ∃ logger ∈ s.table.entries, logger.name = after.name

theorem create_formatter (name : Text) :
    (LoggerManager.create.loggers.getLogger name).1.formatter = some (LogFormatter.create defaultPattern) := by
  by_cases root : name = Loggers.rootName
  · subst root
    rfl
  · have absent : LoggerManager.create.loggers.table.find? name = none := by
      apply (Table.find?_eq_none_iff _ _).mpr
      intro logger member same
      rcases (Table.mem_put _ _ _).mp member with rfl | ⟨inside, _⟩
      · exact root same.symm
      · cases inside
    rw [Loggers.getLogger, absent]
    rfl

theorem restored {s : Loggers} (sound : s.Sound) (valid : AllValid s) :
    ∃ next, reconfigure false .empty s.described LoggerManager.create.loggers = some next ∧ Restored s next := by
  have plain (d : LogDefine) (member : d ∈ s.described.entries) := described_appenders valid member
  obtain ⟨next, done, frame, configured, _⟩ := reconfigure_typed false .empty s.described
    LoggerManager.create.loggers LoggerManager.create.sound
    fun d member _ a inside => (plain d member a inside).1.2.imp_right And.left
  refine ⟨next, done, ?_, ?_⟩
  · intro logger member
    have inside := mem_described.mpr ⟨logger, member, rfl⟩
    obtain ⟨after, found, level, formatter, appenders, _⟩ := configured _ inside rfl
    obtain ⟨entry, name⟩ := (Table.find?_eq_some_iff _ _ _).mp found
    refine ⟨after, entry, name, level, ?_, ?_⟩
    · have all : (logger.described s.heap).kept false = (logger.described s.heap).appenders := by
        simp [LogDefine.kept]
      rw [all] at appenders
      rw [Logger.described, attached_of_map appenders, List.map_map]
      refine (List.map_congr_left ?_).trans (List.map_id _)
      intro a there
      exact described_defined (plain _ inside a there).1 (plain _ inside a there).2 _
    · obtain ⟨same, right⟩ := patternOf_valid (valid.loggers logger member)
      rw [formatter, create_formatter]
      change formatterOr (patternOf logger.formatter) _ = _
      split_ifs with empty
      · simp [formatterOr, empty]
      · rw [formatterOr, if_pos ⟨empty, right⟩]
        exact same.symm
  · intro after member
    by_contra absent
    have untouched : ¬ Touched .empty s.described after.name := by
      rintro (⟨d, inside, _, same⟩ | ⟨d, inside, _⟩)
      · obtain ⟨logger, there, rfl⟩ := mem_described.mp inside
        exact absent ⟨logger, there, same⟩
      · cases inside
    have before := (frame.others after.name untouched).symm.trans
      ((Table.find?_eq_some_iff _ _ _).mpr ⟨member, rfl⟩)
    obtain ⟨entry, _⟩ := (Table.find?_eq_some_iff _ _ _).mp before
    rcases (Table.mem_put _ _ _).mp entry with rfl | ⟨inside, _⟩
    · obtain ⟨root, found, _⟩ := sound.rooted
      obtain ⟨there, name⟩ := (Table.find?_eq_some_iff _ _ _).mp found
      exact absent ⟨root, there, name⟩
    · cases inside

/-- The descriptions are the same exactly if no pattern is empty. -/
theorem Restored.described_iff {s next : Loggers} (restored : Restored s next) :
    next.described = s.described ↔ Patterned s := by
  constructor
  · intro same logger member empty
    obtain ⟨after, entry, name, _, _, formatter⟩ := restored.loggers logger member
    have here := described_unique member
    rw [← same, ← name, described_unique entry] at here
    have pattern := congrArg LogDefine.formatter (Option.some.inj here)
    change patternOf after.formatter = patternOf logger.formatter at pattern
    rw [empty, formatter, if_pos empty] at pattern
    cases pattern
  · intro patterned
    have goesOver (logger : Logger) (member : logger ∈ s.table.entries) :
        logger.described s.heap ∈ next.described.entries := by
      obtain ⟨after, entry, name, level, appenders, formatter⟩ := restored.loggers logger member
      rw [if_neg (patterned logger member)] at formatter
      refine mem_described.mpr ⟨after, entry, ?_⟩
      simp only [Logger.described] at appenders ⊢
      rw [name, level, formatter, appenders]
    apply Table.ext_of_mem
    intro d
    constructor
    · intro member
      obtain ⟨after, entry, rfl⟩ := mem_described.mp member
      obtain ⟨logger, there, name⟩ := restored.names after entry
      have both := Table.key_injective _ (goesOver logger there) member name
      rw [← both]
      exact mem_described.mpr ⟨logger, there, rfl⟩
    · intro member
      obtain ⟨logger, there, rfl⟩ := mem_described.mp member
      exact goesOver logger there

/-- `fromString` of the `logs` variable, where its listener can apply the value. -/
theorem logsBase_fromString {yaml : YamlCpp} {daemon : Bool} {text : Text} {old v : LogDefines}
    (read : LogDefines.ofText yaml text = .ok v) (different : (v == old) = false) {m : LoggerManager}
    {next : Loggers} (announces : m.loggers.Announces) (done : reconfigure daemon old v m.loggers = some next) :
    (logsBase yaml daemon old).fromString text m =
      (logsBase yaml daemon v, .returns false ⟨next, reconfigure_sound m.sound done⟩) := by
  have told : (logsVar daemon old).fromString (LogDefines.ofText yaml) text m =
      ([.notified 1 old v, .stored v], (logsVar daemon old).store v,
        .returns false ⟨next, reconfigure_sound m.sound done⟩) := by
    simp only [ConfigVar.fromString, read, setValue_applied different announces done]
  exact congrArg (fun r => (({ logsBase yaml daemon old with var := r.2.1 } : ConfigVarBase LoggerManager), r.2.2))
    told

section Load

variable {yaml : YamlCpp} (loads : ∀ node, yaml.load (yaml.emit node) = .ok node)

include loads

/-- The document that a dump is read as has no keys of its own. -/
theorem dump_node {m : LoggerManager} {dump : Text} (printed : m.toYamlString yaml = .ok dump) :
    ∃ node, yaml.load dump = .ok node ∧ node.members = [] ∧ nodeText yaml.emit node = dump := by
  obtain ⟨items, _, printed⟩ := bind_eq_ok.mp printed
  cases printed
  refine ⟨_, loads _, ?_, ?_⟩
  · split_ifs
    · rfl
    · rfl
  · split_ifs
    · rfl
    · rfl

omit loads in
theorem listAllMember_logsRoot {node : Node} (leaf : node.members = []) :
    listAllMember [] (logsRoot node) = [([], logsRoot node), (logsName, node)] := by
  have valid : ValidName logsName := by decide
  have empty : ValidName [] := by decide
  rw [listAllMember_def, if_pos empty]
  change ([], logsRoot node) :: (listAllMember logsName node ++ []) = _
  rw [listAllMember_def, if_pos valid, leaf]
  rfl

end Load

/-- A process that gives its root logger a pattern. -/
def patternOps : List LogOp := [.setFormatter Loggers.rootName ['%', 'm'], .getLogger ['a']]

end Sylar
