import Sylar.Config.Container
import Sylar.Log.Change
import Sylar.Log.Codec

/-! The dump of the loggers as a text in YAML, read as a value of the `logs` variable:
it describes the loggers there are, and after a change of `logs` agrees with it. -/
namespace Sylar

open Library Yaml

/-- `if (m_formatter) node["formatter"] = m_formatter->getPattern()` -/
def assignPattern (formatter : Option LogFormatter) (pairs : List (Node × Node)) : List (Node × Node) :=
  match formatter with
  | some formatter => assign Key.formatter (.scalar formatter.getPattern) pairs
  | none => pairs

namespace LogAppender

/-- An appender's formatter, unless it is inherited. -/
def own (appender : LogAppender) : Option LogFormatter :=
  if appender.hasFormatter then appender.formatter else none

/-- The node that `FileLogAppender::toYamlString` or `StdoutLogAppender::toYamlString` prints. -/
def toNode (appender : LogAppender) : Node :=
  let node :=
    match appender.sink with
    | .file filename =>
      assign Key.file (.scalar filename) (assign Key.type (.scalar Key.fileAppender) [])
    | .stdout => assign Key.type (.scalar Key.stdoutAppender) []
  ofPairs (assignPattern appender.own (assignLevel appender.level node))

def toYamlString (yaml : YamlCpp) (appender : LogAppender) : Except Exn Text :=
  .ok (yaml.emit appender.toNode)

end LogAppender

/-- The appenders behind a logger's pointers. -/
def Logger.attached (heap : List LogAppender) (logger : Logger) : List LogAppender :=
  logger.appenders.filterMap fun p => heap[p]?

/-- The node that `Logger::toYamlString` prints, from those of its appenders. -/
def Logger.toNode (logger : Logger) (items : List Node) : Node :=
  let node := assign Key.name (.scalar logger.name) []
  let node := assignPattern logger.formatter (assignLevel logger.level node)
  ofPairs (if items = [] then node else assign Key.appenders (.sequence items) node)

/-- `Logger::toYamlString` -/
def Logger.toYamlString (yaml : YamlCpp) (heap : List LogAppender) (logger : Logger) : Except Exn Text := do
  let items ← encodeItems yaml (LogAppender.toYamlString yaml) (logger.attached heap)
  return yaml.emit (logger.toNode items)

/-- `LoggerManager::toYamlString`; the first `push_back` turns the null node into a sequence. -/
def LoggerManager.toYamlString (yaml : YamlCpp) (m : LoggerManager) : Except Exn Text := do
  let items ← encodeItems yaml (Logger.toYamlString yaml m.loggers.heap) m.loggers.table.entries
  return yaml.emit (if items.isEmpty then .null else .sequence items)

/-- The conversions of a definition, and of a set of definitions. -/
def LogDefine.cast (yaml : YamlCpp) : LexicalCast LogDefine LogDefine where
  toText i := .ok (i.toText yaml)
  fromText := LogDefine.ofText yaml

/-- `LexicalCast<std::string, std::set<LogDefine>>` -/
def LogDefines.ofText (yaml : YamlCpp) (text : Text) : Except Exn LogDefines :=
  (LexicalCast.set yaml (LogDefine.cast yaml) id LogDefine.name).fromText text

/-- The pattern of a formatter; the decoder reads a missing one as empty. -/
def patternOf (formatter : Option LogFormatter) : Text := (formatter.map LogFormatter.getPattern).getD []

/-- What a dump says about an appender; its level is printed but not read. -/
def LogAppender.described (appender : LogAppender) : LogAppenderDefine :=
  match appender.sink with
  | .file filename => ⟨1, .unknow, patternOf appender.own, filename⟩
  | .stdout => ⟨2, .unknow, patternOf appender.own, []⟩

def Logger.described (heap : List LogAppender) (logger : Logger) : LogDefine :=
  ⟨logger.name, logger.level, patternOf logger.formatter,
    (logger.attached heap).map LogAppender.described⟩

/-- What a dump says about all loggers. -/
def Loggers.described (s : Loggers) : LogDefines :=
  s.table.map (Logger.described s.heap) fun _ => rfl

section Decode

variable {yaml : YamlCpp}

theorem formats_assignPattern (formatter : Option LogFormatter) :
    Formats yaml (assignPattern formatter) (patternOf formatter) := by
  cases formatter with
  | none =>
    constructor
    · intro key _ pairs
      rfl
    · intro pairs absent
      rw [optionalText, member_ofPairs, assignPattern, absent]
      rfl
  | some formatter =>
    constructor
    · intro key apart pairs
      exact findPair_assign_other apart _ pairs
    · intro pairs _
      rw [optionalText, member_ofPairs, assignPattern, findPair_assign_same]
      rfl

theorem decodeAppender_toNode (appender : LogAppender) :
    decodeAppender yaml (some appender.toNode) = .ok (some appender.described) := by
  obtain ⟨sink, level, hasFormatter, formatter⟩ := appender
  cases sink with
  | file filename => exact (formats_assignPattern _).file level filename
  | stdout => exact (formats_assignPattern _).stdout level

/-- A printed logger is read as its description. -/
theorem decodeDefine_toNode (heap : List LogAppender) (logger : Logger) :
    decodeDefine yaml (logger.toNode ((logger.attached heap).map LogAppender.toNode)) =
      .ok (logger.described heap) := by
  have formats : Formats yaml (assignPattern logger.formatter) _ := formats_assignPattern logger.formatter
  have all := formats.define logger.name logger.level
    (fun (a : LogAppender) (_ : a ∈ logger.attached heap) => decodeAppender_toNode a) rfl
  simpa [Logger.toNode, Logger.described] using all

variable (loads : ∀ node, yaml.load (yaml.emit node) = .ok node)
include loads

theorem encodeItems_appenders (appenders : List LogAppender) :
    encodeItems yaml (LogAppender.toYamlString yaml) appenders =
      .ok (appenders.map LogAppender.toNode) := by
  induction appenders with
  | nil => rfl
  | cons appender rest ih =>
    simp only [encodeItems, LogAppender.toYamlString, loads, ih, bind, Except.bind]
    rfl

theorem toYamlString_logger (heap : List LogAppender) (logger : Logger) :
    logger.toYamlString yaml heap =
      .ok (yaml.emit (logger.toNode ((logger.attached heap).map LogAppender.toNode))) := by
  simp only [Logger.toYamlString, encodeItems_appenders loads, bind, Except.bind]
  rfl

/-- Printed loggers are elements of a container; their values are their descriptions. -/
def Logger.cast (yaml : YamlCpp) (heap : List LogAppender) : LexicalCast Logger LogDefine :=
  ⟨Logger.toYamlString yaml heap, LogDefine.ofText yaml⟩

theorem described_reloads (heap : List LogAppender) :
    (Logger.cast yaml heap).Reloads yaml (Logger.described heap) := by
  intro logger
  refine ⟨_, _, toYamlString_logger loads heap logger, loads _, ?_⟩
  simp only [Logger.cast, LogDefine.ofText, loads, bind, Except.bind]
  exact decodeDefine_toNode heap logger

/-- A manager prints its loggers as a set; the root logger is always there. -/
theorem toYamlString_set (m : LoggerManager) :
    m.toYamlString yaml =
      (LexicalCast.set yaml (Logger.cast yaml m.loggers.heap) (Logger.described m.loggers.heap)
        LogDefine.name).toText m.loggers.table := by
  obtain ⟨items, encoded, length, _⟩ := (described_reloads loads m.loggers.heap).items m.loggers.table.entries
  obtain ⟨root, found, _⟩ := m.sound.rooted
  have member := ((Table.find?_eq_some_iff _ _ _).mp found).1
  have positive : 0 < items.length := length ▸ List.length_pos_of_mem member
  have some_items : items.isEmpty = false := by simpa using List.ne_nil_of_length_pos positive
  simp only [Logger.cast] at encoded
  simp only [LoggerManager.toYamlString, LexicalCast.set, LexicalCast.container, Logger.cast, encoded,
    some_items, bind, Except.bind]
  rfl

/-- The dump of a manager is read as the description of its loggers. -/
theorem dump_described (m : LoggerManager) :
    ∃ text, m.toYamlString yaml = .ok text ∧ LogDefines.ofText yaml text = .ok m.loggers.described := by
  have spec := LexicalCast.set_spec loads (described_reloads loads m.loggers.heap) LogDefine.name
  obtain ⟨text, printed, read⟩ := spec.1 m.loggers.table
  exact ⟨text, (toYamlString_set loads m).trans printed, read⟩

end Decode

/-- What the decoder makes of an appender: no level, and a file only for one kind. -/
def LogAppenderDefine.Plain (a : LogAppenderDefine) : Prop :=
  a.level = .unknow ∧ (a.type = 1 ∨ a.type = 2 ∧ a.file = [])

section Decoded

variable {yaml : YamlCpp}

theorem decodeAppender_plain {a : Option Node} {lad : LogAppenderDefine}
    (decoded : decodeAppender yaml a = .ok (some lad)) : lad.Plain := by
  obtain ⟨typeNode, _, decoded⟩ := bind_eq_ok.mp decoded
  cases typeNode with
  | none => cases decoded
  | some typeNode =>
    obtain ⟨type, _, decoded⟩ := bind_eq_ok.mp decoded
    split at decoded
    · obtain ⟨fileNode, _, decoded⟩ := bind_eq_ok.mp decoded
      cases fileNode with
      | none => cases decoded
      | some fileNode =>
        obtain ⟨file, _, decoded⟩ := bind_eq_ok.mp decoded
        obtain ⟨formatter, _, decoded⟩ := bind_eq_ok.mp decoded
        cases decoded
        exact ⟨rfl, .inl rfl⟩
    · split at decoded
      · obtain ⟨formatter, _, decoded⟩ := bind_eq_ok.mp decoded
        cases decoded
        exact ⟨rfl, .inr ⟨rfl, rfl⟩⟩
      · cases decoded

theorem decodeAppenders_plain {node : Node} {count x : Nat} {as : List LogAppenderDefine}
    (decoded : decodeAppenders yaml node count x = .ok as) : ∀ a ∈ as, a.Plain := by
  induction count generalizing x as with
  | zero =>
    cases decoded
    simp
  | succ count ih =>
    obtain ⟨lad, first, decoded⟩ := bind_eq_ok.mp decoded
    obtain ⟨rest, later, decoded⟩ := bind_eq_ok.mp decoded
    cases decoded
    intro a member
    rcases List.mem_append.mp member with here | after
    · rw [Option.mem_toList.mp here] at first
      exact decodeAppender_plain first
    · exact ih later a after

theorem decodeDefine_plain {n : Node} {d : LogDefine} (decoded : decodeDefine yaml n = .ok d) :
    ∀ a ∈ d.appenders, a.Plain := by
  obtain ⟨nameNode, _, decoded⟩ := bind_eq_ok.mp decoded
  cases nameNode with
  | none => cases decoded
  | some nameNode =>
    obtain ⟨name, _, decoded⟩ := bind_eq_ok.mp decoded
    obtain ⟨level, _, decoded⟩ := bind_eq_ok.mp decoded
    obtain ⟨formatter, _, decoded⟩ := bind_eq_ok.mp decoded
    obtain ⟨list, _, decoded⟩ := bind_eq_ok.mp decoded
    cases list with
    | none =>
      cases decoded
      simp
    | some list =>
      obtain ⟨appenders, all, decoded⟩ := bind_eq_ok.mp decoded
      cases decoded
      exact decodeAppenders_plain all

theorem decodeItems_all {fromText : Text → Except Exn V} {property : V → Prop}
    (each : ∀ text x, fromText text = .ok x → property x) {node : Node} {count i : Nat} {xs : List V}
    (decoded : decodeItems yaml fromText node count i = .ok xs) : ∀ x ∈ xs, property x := by
  induction count generalizing i xs with
  | zero =>
    cases decoded
    simp
  | succ count ih =>
    obtain ⟨x, first, decoded⟩ := bind_eq_ok.mp decoded
    obtain ⟨rest, later, decoded⟩ := bind_eq_ok.mp decoded
    cases decoded
    exact List.forall_mem_cons.mpr ⟨each _ x first, ih later⟩

/-- A decoded set has only plain appenders. -/
theorem ofText_plain {text : Text} {c : LogDefines} (decoded : LogDefines.ofText yaml text = .ok c) :
    ∀ d ∈ c.entries, ∀ a ∈ d.appenders, a.Plain := by
  obtain ⟨node, _, decoded⟩ := bind_eq_ok.mp decoded
  obtain ⟨ds, items, decoded⟩ := bind_eq_ok.mp decoded
  cases decoded
  have each : ∀ text d, LogDefine.ofText yaml text = .ok d → ∀ a ∈ d.appenders, a.Plain := by
    intro text d made
    obtain ⟨n, _, made⟩ := bind_eq_ok.mp made
    exact decodeDefine_plain made
  intro d member
  exact decodeItems_all each items d (Table.mem_of_mem_insertAll member)

end Decoded

/-- A formatter that is empty or parses. -/
def Formattable (text : Text) : Prop := text = [] ∨ (LogFormatter.create text).isError = false

/-- A live appender is described as it was defined. -/
theorem described_defined {a : LogAppenderDefine} (plain : a.Plain) (formattable : Formattable a.formatter)
    (inherited : Option LogFormatter) : (a.defined inherited).described = a := by
  obtain ⟨type, level, formatter, file⟩ := a
  obtain ⟨unknow, kind⟩ := plain
  cases unknow
  have own : patternOf (LogAppenderDefine.defined inherited ⟨type, .unknow, formatter, file⟩).own =
      formatter := by
    by_cases empty : formatter = []
    · simp [LogAppenderDefine.defined, LogAppender.own, patternOf, empty]
    · have parses : (LogFormatter.create formatter).isError = false := formattable.resolve_left empty
      simp [LogAppenderDefine.defined, LogAppender.own, formatterOr, patternOf, empty, parses]
      rfl
  rcases kind with one | ⟨two, noFile⟩
  · cases one
    rw [LogAppender.described, own]
    rfl
  · cases two
    cases noFile
    rw [LogAppender.described, own]
    rfl

theorem attached_of_map {heap : List LogAppender} {logger : Logger} {as : List α} {f : α → LogAppender}
    (found : (logger.appenders.map fun p => heap[p]?) = as.map fun a => some (f a)) :
    logger.attached heap = as.map f := by
  have filtered := congrArg (List.filterMap id) found
  simpa [Logger.attached, List.filterMap_map, Function.comp_def] using filtered

/-- A configured logger is described as its definition says, but for its formatter. -/
theorem Configured.described {before after : Loggers} {i : LogDefine}
    (configured : Configured false before after i) (plain : ∀ a ∈ i.appenders, a.Plain)
    (formattable : ∀ a ∈ i.appenders, Formattable a.formatter) :
    ∃ d ∈ after.described.entries, d.name = i.name ∧ d.level = i.level ∧ d.appenders = i.appenders := by
  obtain ⟨logger, found, level, _, appenders, _⟩ := configured
  obtain ⟨member, name⟩ := (Table.find?_eq_some_iff _ _ _).mp found
  refine ⟨logger.described after.heap, List.mem_map_of_mem member, name, level, ?_⟩
  have all : i.kept false = i.appenders := by simp [LogDefine.kept]
  rw [all] at appenders
  rw [Logger.described, attached_of_map appenders, List.map_map]
  refine (List.map_congr_left ?_).trans (List.map_id _)
  intro a inside
  exact described_defined (plain a inside) (formattable a inside) _

/-- After a first configuration the dump has an entry for every definition, with its level
and its appenders. -/
def DumpAgrees (yaml : YamlCpp) (c : LogDefines) (m : LoggerManager) : Prop :=
  ∃ events var final, (logsVar false .empty).setValue c m = (events, var, .returns () final) ∧
    ∃ dump dumped, final.toYamlString yaml = .ok dump ∧ LogDefines.ofText yaml dump = .ok dumped ∧
      ∀ d ∈ c.entries, ∃ e ∈ dumped.entries, e.name = d.name ∧ e.level = d.level ∧
        e.appenders = d.appenders

/-- It does so whatever loggers there were, if the root logger can announce the change. -/
theorem dump_agrees_iff {yaml : YamlCpp} (loads : ∀ node, yaml.load (yaml.emit node) = .ok node) {text : Text}
    {c : LogDefines} (decoded : LogDefines.ofText yaml text = .ok c) (nonempty : c.entries ≠ [])
    (formattable : ∀ d ∈ c.entries, Formattable d.formatter ∧ ∀ a ∈ d.appenders, Formattable a.formatter)
    (m : LoggerManager) : DumpAgrees yaml c m ↔ m.loggers.Announces := by
  have plain := ofText_plain decoded
  have different : (c == .empty) = false := by
    change (c.entries == []) = false
    cases entries : c.entries with
    | nil => exact absurd entries nonempty
    | cons => rfl
  constructor
  · rintro ⟨events, var, final, set, _⟩
    by_contra silent
    rw [setValue_crashed different (.inl silent)] at set
    cases set
  · intro announces
    have isChanged (d : LogDefine) : changed .empty d = true := rfl
    obtain ⟨next, done, _, configured, _⟩ := reconfigure_typed false .empty c m.loggers m.sound
      fun d member _ a inside => (plain d member a inside).2.imp_right And.left
    refine ⟨_, _, _, setValue_applied different announces done, ?_⟩
    obtain ⟨dump, printed, read⟩ := dump_described loads ⟨next, reconfigure_sound m.sound done⟩
    refine ⟨dump, _, printed, read, ?_⟩
    intro d member
    exact (configured d member (isChanged d)).described (plain d member) (formattable d member).2

/-- The root logger with a formatter and a console appender. -/
def formattedDefine : LogDefine := ⟨Loggers.rootName, .info, ['%', 'm'], [⟨2, .unknow, [], []⟩]⟩

/-- The texts in block style of its dump. -/
def dumpYaml : YamlCpp := styled
  [(encodeAppender ⟨2, .unknow, [], []⟩, "type: StdoutLogAppender".toList),
    (encodeDefine formattedDefine,
      "name: root\nlevel: INFO\nformatter: \"%m\"\nappenders:\n  - type: StdoutLogAppender".toList),
    (.sequence [encodeDefine formattedDefine],
      "- name: root\n  level: INFO\n  formatter: \"%m\"\n  appenders:\n    - type: StdoutLogAppender".toList)]

theorem dumpYaml_loads : ∀ node, dumpYaml.load (dumpYaml.emit node) = .ok node :=
  styled_loads (by decide) (by decide)

theorem dumpYaml_decodes :
    LogDefines.ofText dumpYaml (dumpYaml.emit (.sequence [encodeDefine formattedDefine])) =
      .ok (Table.empty.put formattedDefine) := by
  have read := decode_encodeDefine dumpYaml (i := formattedDefine) (by simp [formattedDefine])
  simp only [LogDefines.ofText, LexicalCast.set, LexicalCast.container, dumpYaml_loads, bind, Except.bind,
    Node.size, List.length_singleton, decodeItems, Node.item, List.getElem?_cons_zero, printNode,
    LogDefine.cast, LogDefine.ofText, read]
  rfl

theorem dump_agrees_iff_root : DumpAgrees dumpYaml (Table.empty.put formattedDefine) .create := by
  refine (dump_agrees_iff dumpYaml_loads dumpYaml_decodes (by simp [Table.put, putEntry, Table.empty]) ?_
    .create).mpr create_announces
  intro d member
  rw [List.mem_singleton.mp member]
  exact ⟨.inr rfl, by simp [formattedDefine, Formattable]⟩

/-- An appender of the root logger has been given a null formatter. -/
theorem dump_agrees_fails :
    (∀ node, dumpYaml.load (dumpYaml.emit node) = .ok node) ∧
      (∃ text, LogDefines.ofText dumpYaml text = .ok (Table.empty.put formattedDefine)) ∧
      ¬ DumpAgrees dumpYaml (Table.empty.put formattedDefine) (sharedAppender.setOwn 1 none) := by
  refine ⟨dumpYaml_loads, ⟨_, dumpYaml_decodes⟩, ?_⟩
  rintro ⟨events, var, final, set, _⟩
  rw [setValue_crashed rfl (.inl sharedAppender_silent)] at set
  cases set

end Sylar
