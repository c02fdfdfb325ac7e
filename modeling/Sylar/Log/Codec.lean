import Sylar.Log.Define
import Sylar.Yaml

/-! The two `LexicalCast` specialisations of `LogDefine`: to a text in YAML and back.
Encoder and decoder name their fields separately, as the source does. -/
namespace Sylar

open Library Yaml

namespace Key

def name : Text := ['n', 'a', 'm', 'e']
def level : Text := ['l', 'e', 'v', 'e', 'l']
def formatter : Text := ['f', 'o', 'r', 'm', 'a', 't', 't', 'e', 'r']
def appenders : Text := ['a', 'p', 'p', 'e', 'n', 'd', 'e', 'r', 's']
def type : Text := ['t', 'y', 'p', 'e']
def file : Text := ['f', 'i', 'l', 'e']
def fileAppender : Text := ['F', 'i', 'l', 'e', 'L', 'o', 'g', 'A', 'p', 'p', 'e', 'n', 'd', 'e', 'r']
def stdoutAppender : Text :=
  ['S', 't', 'd', 'o', 'u', 't', 'L', 'o', 'g', 'A', 'p', 'p', 'e', 'n', 'd', 'e', 'r']

end Key

section Decode

variable (yaml : YamlCpp)

/-- `if (a[key].IsDefined()) field = a[key].as<std::string>()`, with the default else. -/
def optionalText (key : Text) (node : Option Node) : Except Exn Text := do
  match ← Node.member key node with
  | some value => value.asText yaml
  | none => pure []

/-- The body of the loop over the appenders; `none` is `continue`. -/
def decodeAppender (a : Option Node) : Except Exn (Option LogAppenderDefine) := do
  match ← Node.member Key.type a with
  | none => pure none
  | some typeNode =>
    let type ← typeNode.asText yaml
    if type = Key.fileAppender then
      match ← Node.member Key.file a with
      | none => pure none
      | some fileNode =>
        let file ← fileNode.asText yaml
        let formatter ← optionalText yaml Key.formatter a
        pure (some ⟨1, .unknow, formatter, file⟩)
    else if type = Key.stdoutAppender then
      let formatter ← optionalText yaml Key.formatter a
      pure (some ⟨2, .unknow, formatter, []⟩)
    else pure none

/-- The loop over the appenders from position `x` on, `count` of them. -/
def decodeAppenders (node : Node) : Nat → Nat → Except Exn (List LogAppenderDefine)
  | 0, _ => pure []
  | count + 1, x => do
    let lad ← decodeAppender yaml (node.item yaml x)
    let rest ← decodeAppenders node count (x + 1)
    pure (lad.toList ++ rest)

/-- `LexicalCast<std::string, LogDefine>` after `YAML::Load`. -/
def decodeDefine (n : Node) : Except Exn LogDefine := do
  match ← Node.member Key.name (some n) with
  | none => throw .standard
  | some nameNode =>
    let name ← nameNode.asText yaml
    let level ← optionalText yaml Key.level (some n)
    let formatter ← optionalText yaml Key.formatter (some n)
    match ← Node.member Key.appenders (some n) with
    | none => pure ⟨name, LogLevel.fromString level, formatter, []⟩
    | some list =>
      let appenders ← decodeAppenders yaml list list.size 0
      pure ⟨name, LogLevel.fromString level, formatter, appenders⟩

/-- `LexicalCast<std::string, LogDefine>` -/
def LogDefine.ofText (text : Text) : Except Exn LogDefine := do decodeDefine yaml (← yaml.load text)

end Decode

/-- `if (i.level != LogLevel::UNKNOW) node["level"] = LogLevel::ToString(i.level)` -/
def assignLevel (level : LogLevel) (pairs : List (Node × Node)) : List (Node × Node) :=
  if level ≠ .unknow then assign Key.level (.scalar level.toString) pairs else pairs

/-- `if (!i.formatter.empty()) node["formatter"] = i.formatter` -/
def assignFormatter (formatter : Text) (pairs : List (Node × Node)) : List (Node × Node) :=
  if formatter ≠ [] then assign Key.formatter (.scalar formatter) pairs else pairs

def encodeAppender (a : LogAppenderDefine) : Node :=
  let na := []
  let na :=
    if a.type = 1 then
      assign Key.file (.scalar a.file) (assign Key.type (.scalar Key.fileAppender) na)
    else if a.type = 2 then assign Key.type (.scalar Key.stdoutAppender) na
    else na
  ofPairs (assignFormatter a.formatter (assignLevel a.level na))

/-- The node that `LexicalCast<LogDefine, std::string>` prints. The first
`n["appenders"].push_back` makes the sequence, so without appenders there is none. -/
def encodeDefine (i : LogDefine) : Node :=
  let n := assign Key.name (.scalar i.name) []
  let n := assignFormatter i.formatter (assignLevel i.level n)
  ofPairs (if i.appenders = [] then n
    else assign Key.appenders (.sequence (i.appenders.map encodeAppender)) n)

/-- `LexicalCast<LogDefine, std::string>` -/
def LogDefine.toText (yaml : YamlCpp) (i : LogDefine) : Text := yaml.emit (encodeDefine i)

section RoundTrip

variable (yaml : YamlCpp)

theorem findPair_assignLevel {key : Text} (apart : Key.level ≠ key) (level : LogLevel)
    (pairs : List (Node × Node)) :
    findPair (fun text => text = key) (assignLevel level pairs) =
      findPair (fun text => text = key) pairs := by
  rw [assignLevel]
  split
  · exact findPair_assign_other apart _ pairs
  · rfl

/-- A way to assign the member `formatter`, which then reads as a text. -/
structure Formats (assigned : List (Node × Node) → List (Node × Node)) (formatter : Text) : Prop where
  others : ∀ {key : Text}, Key.formatter ≠ key → ∀ pairs,
    findPair (fun text => text = key) (assigned pairs) = findPair (fun text => text = key) pairs
  own : ∀ {pairs : List (Node × Node)}, findPair (fun text => text = Key.formatter) pairs = none →
    optionalText yaml Key.formatter (some (ofPairs (assigned pairs))) = .ok formatter

/-- An empty formatter is not assigned, and reads as empty. -/
theorem formats_assignFormatter (formatter : Text) : Formats yaml (assignFormatter formatter) formatter := by
  by_cases empty : formatter = []
  · constructor
    · intro key _ pairs
      simp [assignFormatter, empty]
    · intro pairs absent
      rw [optionalText, member_ofPairs]
      simp only [assignFormatter, empty, ne_eq, not_true_eq_false, if_false, absent]
      rfl
  · constructor
    · intro key apart pairs
      simpa [assignFormatter, empty] using findPair_assign_other apart _ pairs
    · intro pairs _
      rw [optionalText, member_ofPairs]
      simp only [assignFormatter, ne_eq, empty, not_false_eq_true, if_true, findPair_assign_same]
      rfl

/-- A level that was not assigned before reads back. -/
theorem optionalText_level (level : LogLevel) {pairs : List (Node × Node)}
    (absent : findPair (fun text => text = Key.level) pairs = none) :
    ∃ text, optionalText yaml Key.level (some (ofPairs (assignLevel level pairs))) = .ok text ∧
      LogLevel.fromString text = level := by
  rw [optionalText, member_ofPairs, assignLevel]
  by_cases unknow : level = .unknow
  · refine ⟨[], ?_, by rw [unknow, LogLevel.fromString_empty]⟩
    simp only [unknow, ne_eq, not_true_eq_false, if_false, absent]
    rfl
  · refine ⟨level.toString, ?_, LogLevel.fromString_toString level⟩
    simp only [ne_eq, unknow, not_false_eq_true, if_true, findPair_assign_same]
    rfl

/-- What is read of a member depends on nothing else in the node. -/
theorem optionalText_congr {key : Text} {n m : Option Node}
    (same : Node.member key n = Node.member key m) : optionalText yaml key n = optionalText yaml key m := by
  rw [optionalText, optionalText, same]

/-- Nodes that decode one by one decode in order. -/
theorem decodeAppenders_map {node : α → Node} {define : α → LogAppenderDefine} (as : List α)
    (decoded : ∀ a ∈ as, decodeAppender yaml (some (node a)) = .ok (some (define a))) (front : List Node) :
    decodeAppenders yaml (.sequence (front ++ as.map node)) as.length front.length =
      .ok (as.map define) := by
  induction as generalizing front with
  | nil => rfl
  | cons a rest ih =>
    obtain ⟨first, others⟩ := List.forall_mem_cons.mp decoded
    have item : (Node.sequence (front ++ (a :: rest).map node)).item yaml front.length = some (node a) := by
      simp [Node.item]
    have later : decodeAppenders yaml (.sequence (front ++ (a :: rest).map node)) rest.length
        (front.length + 1) = .ok (rest.map define) := by
      simpa using ih others (front ++ [node a])
    simp only [List.length_cons, decodeAppenders, item, first, bind, Except.bind, later]
    rfl

namespace Formats

variable {yaml} {assigned : List (Node × Node) → List (Node × Node)} {formatter : Text}

/-- A file appender reads back but for its level. -/
theorem file (formats : Formats yaml assigned formatter) (level : LogLevel) (file : Text) :
    decodeAppender yaml (some (ofPairs (assigned (assignLevel level
      (assign Key.file (.scalar file) (assign Key.type (.scalar Key.fileAppender) [])))))) =
      .ok (some ⟨1, .unknow, formatter, file⟩) := by
  set fields := assign Key.file (.scalar file) (assign Key.type (.scalar Key.fileAppender) [])
  set node := ofPairs (assigned (assignLevel level fields)) with printed
  have typeNode : Node.member Key.type (some node) = .ok (some (.scalar Key.fileAppender)) := by
    rw [printed, member_ofPairs, formats.others (by decide), findPair_assignLevel (by decide)]
    rfl
  have fileNode : Node.member Key.file (some node) = .ok (some (.scalar file)) := by
    rw [printed, member_ofPairs, formats.others (by decide), findPair_assignLevel (by decide)]
    rfl
  have formatterText : optionalText yaml Key.formatter (some node) = .ok formatter := by
    apply formats.own
    rw [findPair_assignLevel (by decide)]
    rfl
  simp only [decodeAppender, typeNode, fileNode, formatterText, bind, Except.bind, Node.asText, if_true]
  rfl

theorem stdout (formats : Formats yaml assigned formatter) (level : LogLevel) :
    decodeAppender yaml (some (ofPairs (assigned (assignLevel level
      (assign Key.type (.scalar Key.stdoutAppender) []))))) =
      .ok (some ⟨2, .unknow, formatter, []⟩) := by
  set fields := assign Key.type (.scalar Key.stdoutAppender) []
  set node := ofPairs (assigned (assignLevel level fields)) with printed
  have typeNode : Node.member Key.type (some node) = .ok (some (.scalar Key.stdoutAppender)) := by
    rw [printed, member_ofPairs, formats.others (by decide), findPair_assignLevel (by decide)]
    rfl
  have formatterText : optionalText yaml Key.formatter (some node) = .ok formatter := by
    apply formats.own
    rw [findPair_assignLevel (by decide)]
    rfl
  have other : Key.stdoutAppender ≠ Key.fileAppender := by decide
  simp only [decodeAppender, typeNode, formatterText, bind, Except.bind, Node.asText, if_neg other, if_true]
  rfl

/-- The node of a logger reads back member by member; without appenders it has no list. -/
theorem define (formats : Formats yaml assigned formatter) (name : Text) (level : LogLevel) {as : List α}
    {item : α → Node} {describe : α → LogAppenderDefine}
    (decoded : ∀ a ∈ as, decodeAppender yaml (some (item a)) = .ok (some (describe a)))
    {n : List (Node × Node)} (fields : n = assigned (assignLevel level (assign Key.name (.scalar name) []))) :
    decodeDefine yaml (ofPairs (if as = [] then n else assign Key.appenders (.sequence (as.map item)) n)) =
      .ok ⟨name, level, formatter, as.map describe⟩ := by
  set node := ofPairs (if as = [] then n else assign Key.appenders (.sequence (as.map item)) n) with printed
  have before {key : Text} (apart : Key.appenders ≠ key) :
      Node.member key (some node) = Node.member key (some (ofPairs n)) := by
    rw [printed, member_ofPairs, member_ofPairs]
    split
    · rfl
    · rw [findPair_assign_other apart]
  have nameNode : Node.member Key.name (some node) = .ok (some (.scalar name)) := by
    rw [before (by decide), fields, member_ofPairs, formats.others (by decide),
      findPair_assignLevel (by decide)]
    rfl
  have formatterText : optionalText yaml Key.formatter (some node) = .ok formatter := by
    rw [optionalText_congr yaml (before (by decide)), fields]
    apply formats.own
    rw [findPair_assignLevel (by decide)]
    rfl
  have levelNode : Node.member Key.level (some node) =
      Node.member Key.level (some (ofPairs (assignLevel level (assign Key.name (.scalar name) [])))) := by
    rw [before (by decide), fields, member_ofPairs, member_ofPairs, formats.others (by decide)]
  have absent : findPair (fun text => text = Key.level) (assign Key.name (.scalar name) []) = none := rfl
  obtain ⟨text, levelText, read⟩ := optionalText_level yaml level absent
  rw [← optionalText_congr yaml levelNode] at levelText
  have list : Node.member Key.appenders (some node) =
      .ok (if as = [] then none else some (.sequence (as.map item))) := by
    rw [printed, member_ofPairs]
    split
    · rw [fields, formats.others (by decide), findPair_assignLevel (by decide)]
      rfl
    · rw [findPair_assign_same]
  simp only [decodeDefine, nameNode, levelText, formatterText, list, bind, Except.bind, Node.asText, read]
  by_cases empty : as = []
  · simp only [empty, if_true]
    rfl
  · have all := decodeAppenders_map yaml as decoded []
    simp only [if_neg empty, Node.size, List.length_map]
    rw [List.nil_append, List.length_nil] at all
    rw [all]
    rfl

end Formats

/-- What the decoder reads of an appender: all fields but the level. -/
def LogAppenderDefine.unlevelled (a : LogAppenderDefine) : LogAppenderDefine :=
  { a with level := .unknow }

theorem decode_encodeAppender {a : LogAppenderDefine} (typed : a.type = 1 ∨ a.type = 2 ∧ a.file = []) :
    decodeAppender yaml (some (encodeAppender a)) = .ok (some a.unlevelled) := by
  obtain ⟨type, level, formatter, file⟩ := a
  rcases typed with one | ⟨two, empty⟩
  · cases one
    exact (formats_assignFormatter yaml formatter).file level file
  · cases two
    cases empty
    exact (formats_assignFormatter yaml formatter).stdout level

/-- Decoding an encoded definition gives it back without the levels of its appenders. -/
theorem decode_encodeDefine {i : LogDefine}
    (typed : ∀ a ∈ i.appenders, a.type = 1 ∨ a.type = 2 ∧ a.file = []) :
    decodeDefine yaml (encodeDefine i) =
      .ok { i with appenders := i.appenders.map LogAppenderDefine.unlevelled } :=
  (formats_assignFormatter yaml i.formatter).define i.name i.level
    (fun a member => decode_encodeAppender yaml (typed a member)) rfl

/-- The codec keeps a definition exactly when no appender has a level of its own:
the encoder writes it and the decoder does not read it. -/
theorem codec_iff {i : LogDefine} (typed : ∀ a ∈ i.appenders, a.type = 1 ∨ a.type = 2 ∧ a.file = [])
    (loads : yaml.load (yaml.emit (encodeDefine i)) = .ok (encodeDefine i)) :
    LogDefine.ofText yaml (i.toText yaml) = .ok i ↔ ∀ a ∈ i.appenders, a.level = .unknow := by
  have decoded : LogDefine.ofText yaml (i.toText yaml) =
      .ok { i with appenders := i.appenders.map LogAppenderDefine.unlevelled } := by
    rw [LogDefine.ofText, LogDefine.toText, loads]
    exact decode_encodeDefine yaml typed
  rw [decoded]
  obtain ⟨name, level, formatter, appenders⟩ := i
  simp only [Except.ok.injEq, LogDefine.mk.injEq, true_and]
  constructor
  · intro same a member
    have kept := List.map_inj_left.mp (same.trans (List.map_id appenders).symm) a member
    exact (congrArg LogAppenderDefine.level kept).symm
  · intro unknow
    refine Eq.trans (List.map_inj_left.mpr ?_) (List.map_id appenders)
    intro a member
    rw [LogAppenderDefine.unlevelled, ← unknow a member]
    rfl

end RoundTrip

/-- A logger with one console appender. -/
def consoleDefine (level : LogLevel) : LogDefine := ⟨['a'], .info, [], [⟨2, level, [], []⟩]⟩

/-- A parser that knows one text, and a printer for its node. -/
def yamlOf (printed : Text) (node : Node) : YamlCpp where
  emit _ := printed
  load text := if text = printed then .ok node else .error .standard
  nullText := .ok ['n', 'u', 'l', 'l']
  keyIndex _ := none

theorem yamlOf_loads (printed : Text) (node other : Node) :
    (yamlOf printed node).load ((yamlOf printed node).emit other) = .ok node := by
  simp [yamlOf]

def unknowYaml : YamlCpp :=
  yamlOf "name: a\nlevel: INFO\nappenders:\n  - type: StdoutLogAppender".toList
    (encodeDefine (consoleDefine .unknow))

def errorYaml : YamlCpp :=
  yamlOf "name: a\nlevel: INFO\nappenders:\n  - type: StdoutLogAppender\n    level: ERROR".toList
    (encodeDefine (consoleDefine .error))

theorem codec_iff_unknow :
    LogDefine.ofText unknowYaml ((consoleDefine .unknow).toText unknowYaml) =
      .ok (consoleDefine .unknow) := by
  refine (codec_iff unknowYaml ?_ ?_).mpr ?_
  · simp [consoleDefine]
  · exact yamlOf_loads _ _ _
  · simp [consoleDefine]

/-- The level `ERROR` of the appender reads back as `UNKNOW`. -/
theorem codec_level_lost :
    errorYaml.load (errorYaml.emit (encodeDefine (consoleDefine .error))) =
        .ok (encodeDefine (consoleDefine .error)) ∧
      LogDefine.ofText errorYaml ((consoleDefine .error).toText errorYaml) ≠
        .ok (consoleDefine .error) := by
  have loads : errorYaml.load (errorYaml.emit (encodeDefine (consoleDefine .error))) =
      .ok (encodeDefine (consoleDefine .error)) := yamlOf_loads _ _ _
  refine ⟨loads, ?_⟩
  intro kept
  have read := decode_encodeDefine errorYaml (i := consoleDefine .error) (by simp [consoleDefine])
  rw [LogDefine.ofText, LogDefine.toText, loads] at kept
  cases read.symm.trans kept

end Sylar
