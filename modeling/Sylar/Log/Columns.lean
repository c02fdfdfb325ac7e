import Sylar.Library.Columns
import Sylar.Log.Lines

/-! What the lines of a log file tell of the events. The pattern of a new logger prints
columns with tabs between them, and the message is the last one. -/
namespace Sylar

open Library

/-- A level and the event that is logged with it. -/
abbrev LogEntry := LogLevel × LogEvent

/-- What the items of each column print. -/
def FormatItem.columns (clock : Clock) (items : List (List FormatItem)) (entry : LogEntry) : List Text :=
  items.map fun column => column.flatMap (FormatItem.format clock entry.1 entry.2)

/-- Columns with `%T` between them, and `%n` at the end. -/
def tabular (items : List (List FormatItem)) : List FormatItem := [FormatItem.tab].intercalate items ++ [.newLine]

theorem format_tabular (clock : Clock) (items : List (List FormatItem)) (entry : LogEntry) :
    (tabular items).flatMap (FormatItem.format clock entry.1 entry.2) =
      row '\t' '\n' (FormatItem.columns clock items entry) := by
  rw [tabular, List.flatMap_append, row]
  refine congrArg₂ (· ++ ·) ?_ rfl
  induction items with
  | nil => rfl
  | cons column rest ih =>
    cases rest with
    | nil => simp [FormatItem.columns]
    | cons next rest =>
      rw [List.intercalate_cons_cons, List.flatMap_append, List.flatMap_append, ih]
      simp [FormatItem.columns, FormatItem.format]

/-- The text of log lines, one after the other. -/
def LogFormatter.lines (clock : Clock) (formatter : LogFormatter) (entries : List LogEntry) : Text :=
  entries.flatMap fun entry => formatter.format clock entry.1 entry.2

/-- Whatever the columns of a pattern are, the text of the lines tells each of them, if
none but the last prints a tab and none a newline. -/
theorem LogFormatter.lines_columns {clock : Clock} {formatter : LogFormatter} {items : List (List FormatItem)}
    (tabs : formatter.items = tabular items) {entries entries' : List LogEntry}
    (clean : ∀ entry ∈ entries, CleanRow '\t' '\n' (FormatItem.columns clock items entry))
    (clean' : ∀ entry ∈ entries', CleanRow '\t' '\n' (FormatItem.columns clock items entry))
    (same : formatter.lines clock entries = formatter.lines clock entries') :
    entries.map (FormatItem.columns clock items) = entries'.map (FormatItem.columns clock items) := by
  have rows (entries : List LogEntry) : formatter.lines clock entries =
      (entries.map (FormatItem.columns clock items)).flatMap (row '\t' '\n') := by
    simp only [LogFormatter.lines, LogFormatter.format, tabs, format_tabular, List.flatMap_map]
  rw [rows, rows] at same
  have width (entry : LogEntry) : (FormatItem.columns clock items entry).length = items.length := by
    rw [FormatItem.columns, List.length_map]
  refine rows_inj (by decide) items.length ?_ ?_ same
  · intro columns member
    obtain ⟨entry, inside, rfl⟩ := List.mem_map.mp member
    exact ⟨clean entry inside, width entry⟩
  · intro columns member
    obtain ⟨entry, inside, rfl⟩ := List.mem_map.mp member
    exact ⟨clean' entry inside, width entry⟩

/-- The columns of `defaultPattern`. -/
def defaultColumns : List (List FormatItem) :=
  [[.dateTime defaultDateTime], [.threadId], [.threadName], [.fiberId], [.string ['['], .level, .string [']']],
    [.string ['['], .name, .string [']']], [.filename, .string [':'], .line], [.message]]

theorem items_default : (LogFormatter.create defaultPattern).items = tabular defaultColumns := by decide

/-- What a line of the default pattern is about: all of the event but `m_elapse`, and the
time as far as it is printed. -/
structure Printed where
  time : Text
  threadId : UInt32
  threadName : Text
  fiberId : UInt32
  level : LogLevel
  loggerName : Text
  file : Text
  line : Int32
  content : Text
  deriving DecidableEq, Repr

def LogEvent.printed (clock : Clock) (entry : LogEntry) : Printed where
  time := clock.strftime defaultDateTime entry.2.time
  threadId := entry.2.threadId
  threadName := entry.2.threadName
  fiberId := entry.2.fiberId
  level := entry.1
  loggerName := entry.2.loggerName
  file := entry.2.file
  line := entry.2.line
  content := entry.2.content

/-- No name has a tab or a newline, and the message no newline. -/
structure LogEvent.Plain (clock : Clock) (event : LogEvent) : Prop where
  time : '\t' ∉ clock.strftime defaultDateTime event.time ∧ '\n' ∉ clock.strftime defaultDateTime event.time
  threadName : '\t' ∉ event.threadName ∧ '\n' ∉ event.threadName
  loggerName : '\t' ∉ event.loggerName ∧ '\n' ∉ event.loggerName
  file : '\t' ∉ event.file ∧ '\n' ∉ event.file
  content : '\n' ∉ event.content

theorem decimal_inj {m n : Nat} (same : decimal m = decimal n) : m = n := by
  have read := congrArg (fun digits => Nat.ofDigitChars 10 digits 0) same
  simpa only [decimal, Nat.ofDigitChars_ten_toDigits] using read

/-- A number is printed with digits only. -/
theorem not_mem_decimal {c : Char} (other : c.isDigit = false) (n : Nat) : c ∉ decimal n := by
  intro member
  have digit := Nat.isDigit_of_mem_toDigits (by decide) (by decide) member
  rw [other] at digit
  cases digit

theorem not_mem_decimalInt {c : Char} (other : c.isDigit = false) (minus : c ≠ '-') (n : Int) : c ∉ decimalInt n := by
  rw [decimalInt]
  split
  · simp only [List.mem_cons, not_or]
    exact ⟨minus, not_mem_decimal other _⟩
  · exact not_mem_decimal other _

theorem decimalInt_inj {m n : Int} (same : decimalInt m = decimalInt n) : m = n := by
  have signed (k : Nat) (rest : Text) : decimal k ≠ '-' :: rest := by
    intro starts
    have minus : '-' ∉ decimal k := not_mem_decimal (by decide) k
    exact minus (starts ▸ List.mem_cons_self)
  rw [decimalInt, decimalInt] at same
  split at same
  · split at same
    · have digits := decimal_inj (List.cons.inj same).2
      omega
    · exact absurd same.symm (signed _ _)
  · split at same
    · exact absurd same (signed _ _)
    · have digits := decimal_inj same
      omega

theorem LogLevel.not_mem_toString {c : Char} (level : LogLevel) (other : c.isUpper = false) : c ∉ level.toString := by
  intro member
  have upper : ∀ c ∈ level.toString, c.isUpper = true := by cases level <;> decide
  rw [upper c member] at other
  cases other

/-- A printed event keeps within its columns. -/
theorem LogEvent.Plain.clean {clock : Clock} {event : LogEvent} (plain : event.Plain clock) (level : LogLevel) :
    CleanRow '\t' '\n' (FormatItem.columns clock defaultColumns (level, event)) := by
  have number (n : Nat) : '\t' ∉ decimal n ∧ '\n' ∉ decimal n :=
    ⟨not_mem_decimal (by decide) n, not_mem_decimal (by decide) n⟩
  have line : '\t' ∉ decimalInt event.line.toInt ∧ '\n' ∉ decimalInt event.line.toInt :=
    ⟨not_mem_decimalInt (by decide) (by decide) _, not_mem_decimalInt (by decide) (by decide) _⟩
  have word : '\t' ∉ level.toString ∧ '\n' ∉ level.toString :=
    ⟨level.not_mem_toString (by decide), level.not_mem_toString (by decide)⟩
  refine ⟨?_, ?_⟩
  · simp [FormatItem.columns, defaultColumns, FormatItem.format, plain.time, plain.threadName, plain.loggerName,
      plain.file, number, line, word]
  · simp [FormatItem.columns, defaultColumns, FormatItem.format, plain.time, plain.threadName, plain.loggerName,
      plain.file, plain.content, number, line, word]

/-- The columns tell the event. -/
theorem LogEvent.printed_of_columns {clock : Clock} {entry entry' : LogEntry}
    (same : FormatItem.columns clock defaultColumns entry = FormatItem.columns clock defaultColumns entry') :
    LogEvent.printed clock entry = LogEvent.printed clock entry' := by
  simp only [FormatItem.columns, defaultColumns, List.map_cons, List.map_nil, List.flatMap_cons, List.flatMap_nil,
    List.append_nil, FormatItem.format, List.cons.injEq, and_true] at same
  obtain ⟨time, threadId, threadName, fiberId, level, loggerName, position, content⟩ := same
  have sameLevel : entry.1 = entry'.1 := by
    have word := List.append_cancel_right (List.append_cancel_left level)
    rw [← LogLevel.fromString_toString entry.1, word, LogLevel.fromString_toString]
  have colon (n : Int) : ':' ∉ decimalInt n := not_mem_decimalInt (by decide) (by decide) n
  obtain ⟨file, line⟩ := append_mark_inj_right (colon _) (colon _) position
  simp only [LogEvent.printed, Printed.mk.injEq]
  exact ⟨time, UInt32.toNat_inj.mp (decimal_inj threadId), threadName, UInt32.toNat_inj.mp (decimal_inj fiberId),
    sameLevel, List.append_cancel_right (List.append_cancel_left loggerName), file,
    Int32.toInt_inj.mp (decimalInt_inj line), content⟩

/-- Only what is printed goes into the columns. -/
theorem LogEvent.columns_of_printed {clock : Clock} {entry entry' : LogEntry}
    (same : LogEvent.printed clock entry = LogEvent.printed clock entry') :
    FormatItem.columns clock defaultColumns entry = FormatItem.columns clock defaultColumns entry' := by
  simp only [LogEvent.printed, Printed.mk.injEq] at same
  obtain ⟨time, threadId, threadName, fiberId, level, loggerName, file, line, content⟩ := same
  simp only [FormatItem.columns, defaultColumns, List.map_cons, List.map_nil, List.flatMap_cons, List.flatMap_nil,
    FormatItem.format, time, threadId, threadName, fiberId, level, loggerName, file, line, content]

/-- Lists that one function sees as equal, another one does that sees no more. -/
theorem map_eq_of_map_eq {f : α → β} {g : α → γ} (coarser : ∀ x y, f x = f y → g x = g y) {xs ys : List α}
    (same : xs.map f = ys.map f) : xs.map g = ys.map g := by
  induction xs generalizing ys with
  | nil =>
    cases List.map_eq_nil_iff.mp same.symm
    rfl
  | cons x xs ih =>
    cases ys with
    | nil => cases same
    | cons y ys =>
      obtain ⟨first, rest⟩ := List.cons.inj same
      rw [List.map_cons, List.map_cons, coarser x y first, ih rest]

namespace LogFormatter

variable {clock : Clock}

theorem lines_default (clock : Clock) (entries : List LogEntry) : (create defaultPattern).lines clock entries =
    (entries.map (FormatItem.columns clock defaultColumns)).flatMap (row '\t' '\n') := by
  simp only [lines, format, items_default, format_tabular, List.flatMap_map]

/-- A log file with the default pattern tells what was logged, entry by entry. -/
theorem lines_tell {entries entries' : List LogEntry} (plain : ∀ entry ∈ entries, entry.2.Plain clock)
    (plain' : ∀ entry ∈ entries', entry.2.Plain clock) :
    (create defaultPattern).lines clock entries = (create defaultPattern).lines clock entries' ↔
      entries.map (LogEvent.printed clock) = entries'.map (LogEvent.printed clock) := by
  constructor
  · intro same
    have columns := lines_columns items_default (fun entry member => (plain entry member).clean entry.1)
      (fun entry member => (plain' entry member).clean entry.1) same
    exact map_eq_of_map_eq (fun _ _ => LogEvent.printed_of_columns) columns
  · intro same
    rw [lines_default, lines_default, map_eq_of_map_eq (fun _ _ => LogEvent.columns_of_printed) same]

/-- A message with a newline can look like its own line and any other one behind it. -/
theorem lines_forged (entry other : LogEntry) :
    ∃ content, (create defaultPattern).lines clock [(entry.1, { entry.2 with content := content })] =
      (create defaultPattern).lines clock [entry, other] := by
  refine ⟨entry.2.content ++ '\n' :: ['\t'].intercalate (FormatItem.columns clock defaultColumns other), ?_⟩
  simp only [lines_default, List.map_cons, List.map_nil, List.flatMap_cons, List.flatMap_nil, List.append_nil, row,
    FormatItem.columns, defaultColumns, List.intercalate_cons_cons, List.intercalate_singleton, FormatItem.format,
    List.append_assoc, List.cons_append, List.nil_append]

end LogFormatter

namespace AppenderThreads

/-- The entry that a call logs through the appender `p`. -/
def logged (p : Nat) : AppenderCall → Option LogEntry
  | .log q level event => if q = p then some (level, event) else none
  | _ => none

/-- It leaves the members of appenders and the streams' files alone. -/
def Writes : AppenderCall → Prop
  | .log _ _ _ | .getFormatter _ => True
  | _ => False

theorem change_of_writes {call : AppenderCall} (writes : Writes call) (appender : LogAppender) :
    call.change appender = appender := by
  cases call with
  | log | getFormatter => rfl
  | setFormatter | reopen | inherit | assign => exact writes.elim

variable {I : Type} {clock : Clock} {p : Nat}

theorem membersAfter_of_writes {order : List (I × Served)} (writes : ∀ event ∈ order, Writes event.2.call)
    (initial : LogAppender) : membersAfter p order initial = initial := by
  induction order with
  | nil => rfl
  | cons event order ih =>
    simp only [List.mem_cons, forall_eq_or_imp] at writes
    have first : (if event.2.call.appender = p then event.2.call.change initial else initial) = initial := by
      rw [change_of_writes writes.1, ite_self]
    exact (congrArg (membersAfter p order) first).trans (ih writes.2)

/-- A section that logs gives a line to the stream, and no other one gives it text. -/
theorem text_writtenTo {event : I × Served} (writes : Writes event.2.call)
    (found : event.2.call.appender = p → event.2.found.formatter = some (LogFormatter.create defaultPattern)) :
    (writtenTo clock p event).flatMap StreamOp.text =
      (LogFormatter.create defaultPattern).lines clock (logged p event.2.call).toList := by
  obtain ⟨t, call, appender, failed⟩ := event
  cases call with
  | log q level event =>
    by_cases here : q = p
    · subst here
      have formatter : appender.formatter = some (LogFormatter.create defaultPattern) := found rfl
      simp only [writtenTo, AppenderCall.appender, if_true, Served.ops, formatter, LogFormatter.formatTo_text, logged,
        Option.toList, LogFormatter.lines, List.flatMap_cons, List.flatMap_nil, List.append_nil]
    · simp [writtenTo, AppenderCall.appender, here, logged, LogFormatter.lines]
  | getFormatter q =>
    by_cases here : q = p
    · simp [writtenTo, Served.ops, logged, LogFormatter.lines]
    · simp [writtenTo, AppenderCall.appender, here, logged, LogFormatter.lines]
  | setFormatter | reopen | inherit | assign => exact writes.elim

/-- The entries that sections logged through `p`, each with its thread. -/
def entriesOf (p : Nat) (order : List (I × Served)) : List (I × LogEntry) :=
  order.filterMap fun event => (logged p event.2.call).map fun entry => (event.1, entry)

theorem text_order {order : List (I × Served)} (writes : ∀ event ∈ order, Writes event.2.call)
    (found : ∀ event ∈ order, event.2.call.appender = p →
      event.2.found.formatter = some (LogFormatter.create defaultPattern)) :
    (order.flatMap (writtenTo clock p)).flatMap StreamOp.text =
      (LogFormatter.create defaultPattern).lines clock ((entriesOf p order).map Prod.snd) := by
  induction order with
  | nil => rfl
  | cons event order ih =>
    simp only [List.mem_cons, forall_eq_or_imp] at writes found
    rw [List.flatMap_cons, List.flatMap_append, text_writtenTo writes.1 found.1, ih writes.2 found.2]
    cases entry : logged p event.2.call with
    | none => simp [entriesOf, entry, LogFormatter.lines]
    | some entry' => simp [entriesOf, entry, LogFormatter.lines]

variable [DecidableEq I]

theorem own_entriesOf (t : I) (order : List (I × Served)) :
    own t (entriesOf p order) = ((own t order).map Served.call).filterMap (logged p) := by
  simp only [own, entriesOf, List.filterMap_filterMap, List.filterMap_map]
  congr 1
  funext event
  cases entry : logged p event.2.call with
  | none => by_cases same : event.1 = t <;> simp [same, entry]
  | some entry' => by_cases same : event.1 = t <;> simp [same, entry]

/-- However many threads log through an appender with the default pattern, its file tells
what they have logged in the order of their sections, the calls of each thread in its
order, and no other entries give the same file. -/
theorem file_tells {data : Nat → AppenderData} {calls : I → List AppenderCall}
    (pattern : (data p).appender.formatter = some (LogFormatter.create defaultPattern)) (fresh : (data p).ops = [])
    (writes : ∀ t, ∀ call ∈ calls t, Writes call)
    (plain : ∀ t, ∀ call ∈ calls t, ∀ entry ∈ logged p call, entry.2.Plain clock)
    {moves : List (Move I)} {events : List (I × Served)} {s : AppenderThreads I}
    (ran : Library.run (step clock) moves (create data calls) = some (events, s))
    (free : ∀ t, s.inside t ≠ some (p, .exclusive)) :
    ∃ entries : List (I × LogEntry),
      (s.data p).ops.flatMap StreamOp.text =
        (LogFormatter.create defaultPattern).lines clock (entries.map Prod.snd) ∧
      (∀ t, own t entries = (s.thread t).done.filterMap (logged p)) ∧
      ∀ others : List LogEntry, (∀ entry ∈ others, entry.2.Plain clock) →
        (LogFormatter.create defaultPattern).lines clock others = (s.data p).ops.flatMap StreamOp.text →
        others.map (LogEvent.printed clock) = (entries.map Prod.snd).map (LogEvent.printed clock) := by
  obtain ⟨a, order, ordered, streams, same⟩ := run_ordered ran
  have calls_done (t : I) : (own t order).map Served.call = (s.thread t).done :=
    (ordered.served t).trans (same t).2.symm
  have given (t : I) (served : Served) (member : (t, served) ∈ order) : served.call ∈ calls t := by
    have done : served.call ∈ (s.thread t).done := by
      rw [← calls_done t]
      exact List.mem_map_of_mem (mem_own.mpr member)
    have made := ordered.made t
    rw [← (same t).1, ← (same t).2] at made
    exact List.mem_of_mem_filter (made ▸ List.mem_append_left _ done)
  have logs : ∀ event ∈ order, Writes event.2.call := fun event member =>
    writes event.1 _ (given event.1 event.2 member)
  have formatter : ∀ event ∈ order, event.2.call.appender = p →
      event.2.found.formatter = some (LogFormatter.create defaultPattern) := by
    intro event member here
    obtain ⟨front, back, split⟩ := List.append_of_mem member
    have before : ∀ event ∈ front, Writes event.2.call := fun event member =>
      logs event (split ▸ List.mem_append_left _ member)
    rw [ordered.found front event.1 event.2 back split, here, membersAfter_of_writes before, pattern]
  have whole : (s.data p).ops = order.flatMap (writtenTo clock p) := by
    rcases streams p with whole | ⟨t, _, _, _, inside, _⟩
    · rw [whole, ordered.ops p, fresh, List.nil_append]
    · exact absurd inside (free t)
  have text : (order.flatMap (writtenTo clock p)).flatMap StreamOp.text =
      (LogFormatter.create defaultPattern).lines clock ((entriesOf p order).map Prod.snd) := text_order logs formatter
  rw [← whole] at text
  refine ⟨entriesOf p order, text, ?_, ?_⟩
  · intro t
    rw [own_entriesOf, calls_done t]
  · intro others plain' same
    refine (LogFormatter.lines_tell plain' ?_).mp (same.trans text)
    intro entry member
    obtain ⟨⟨t, entry'⟩, inside, rfl⟩ := List.mem_map.mp member
    obtain ⟨event, among, logged⟩ := List.mem_filterMap.mp inside
    obtain ⟨entry, here, same⟩ := Option.map_eq_some_iff.mp logged
    cases same
    exact plain event.1 _ (given event.1 event.2 among) _ here

/-- Two threads log a line each through an appender with the default pattern. -/
def twoLoggers : AppenderThreads Bool :=
  create (fun _ => ⟨⟨.file ['f'], .debug, true, some (LogFormatter.create defaultPattern)⟩, []⟩)
    fun t => [.log 0 .info (FileSystem.message (if t then ['a'] else ['b']))]

def oneLine (t : Bool) : List (Move Bool) := .enter t :: List.replicate 24 (.work t) ++ [.leave t]

theorem file_tells_twoLoggers :
    ∃ events s, Library.run (step FileSystem.noClock) (oneLine true ++ oneLine false) twoLoggers = some (events, s) ∧
      ∃ entries : List (Bool × LogEntry),
        (s.data 0).ops.flatMap StreamOp.text =
          (LogFormatter.create defaultPattern).lines FileSystem.noClock (entries.map Prod.snd) ∧
        ∀ t, own t entries = (s.thread t).done.filterMap (logged 0) := by
  have ran : ∃ events s,
      Library.run (step FileSystem.noClock) (oneLine true ++ oneLine false) twoLoggers = some (events, s) ∧
        s.inside true = none ∧ s.inside false = none := ⟨_, _, rfl, rfl, rfl⟩
  obtain ⟨events, s, ran, first, second⟩ := ran
  have free : ∀ t, s.inside t ≠ some (0, .exclusive) := by
    rintro (_ | _) inside
    · cases second.symm.trans inside
    · cases first.symm.trans inside
  have writes : ∀ t : Bool, ∀ call ∈ [AppenderCall.log 0 .info (FileSystem.message (if t then ['a'] else ['b']))],
      Writes call := by
    intro t call member
    cases List.mem_singleton.mp member
    trivial
  have plain : ∀ t : Bool, ∀ call ∈ [AppenderCall.log 0 .info (FileSystem.message (if t then ['a'] else ['b']))],
      ∀ entry ∈ logged 0 call, entry.2.Plain FileSystem.noClock := by
    intro t call member entry logs
    cases List.mem_singleton.mp member
    cases logs
    cases t with
    | false => exact ⟨by decide, by decide, by decide, by decide, by decide⟩
    | true => exact ⟨by decide, by decide, by decide, by decide, by decide⟩
  obtain ⟨entries, text, own, _⟩ := file_tells rfl rfl writes plain ran free
  exact ⟨events, s, ran, entries, text, own⟩

end AppenderThreads

end Sylar
