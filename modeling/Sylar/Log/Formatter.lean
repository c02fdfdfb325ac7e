import Sylar.Log.Level

/-! `LogFormatter`: the pattern parser of `init` as the two index loops of the
source, the item table, and formatting of an event. What `localtime_r` and
`strftime` make of a conversion specification depends on the machine's time zone
and locale, so it is a parameter; copying of ordinary characters, `%%` and the
64-byte buffer are not. -/
namespace Sylar

open Library

/-- The fields of an event that format items read. The logger of an event
contributes its name only, which never changes. -/
structure LogEvent where
  file : Text
  line : Int32
  elapse : UInt32
  threadId : UInt32
  fiberId : UInt32
  time : UInt64
  threadName : Text
  content : Text
  loggerName : Text
  deriving DecidableEq, Repr

/-- `conversion` is the expansion of a specification (the text after its `%`) at a
time; `overflow` is what the buffer holds when the result does not fit, which the
standard leaves indeterminate. -/
structure Clock where
  conversion : Text → UInt64 → Text
  overflow : Text → UInt64 → Text

/-- Flags, widths and the modifiers that stand between `%` and the conversion. -/
def isModifier (c : Char) : Bool :=
  c.isDigit || c == 'E' || c == 'O' || c == '_' || c == '-' || c == '^' || c == '#' || c == '+'

/-- The expansion of a format; `pending` holds an unfinished specification. The
format is a C string, so it ends at the first null character. -/
def Clock.expand (clock : Clock) (time : UInt64) : Option Text → Text → Text
  | none, [] => []
  | some spec, [] => clock.conversion spec time
  | none, c :: rest =>
    if c = '\x00' then []
    else if c = '%' then clock.expand time (some []) rest
    else c :: clock.expand time none rest
  | some spec, c :: rest =>
    if c = '\x00' then clock.conversion spec time
    else if isModifier c then clock.expand time (some (spec ++ [c])) rest
    else if c = '%' ∧ spec = [] then '%' :: clock.expand time none rest
    else clock.conversion (spec ++ [c]) time ++ clock.expand time none rest

/-- The text in `char buf[64]` after `strftime(buf, sizeof(buf), format, &tm)`. -/
def Clock.strftime (clock : Clock) (format : Text) (time : UInt64) : Text :=
  let text := clock.expand time none format
  if text.length < 64 then text else clock.overflow format time

/-- The `FormatItem` classes. All but two drop their constructor's argument. -/
inductive FormatItem where
  | message
  | level
  | elapse
  | name
  | threadId
  | fiberId
  | threadName
  | dateTime (format : Text)
  | filename
  | line
  | newLine
  | string (str : Text)
  | tab
  deriving DecidableEq, Repr

def defaultDateTime : Text := "%Y-%m-%d %H:%M:%S".toList

/-- `DateTimeFormatItem(format)`: an empty format means the default one. -/
def dateTimeFormatItem (format : Text) : FormatItem :=
  .dateTime (if format.isEmpty then defaultDateTime else format)

def decimal (n : Nat) : Text := Nat.toDigits 10 n

def decimalInt (n : Int) : Text :=
  if n < 0 then '-' :: decimal n.natAbs else decimal n.natAbs

/-- `format` of each item class, as the text it writes. -/
def FormatItem.format (clock : Clock) (level : LogLevel) (event : LogEvent) : FormatItem → Text
  | .message => event.content
  | .level => level.toString
  | .elapse => decimal event.elapse.toNat
  | .name => event.loggerName
  | .threadId => decimal event.threadId.toNat
  | .fiberId => decimal event.fiberId.toNat
  | .threadName => event.threadName
  | .dateTime format => clock.strftime format event.time
  | .filename => event.file
  | .line => decimalInt event.line.toInt
  | .newLine => ['\n']
  | .string str => str
  | .tab => ['\t']

/-- `s_format_items`: the item that each directive name builds from its format. -/
def formatItems : List (Text × (Text → FormatItem)) :=
  [(['m'], fun _ => .message),
   (['p'], fun _ => .level),
   (['r'], fun _ => .elapse),
   (['c'], fun _ => .name),
   (['t'], fun _ => .threadId),
   (['n'], fun _ => .newLine),
   (['d'], dateTimeFormatItem),
   (['f'], fun _ => .filename),
   (['l'], fun _ => .line),
   (['T'], fun _ => .tab),
   (['F'], fun _ => .fiberId),
   (['N'], fun _ => .threadName)]

/-- An entry of `vec`: text and format, with type 0 for text and 1 for a directive. -/
structure Token where
  str : Text
  fmt : Text
  type : Nat
  deriving DecidableEq, Repr

/-- The locals of the inner loop of `init`. -/
structure Scan where
  n : Nat
  fmtStatus : Nat
  fmtBegin : Nat
  str : Text
  fmt : Text
  deriving DecidableEq, Repr

/-- The inner loop of `init` for the directive that starts at `i`. -/
def scan (pattern : Text) (i : Nat) : Nat → Scan → Scan
  | 0, s => s
  | fuel + 1, s =>
    match pattern[s.n]? with
    | none => s
    | some c =>
      if s.fmtStatus = 0 ∧ c.isAlpha = false ∧ c ≠ '{' ∧ c ≠ '}' then
        { s with str := substr pattern (i + 1) (s.n - i - 1) }
      else if s.fmtStatus = 0 ∧ c = '{' then
        scan pattern i fuel { s with
          str := substr pattern (i + 1) (s.n - i - 1), fmtStatus := 1, fmtBegin := s.n, n := s.n + 1 }
      else if s.fmtStatus = 1 ∧ c = '}' then
        { s with
          fmt := substr pattern (s.fmtBegin + 1) (s.n - s.fmtBegin - 1), fmtStatus := 0, n := s.n + 1 }
      else if s.n + 1 = pattern.length ∧ s.str.isEmpty then
        scan pattern i fuel { s with n := s.n + 1, str := pattern.drop (i + 1) }
      else scan pattern i fuel { s with n := s.n + 1 }

/-- The locals of the outer loop of `init`, with `m_error`. -/
structure Parse where
  i : Nat
  nstr : Text
  vec : List Token
  error : Bool
  deriving DecidableEq, Repr

/-- `if (!nstr.empty()) vec.push_back((nstr, "", 0))`. -/
def flush (nstr : Text) : List Token := if nstr.isEmpty then [] else [⟨nstr, [], 0⟩]

/-- The outer loop of `init`. An escaped `%` advances by one position only, so
the second character of the pair is read again by the next iteration. -/
def parse (pattern : Text) : Nat → Parse → Parse
  | 0, s => s
  | fuel + 1, s =>
    match pattern[s.i]? with
    | none => s
    | some c =>
      if c ≠ '%' then parse pattern fuel { s with nstr := s.nstr ++ [c], i := s.i + 1 }
      else if pattern[s.i + 1]? = some '%' then
        parse pattern fuel { s with nstr := s.nstr ++ ['%'], i := s.i + 1 }
      else
        let r := scan pattern s.i pattern.length ⟨s.i + 1, 0, 0, [], []⟩
        if r.fmtStatus = 0 then
          parse pattern fuel { s with
            nstr := [], vec := s.vec ++ flush s.nstr ++ [⟨r.str, r.fmt, 1⟩], i := r.n - 1 + 1 }
        else
          parse pattern fuel { s with
            vec := s.vec ++ [⟨"<<pattern_error>>".toList, r.fmt, 0⟩], error := true, i := s.i + 1 }

/-- The two parse loops of `init` and the final flush: `vec` and `m_error`. -/
def parseTokens (pattern : Text) : List Token × Bool :=
  let s := parse pattern pattern.length ⟨0, [], [], false⟩
  (s.vec ++ flush s.nstr, s.error)

/-- The item of a token, and whether its name is unknown. -/
def Token.build (token : Token) : FormatItem × Bool :=
  if token.type = 0 then (.string token.str, false)
  else match formatItems.lookup token.str with
    | none => (.string ("<<error_format %".toList ++ token.str ++ ">>".toList), true)
    | some make => (make token.fmt, false)

@[simp] theorem Token.build_text (str fmt : Text) :
    Token.build ⟨str, fmt, 0⟩ = (.string str, false) := rfl

/-- `LogFormatter::init`: the items and the error flag of a pattern. -/
def init (pattern : Text) : List FormatItem × Bool :=
  let parsed := parseTokens pattern
  let built := parsed.1.map Token.build
  (built.map Prod.fst, parsed.2 || built.any Prod.snd)

/-- A formatter never changes after its constructor, which runs `init`. -/
structure LogFormatter where
  pattern : Text
  items : List FormatItem
  error : Bool
  built : init pattern = (items, error)

namespace LogFormatter

/-- `LogFormatter::LogFormatter(pattern)`. -/
def create (pattern : Text) : LogFormatter := ⟨pattern, (init pattern).1, (init pattern).2, rfl⟩

def isError (formatter : LogFormatter) : Bool := formatter.error

def getPattern (formatter : LogFormatter) : Text := formatter.pattern

/-- The text that both `format` overloads write. -/
def format (clock : Clock) (level : LogLevel) (event : LogEvent) (formatter : LogFormatter) : Text :=
  formatter.items.flatMap (FormatItem.format clock level event)

/-- The pattern determines a formatter. -/
theorem ext_pattern {a b : LogFormatter} (same : a.pattern = b.pattern) : a = b := by
  cases a with
  | mk pattern items error built =>
    cases b with
    | mk pattern' items' error' built' =>
      cases same
      cases built.symm.trans built'
      rfl

instance : DecidableEq LogFormatter := fun a b =>
  decidable_of_iff (a.pattern = b.pattern) ⟨ext_pattern, congrArg pattern⟩

end LogFormatter

/-- The pattern of a new logger. -/
def defaultPattern : Text :=
  "%d\x7b%Y-%m-%d %H:%M:%S\x7d%T%t%T%N%T%F%T[%p]%T[%c]%T%f:%l%T%m%n".toList

example : (LogFormatter.create defaultPattern).isError = false := by decide

end Sylar
