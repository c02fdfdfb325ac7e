import Mathlib.Data.List.Lex
import Sylar.Library.Table
import Sylar.Log.Level

/-! The values of the `logs` variable: definitions of loggers and of their
appenders, with the comparisons that decide what a change of the variable is. -/
namespace Sylar

open Library

/-- `type` is 1 for a file appender and 2 for a console appender. -/
structure LogAppenderDefine where
  type : Int
  level : LogLevel
  formatter : Text
  file : Text
  deriving DecidableEq, Repr

/-- `LogAppenderDefine::operator==` compares all fields. -/
def LogAppenderDefine.equals (a oth : LogAppenderDefine) : Bool :=
  a.type == oth.type && a.level == oth.level && a.formatter == oth.formatter && a.file == oth.file

instance : BEq LogAppenderDefine := ⟨LogAppenderDefine.equals⟩

theorem LogAppenderDefine.equals_iff (a b : LogAppenderDefine) : (a == b) = true ↔ a = b := by
  change a.equals b = true ↔ a = b
  cases a
  cases b
  simp [equals, and_assoc]

instance : LawfulBEq LogAppenderDefine where
  eq_of_beq := (LogAppenderDefine.equals_iff _ _).mp
  rfl := (LogAppenderDefine.equals_iff _ _).mpr rfl

structure LogDefine where
  name : Text
  level : LogLevel
  formatter : Text
  appenders : List LogAppenderDefine
  deriving DecidableEq, Repr

/-- `LogDefine::operator==`; its last comparison is of `appenders` with itself. -/
def LogDefine.equals (a oth : LogDefine) : Bool :=
  a.name == oth.name && a.level == oth.level && a.formatter == oth.formatter &&
    a.appenders == a.appenders

instance : BEq LogDefine := ⟨LogDefine.equals⟩

/-- What the comparison sees of two definitions. -/
theorem LogDefine.equals_iff (a b : LogDefine) :
    (a == b) = true ↔ a.name = b.name ∧ a.level = b.level ∧ a.formatter = b.formatter := by
  change a.equals b = true ↔ _
  simp [equals, and_assoc]

/-- `std::set<LogDefine>`: `operator<` compares the names. -/
abbrev LogDefines := Table LogDefine.name

/-- Equality of two sets: of their sizes, and of their elements in order. -/
instance : BEq LogDefines := ⟨fun a b => a.entries == b.entries⟩

end Sylar
