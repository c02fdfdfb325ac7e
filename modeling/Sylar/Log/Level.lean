import Sylar.Library.Text

/-! `LogLevel`: the six levels in the order of their numbers and their texts. -/
namespace Sylar

open Library

inductive LogLevel where
  | unknow
  | debug
  | info
  | warn
  | error
  | fatal
  deriving DecidableEq, Repr

/-- The enumerators' numbers; `level >= m_level` compares these. -/
def LogLevel.toNat : LogLevel → Nat
  | .unknow => 0
  | .debug => 1
  | .info => 2
  | .warn => 3
  | .error => 4
  | .fatal => 5

instance : LE LogLevel := ⟨fun a b => a.toNat ≤ b.toNat⟩

instance (a b : LogLevel) : Decidable (a ≤ b) := inferInstanceAs (Decidable (a.toNat ≤ b.toNat))

def LogLevel.toString : LogLevel → Text
  | .debug => "DEBUG".toList
  | .info => "INFO".toList
  | .warn => "WARN".toList
  | .error => "ERROR".toList
  | .fatal => "FATAL".toList
  | .unknow => "UNKNOW".toList

def LogLevel.fromString (str : Text) : LogLevel :=
  if str = "debug".toList then .debug
  else if str = "info".toList then .info
  else if str = "warn".toList then .warn
  else if str = "error".toList then .error
  else if str = "fatal".toList then .fatal
  else if str = "DEBUG".toList then .debug
  else if str = "INFO".toList then .info
  else if str = "WARN".toList then .warn
  else if str = "ERROR".toList then .error
  else if str = "FATAL".toList then .fatal
  else .unknow

/-- Reading a printed level gives it back; `UNKNOW` is what every other text reads as. -/
@[simp] theorem LogLevel.fromString_toString (level : LogLevel) :
    fromString level.toString = level := by
  cases level <;> decide

@[simp] theorem LogLevel.fromString_empty : fromString [] = .unknow := by decide

end Sylar
