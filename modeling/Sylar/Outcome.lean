import Mathlib.Data.List.Basic

/-! How calls end. -/
namespace Sylar

/-- Only `std::exception` is caught by `fromString`. -/
inductive Exn where
  | standard
  | other
  deriving DecidableEq, Repr

/-- Of two computations in a row neither has thrown if both together have not. -/
theorem bind_eq_ok {x : Except Exn α} {f : α → Except Exn β} {result : β} :
    (x >>= f) = .ok result ↔ ∃ a, x = .ok a ∧ f a = .ok result := by
  cases x with
  | error e => simp [bind, Except.bind]
  | ok a => simp [bind, Except.bind]

/-- How a call ends: it returns, throws, or dereferences a null pointer. -/
inductive Outcome (α : Type u) (W : Type v) where
  | returns (value : α) (world : W)
  | throws (exn : Exn) (world : W)
  | crashes

/-- The rest of the program after a call that did not crash. -/
def Outcome.world? : Outcome α W → Option W
  | .returns _ world | .throws _ world => some world
  | .crashes => none

end Sylar
