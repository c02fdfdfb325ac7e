import Mathlib.Data.List.Basic
import Mathlib.Data.List.TakeWhile
import Mathlib.Data.Char

/-! Texts as lists of characters, with the few operations of a byte string
library that index loops use. Positions are natural numbers and slices clamp. -/
namespace Library

abbrev Text := List Char

/-- A property of all characters of a text is decided on the text, not by trying every
character there is. -/
instance (priority := 2000) Text.decidableAll (text : Text) (p : Char → Prop) [DecidablePred p] :
    Decidable (∀ c ∈ text, p c) :=
  List.decidableBAll p text

/-- `count` characters from position `start`, fewer at the end of the text. -/
def substr (text : Text) (start count : Nat) : Text := (text.drop start).take count

/-- The character at a position is the head of the suffix that starts there. -/
theorem getElem?_of_drop {text rest : Text} {position : Nat} {c : Char}
    (suffix : text.drop position = c :: rest) : text[position]? = some c := by
  have head := congrArg List.head? suffix
  simpa [List.head?_drop] using head

theorem getElem?_of_drop_nil {text : Text} {position : Nat}
    (suffix : text.drop position = []) : text[position]? = none := by
  simpa [List.drop_eq_nil_iff] using suffix

theorem drop_succ_of_drop {text rest : Text} {position : Nat} {c : Char}
    (suffix : text.drop position = c :: rest) : text.drop (position + 1) = rest := by
  rw [← List.drop_drop, suffix]
  rfl

theorem drop_add_of_drop {text front rest : Text} {position : Nat}
    (suffix : text.drop position = front ++ rest) :
    text.drop (position + front.length) = rest := by
  rw [← List.drop_drop, suffix, List.drop_left]

theorem length_of_drop {text rest : Text} {position : Nat}
    (suffix : text.drop position = rest) (inside : position ≤ text.length) :
    text.length = position + rest.length := by
  have := congrArg List.length suffix
  simp at this
  omega

theorem substr_of_drop {text front rest : Text} {position : Nat}
    (suffix : text.drop position = front ++ rest) :
    substr text position front.length = front := by
  simp [substr, suffix]

/-- The prefix before the first character that fails a test, and the rest. -/
theorem takeWhile_append_stop (test : Char → Bool) (front rest : Text)
    (all : ∀ c ∈ front, test c = true) (stop : ∀ c ∈ rest.head?, test c = false) :
    (front ++ rest).takeWhile test = front ∧ (front ++ rest).dropWhile test = rest := by
  induction front with
  | nil =>
    cases rest with
    | nil => simp
    | cons c rest => simp [stop c (by simp)]
  | cons c front ih =>
    have first := all c (by simp)
    have tail := ih (fun d member => all d (by simp [member]))
    simp [first, tail]

end Library
