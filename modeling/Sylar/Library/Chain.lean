import Mathlib.Data.List.Chain

/-! Histories of replacements as lists of (old, new) pairs. -/
namespace Library

/-- Consecutive replacements lead from the first value to the last. -/
def Linked : α → List (α × α) → α → Prop
  | start, [], finish => start = finish
  | start, (old, new) :: rest, finish => old = start ∧ Linked new rest finish

theorem linked_append {start middle finish : α} {front back : List (α × α)}
    (first : Linked start front middle) (last : Linked middle back finish) :
    Linked start (front ++ back) finish := by
  induction front generalizing start with
  | nil =>
    cases first
    exact last
  | cons pair front ih => exact ⟨first.1, ih first.2⟩

theorem linked_singleton (old new : α) : Linked old [(old, new)] new := ⟨rfl, rfl⟩

/-- Each old value is the new value before it. -/
def Chained (pairs : List (α × α)) : Prop := pairs.IsChain fun p q => p.2 = q.1

theorem Linked.chained {start finish : α} {pairs : List (α × α)} (linked : Linked start pairs finish) :
    Chained pairs := by
  induction pairs generalizing start with
  | nil => exact .nil
  | cons pair rest ih =>
    cases rest with
    | nil => exact .singleton pair
    | cons next rest => exact .cons_cons linked.2.1.symm (ih linked.2)

theorem Linked.last {start finish : α} {pairs : List (α × α)} (linked : Linked start pairs finish)
    {pair : α × α} (last : pairs.getLast? = some pair) : pair.2 = finish := by
  induction pairs generalizing start with
  | nil => cases last
  | cons first rest ih =>
    cases rest with
    | nil =>
      cases last
      exact linked.2
    | cons next rest => exact ih linked.2 (by simpa using last)

/-- Two adjacent pairs of a chained history. -/
theorem Chained.adjacent {front back : List (α × α)} {p q : α × α}
    (chained : Chained (front ++ p :: q :: back)) : p.2 = q.1 := by
  have tail := List.IsChain.right_of_append chained
  exact (List.isChain_cons_cons.mp tail).1

end Library
