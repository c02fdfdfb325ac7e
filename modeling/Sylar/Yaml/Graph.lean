import Sylar.Yaml

/-! YAML documents with aliases. Nodes refer to each other, so that one may be shared by
several others, or lie within itself. -/
namespace Sylar.Yaml

open Library

/-- A node that refers to the nodes of a document of `n` nodes. -/
inductive Kind (n : Nat) where
  | null
  | scalar (text : Text)
  | sequence (items : List (Fin n))
  | map (pairs : List (Fin n × Fin n))

structure Graph where
  size : Nat
  kind : Fin size → Kind size

namespace Graph

/-- `Scalar()`: empty for a node that is not a scalar. -/
def scalarText (g : Graph) (id : Fin g.size) : Text :=
  match g.kind id with
  | .scalar text => text
  | _ => []

/-- The trees of a list of nodes. -/
def trees (tree : α → Option Node) : List α → Option (List Node)
  | [] => some []
  | id :: rest => do
    let node ← tree id
    let nodes ← trees tree rest
    some (node :: nodes)

def pairTrees (tree : α → Option Node) : List (α × α) → Option (List (Node × Node))
  | [] => some []
  | (key, value) :: rest => do
    let key ← tree key
    let value ← tree value
    let pairs ← pairTrees tree rest
    some ((key, value) :: pairs)

/-- The tree that a node unfolds to, if it is not deeper than the fuel. -/
def tree (g : Graph) : Nat → Fin g.size → Option Node
  | 0, _ => none
  | fuel + 1, id =>
    match g.kind id with
    | .null => some .null
    | .scalar text => some (.scalar text)
    | .sequence items => (trees (g.tree fuel) items).map .sequence
    | .map pairs => (pairTrees (g.tree fuel) pairs).map .map

theorem pairTrees_cons {tree : α → Option Node} {key value : α} {rest : List (α × α)}
    {pairs : List (Node × Node)} (unfolded : pairTrees tree ((key, value) :: rest) = some pairs) :
    ∃ k v later, tree key = some k ∧ tree value = some v ∧ pairTrees tree rest = some later ∧
      pairs = (k, v) :: later := by
  simp only [pairTrees, bind, Option.bind_eq_some_iff] at unfolded
  obtain ⟨k, first, v, second, later, third, same⟩ := unfolded
  exact ⟨k, v, later, first, second, third, (Option.some.inj same).symm⟩

/-- A node's own text is that of its tree. -/
theorem scalarText_tree {g : Graph} {fuel : Nat} {id : Fin g.size} {node : Node}
    (unfolded : g.tree fuel id = some node) : node.scalarText = g.scalarText id := by
  cases fuel with
  | zero => cases unfolded
  | succ fuel =>
    unfold tree at unfolded
    unfold scalarText
    cases kind : g.kind id with
    | null | scalar =>
      rw [kind] at unfolded
      cases unfolded
      rfl
    | sequence items | map pairs =>
      rw [kind] at unfolded
      obtain ⟨_, _, rfl⟩ := Option.map_eq_some_iff.mp unfolded
      rfl

end Graph

end Sylar.Yaml
