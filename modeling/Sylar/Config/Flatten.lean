import Sylar.Config.Load
import Sylar.Library.Walk
import Sylar.Yaml.Graph

/-! `ListAllMember` on documents with aliases. It follows every child link, without a
record of the nodes above, and stops at leaves and at prefixes that are not valid. -/
namespace Sylar

open Library Yaml

namespace Yaml.Graph

variable (g : Graph)

/-- The loop over the members of a map, for a given recursive call. -/
def listPairs (call : Text → Fin g.size → Option (List (Text × Fin g.size))) (pre : Text) :
    List (Fin g.size × Fin g.size) → Option (List (Text × Fin g.size))
  | [] => some []
  | (key, value) :: rest => do
    let here ← call (memberName pre (g.scalarText key)) value
    let later ← listPairs call pre rest
    some (here ++ later)

/-- `ListAllMember`, not deeper than the fuel. -/
def listAllMember : Nat → Text → Fin g.size → Option (List (Text × Fin g.size))
  | 0, _, _ => none
  | fuel + 1, pre, id =>
    if ValidName pre then
      match g.kind id with
      | .map pairs => (g.listPairs (listAllMember fuel) pre pairs).map ((pre, id) :: ·)
      | _ => some [(pre, id)]
    else some []

/-- The second node is the value of a key of the first, and the key has a valid name. -/
def Member (a b : Fin g.size) : Prop :=
  ∃ pairs key, g.kind a = .map pairs ∧ (key, b) ∈ pairs ∧ ValidName (g.scalarText key)

variable {g}

/-- The loop ends exactly if all of its calls do. -/
theorem listPairs_ends_iff (call : Text → Fin g.size → Option (List (Text × Fin g.size))) (pre : Text)
    (pairs : List (Fin g.size × Fin g.size)) :
    (∃ out, g.listPairs call pre pairs = some out) ↔
      ∀ pair ∈ pairs, ∃ out, call (memberName pre (g.scalarText pair.1)) pair.2 = some out := by
  induction pairs with
  | nil => simp [listPairs]
  | cons pair rest ih =>
    obtain ⟨key, value⟩ := pair
    rw [List.forall_mem_cons, ← ih]
    constructor
    · rintro ⟨out, ended⟩
      simp only [listPairs, bind, Option.bind_eq_some_iff] at ended
      obtain ⟨here, first, later, second, _⟩ := ended
      exact ⟨⟨here, first⟩, later, second⟩
    · rintro ⟨⟨here, first⟩, later, second⟩
      exact ⟨here ++ later, by simp [listPairs, first, second]⟩

/-- Under a valid prefix a name is valid exactly if its last part is. -/
theorem validName_memberName {pre : Text} (valid : ValidName pre) (key : Text) :
    ValidName (memberName pre key) ↔ ValidName key := by
  unfold memberName
  split_ifs with first
  · rfl
  · have dot : '.' ∈ nameChars := by decide
    unfold ValidName
    simp only [List.mem_append, List.mem_cons]
    constructor
    · intro all c member
      exact all c (.inr (.inr member))
    · rintro all c (member | rfl | member)
      · exact valid c member
      · exact dot
      · exact all c member

/-- All that a call does, for a given fuel below it. -/
theorem listAllMember_ends_iff (fuel : Nat) {pre : Text} (valid : ValidName pre) (id : Fin g.size) :
    (∃ out, g.listAllMember (fuel + 1) pre id = some out) ↔
      ∀ pairs, g.kind id = .map pairs → ∀ pair ∈ pairs,
        ∃ out, g.listAllMember fuel (memberName pre (g.scalarText pair.1)) pair.2 = some out := by
  rw [listAllMember, if_pos valid]
  cases kind : g.kind id with
  | map pairs =>
    simp only [Option.map_eq_some_iff, Kind.map.injEq, forall_eq', ← listPairs_ends_iff]
    constructor
    · rintro ⟨_, out, ended, _⟩
      exact ⟨out, ended⟩
    · rintro ⟨out, ended⟩
      exact ⟨_, out, ended, rfl⟩
  | null | scalar | sequence => simp

theorem listAllMember_invalid (fuel : Nat) {pre : Text} (invalid : ¬ ValidName pre) (id : Fin g.size) :
    g.listAllMember (fuel + 1) pre id = some [] := by
  rw [listAllMember, if_neg invalid]

/-- A call that ends takes no walk along members that does not. -/
theorem acc_of_ends (fuel : Nat) {pre : Text} (valid : ValidName pre) (id : Fin g.size)
    (ends : ∃ out, g.listAllMember fuel pre id = some out) : Acc (fun b a => g.Member a b) id := by
  induction fuel generalizing pre id with
  | zero =>
    obtain ⟨out, ended⟩ := ends
    cases ended
  | succ fuel ih =>
    constructor
    rintro value ⟨pairs, key, kind, member, validKey⟩
    have below := (listAllMember_ends_iff fuel valid id).mp ends pairs kind (key, value) member
    exact ih ((validName_memberName valid _).mpr validKey) value below

/-- More fuel does not keep a call from ending. -/
theorem ends_more {fuel more : Nat} (enough : fuel ≤ more) {pre : Text} {id : Fin g.size}
    (ends : ∃ out, g.listAllMember fuel pre id = some out) :
    ∃ out, g.listAllMember more pre id = some out := by
  induction fuel generalizing more pre id with
  | zero =>
    obtain ⟨out, ended⟩ := ends
    cases ended
  | succ fuel ih =>
    obtain ⟨more, rfl⟩ : ∃ k, more = k + 1 := ⟨more - 1, by omega⟩
    by_cases valid : ValidName pre
    · have below := (listAllMember_ends_iff fuel valid id).mp ends
      apply (listAllMember_ends_iff more valid id).mpr
      intro pairs kind pair member
      exact ih (by omega) (below pairs kind pair member)
    · exact ⟨[], listAllMember_invalid more valid id⟩

/-- One fuel for all the calls of a loop. -/
theorem common_fuel {pre : Text} (pairs : List (Fin g.size × Fin g.size))
    (each : ∀ pair ∈ pairs, ∃ fuel out,
      g.listAllMember fuel (memberName pre (g.scalarText pair.1)) pair.2 = some out) :
    ∃ fuel, ∀ pair ∈ pairs, ∃ out,
      g.listAllMember fuel (memberName pre (g.scalarText pair.1)) pair.2 = some out := by
  induction pairs with
  | nil => exact ⟨0, by simp⟩
  | cons pair rest ih =>
    obtain ⟨⟨first, here⟩, later⟩ := List.forall_mem_cons.mp each
    obtain ⟨second, rest_end⟩ := ih later
    refine ⟨max first second, ?_⟩
    intro other member
    rcases List.mem_cons.mp member with rfl | member
    · exact ends_more (Nat.le_max_left first second) here
    · exact ends_more (Nat.le_max_right first second) (rest_end other member)

theorem ends_of_acc {id : Fin g.size} (acc : Acc (fun b a => g.Member a b) id) {pre : Text}
    (valid : ValidName pre) : ∃ fuel out, g.listAllMember fuel pre id = some out := by
  induction acc generalizing pre with
  | intro id _ ih =>
    suffices below : ∃ fuel, ∀ pairs, g.kind id = .map pairs → ∀ pair ∈ pairs, ∃ out,
        g.listAllMember fuel (memberName pre (g.scalarText pair.1)) pair.2 = some out by
      obtain ⟨fuel, below⟩ := below
      exact ⟨fuel + 1, (listAllMember_ends_iff fuel valid id).mpr below⟩
    cases kind : g.kind id with
    | null | scalar | sequence => exact ⟨0, by simp⟩
    | map pairs =>
      simp only [Kind.map.injEq, forall_eq']
      apply common_fuel
      rintro ⟨key, value⟩ member
      by_cases validKey : ValidName (g.scalarText key)
      · exact ih value ⟨pairs, key, kind, member, validKey⟩ ((validName_memberName valid _).mpr validKey)
      · have invalid : ¬ ValidName (memberName pre (g.scalarText key)) := fun valid' =>
          validKey ((validName_memberName valid _).mp valid')
        exact ⟨1, [], listAllMember_invalid 0 invalid value⟩

/-- An entry of a document and one of a tree: the same path, and a node that unfolds to
the other. -/
def Unfolds (g : Graph) (entry : Text × Fin g.size) (entry' : Text × Node) : Prop :=
  entry.1 = entry'.1 ∧ ∃ fuel, g.tree fuel entry.2 = some entry'.2

/-- The loop over the members of a map that unfolds. -/
theorem listPairs_tree {fuel : Nat} (pre : Text) {pairs : List (Fin g.size × Fin g.size)}
    {nodes : List (Node × Node)} (unfolded : pairTrees (g.tree fuel) pairs = some nodes)
    (calls : ∀ pre id node, g.tree fuel id = some node → ∃ out, g.listAllMember fuel pre id = some out ∧
      List.Forall₂ (Unfolds g) out (Sylar.listAllMember pre node)) :
    ∃ out, g.listPairs (g.listAllMember fuel) pre pairs = some out ∧
      List.Forall₂ (Unfolds g) out (Sylar.listPairs pre nodes) := by
  induction pairs generalizing nodes with
  | nil =>
    cases unfolded
    exact ⟨[], rfl, .nil⟩
  | cons pair rest ih =>
    obtain ⟨key, value⟩ := pair
    obtain ⟨k, v, later, first, second, third, rfl⟩ := pairTrees_cons unfolded
    obtain ⟨here, ended, same⟩ := calls (memberName pre (g.scalarText key)) value v second
    obtain ⟨after, ended', same'⟩ := ih third
    refine ⟨here ++ after, by simp [listPairs, ended, ended'], ?_⟩
    rw [Sylar.listPairs, scalarText_tree first]
    exact List.rel_append same same'

/-- On a document that unfolds to a tree the walk is the one over the tree. -/
theorem listAllMember_tree {fuel : Nat} {pre : Text} {id : Fin g.size} {node : Node}
    (unfolded : g.tree fuel id = some node) :
    ∃ out, g.listAllMember fuel pre id = some out ∧
      List.Forall₂ (Unfolds g) out (Sylar.listAllMember pre node) := by
  induction fuel generalizing pre id node with
  | zero => cases unfolded
  | succ fuel ih =>
    have self : Unfolds g (pre, id) (pre, node) := ⟨rfl, fuel + 1, unfolded⟩
    rw [listAllMember, listAllMember_def]
    split_ifs with valid
    · rw [tree] at unfolded
      cases kind : g.kind id with
      | null | scalar =>
        simp only [kind] at unfolded
        cases unfolded
        exact ⟨_, rfl, .cons self .nil⟩
      | sequence items =>
        simp only [kind] at unfolded
        obtain ⟨nodes, _, rfl⟩ := Option.map_eq_some_iff.mp unfolded
        exact ⟨_, rfl, .cons self .nil⟩
      | map pairs =>
        simp only [kind] at unfolded
        obtain ⟨nodes, below, rfl⟩ := Option.map_eq_some_iff.mp unfolded
        obtain ⟨out, ended, same⟩ := listPairs_tree pre below fun pre id node unfolded => ih unfolded
        exact ⟨_, by simp only [ended]; rfl, .cons self same⟩
    · exact ⟨[], rfl, .nil⟩

/-- The document `{&a x: *a}`. -/
def sharedScalar : Graph where
  size := 2
  kind id := if id = 0 then .scalar ['x'] else .map [(0, 0)]

theorem listAllMember_tree_shared :
    ∃ node out, sharedScalar.tree 2 (1 : Fin 2) = some node ∧
      sharedScalar.listAllMember 2 [] (1 : Fin 2) = some out ∧
      List.Forall₂ (Unfolds sharedScalar) out (Sylar.listAllMember [] node) := by
  obtain ⟨node, unfolded⟩ : ∃ node, sharedScalar.tree 2 (1 : Fin 2) = some node := ⟨_, rfl⟩
  obtain ⟨out, ended, same⟩ := listAllMember_tree unfolded
  exact ⟨node, out, unfolded, ended, same⟩

/-- Flattening ends exactly if no cycle can be reached through keys with valid names. -/
theorem flattening_ends_iff (g : Graph) (root : Fin g.size) :
    (∃ fuel out, g.listAllMember fuel [] root = some out) ↔ ¬ ReachesCycle g.Member root := by
  have empty : ValidName [] := by simp [ValidName]
  rw [← acc_iff_no_cycle]
  constructor
  · rintro ⟨fuel, ends⟩
    exact acc_of_ends fuel empty root ends
  · intro acc
    exact ends_of_acc acc empty

/-- The document `&a {x: *a}`. -/
def selfMap : Graph where
  size := 2
  kind id := if id = 0 then .scalar ['x'] else .map [(0, 1)]

/-- No depth is enough for a map that is its own member. -/
theorem flattening_never_ends : ¬ ∃ fuel out, selfMap.listAllMember fuel [] (1 : Fin 2) = some out := by
  have empty : ValidName [] := by simp [ValidName]
  have own : selfMap.Member (1 : Fin 2) (1 : Fin 2) :=
    ⟨[((0 : Fin 2), (1 : Fin 2))], (0 : Fin 2), rfl, List.mem_cons_self, by unfold ValidName; decide⟩
  have cycle : ReachesCycle selfMap.Member (1 : Fin 2) := ⟨(1 : Fin 2), .refl, .single own⟩
  rintro ⟨fuel, ends⟩
  exact (acc_iff_no_cycle _ _).mp (acc_of_ends fuel empty _ ends) cycle

end Yaml.Graph

end Sylar
