import Sylar.Config.Load

/-! Upper and lower case in the keys of a document. `LoadFromYaml` lower-cases a path
before it looks it up, and `ListAllMember` has judged the path before that. -/
namespace Sylar

open Library Yaml

def lower (text : Text) : Text := text.map Char.toLower

theorem lower_eq_nil {text : Text} : lower text = [] ↔ text = [] := List.map_eq_nil_iff

theorem lower_memberName (pre key : Text) : lower (memberName pre key) = memberName (lower pre) (lower key) := by
  unfold memberName
  by_cases first : pre = []
  · rw [if_pos first, if_pos (lower_eq_nil.mpr first)]
  · rw [if_neg first, if_neg (mt lower_eq_nil.mp first)]
    have dot : Char.toLower '.' = '.' := by decide
    rw [lower, List.map_append, List.map_cons, dot]
    rfl

/-- A key with its letters in lower case. -/
def lowerScalar : Node → Node
  | .scalar text => .scalar (lower text)
  | key => key

mutual
/-- The document with all keys of its maps in lower case. -/
def lowerKeys : Node → Node
  | .map pairs => .map (lowerPairs pairs)
  | .sequence items => .sequence (lowerItems items)
  | .scalar text => .scalar text
  | .null => .null

def lowerItems : List Node → List Node
  | [] => []
  | item :: rest => lowerKeys item :: lowerItems rest

/-- A key that is no scalar may hold maps itself. -/
def lowerPairs : List (Node × Node) → List (Node × Node)
  | [] => []
  | (key, value) :: rest => (lowerScalar (lowerKeys key), lowerKeys value) :: lowerPairs rest
end

theorem scalarText_lowerKey (key : Node) :
    (lowerScalar (lowerKeys key)).scalarText = lower key.scalarText := by
  cases key <;> rfl

theorem members_lowerKeys (node : Node) : (lowerKeys node).members = lowerPairs node.members := by
  cases node <;> simp [lowerKeys, Node.members, lowerPairs]

/-- The visit of the same node in the document with lower-cased keys. -/
def Visit.lowered (visit : Visit) : Visit :=
  ⟨lower visit.path, visit.above.map lower, lowerKeys visit.node⟩

mutual
/-- Lower-casing the keys moves every node to its lower-cased path. -/
theorem preorder_lowerKeys (path : Text) (above : List Text) (node : Node) :
    preorder (lower path) (above.map lower) (lowerKeys node) =
      (preorder path above node).map Visit.lowered := by
  rw [preorder_def, preorder_def path, List.map_cons, members_lowerKeys]
  cases node with
  | map pairs =>
    have below := preorderPairs_lowerPairs path (path :: above) pairs
    rw [Node.members, ← below]
    rfl
  | null | scalar | sequence => rfl

theorem preorderPairs_lowerPairs (path : Text) (above : List Text) (pairs : List (Node × Node)) :
    preorderPairs (lower path) (above.map lower) (lowerPairs pairs) =
      (preorderPairs path above pairs).map Visit.lowered := by
  cases pairs with
  | nil => rfl
  | cons pair rest =>
    obtain ⟨key, value⟩ := pair
    rw [lowerPairs, preorderPairs, preorderPairs, List.map_append, scalarText_lowerKey, ← lower_memberName]
    rw [preorder_lowerKeys (memberName path key.scalarText) above value]
    rw [preorderPairs_lowerPairs path above rest]
end

theorem Visit.Valid.lower_path {visit : Visit} (valid : visit.Valid) : lower visit.path = visit.path :=
  (valid visit.path List.mem_cons_self).lower

/-- A valid path has no letter to lower. -/
theorem Visit.Valid.lowered {visit : Visit} (valid : visit.Valid) : visit.lowered.Valid := by
  have same : ∀ path ∈ visit.path :: visit.above, lower path = path := by
    intro path member
    exact (valid path member).lower
  intro path member
  obtain ⟨before, inside, rfl⟩ : ∃ before ∈ visit.path :: visit.above, lower before = path := by
    change path ∈ (visit.path :: visit.above).map lower at member
    exact List.mem_map.mp member
  rw [same before inside]
  exact valid before inside

section Loads

variable {W : Type v} (emit : Node → Text)

/-- The second loop on names and texts, both taken from the entries before. -/
def loadTexts : List (Text × Text) → ConfigVarMap W → W → ConfigVarMap W × Outcome Unit W
  | [], datas, world => (datas, .returns () world)
  | (name, text) :: rest, datas, world =>
    match datas.find? name with
    | none => loadTexts rest datas world
    | some v =>
      match v.fromString text world with
      | (v', .returns _ next) => loadTexts rest (datas.put v') next
      | (v', .throws exn next) => (datas.put v', .throws exn next)
      | (v', .crashes) => (datas.put v', .crashes)

/-- The registry has variables of these names and no others. -/
def NamesOf (names : List Text) (datas : ConfigVarMap W) : Prop :=
  ∀ name, (∃ base, datas.find? name = some base) ↔ name ∈ names

/-- What the entries give to variables of these names. -/
def assigned (names : List Text) (nodes : List (Text × Node)) : List (Text × Text) :=
  (nodes.filter fun entry => entry.1 ≠ [] ∧ entry.1 ∈ names).map fun entry => (entry.1, nodeText emit entry.2)

variable {emit}

theorem NamesOf.absent {names : List Text} {datas : ConfigVarMap W} (names_of : NamesOf names datas)
    {name : Text} (absent : name ∉ names) : datas.find? name = none := by
  apply Option.eq_none_iff_forall_not_mem.mpr
  intro base found
  exact absent ((names_of name).mp ⟨base, found⟩)

/-- A value does not change the names. -/
theorem NamesOf.put {names : List Text} {datas : ConfigVarMap W} (names_of : NamesOf names datas)
    {name : Text} {base after : ConfigVarBase W} (found : datas.find? name = some base)
    (same : after.getName = name) : NamesOf names (datas.put after) := by
  intro other
  rw [← names_of other, Table.find?_put, same]
  split_ifs with here
  · rw [← here, found]
    simp
  · rfl

/-- Entries without a variable of their name leave no trace. -/
theorem loadNodes_assigned {names : List Text} (nodes : List (Text × Node))
    (valid : ∀ entry ∈ nodes, ValidName entry.1) (datas : ConfigVarMap W) (world : W)
    (names_of : NamesOf names datas) :
    loadNodes emit nodes datas world = loadTexts (assigned emit names nodes) datas world := by
  induction nodes generalizing datas world with
  | nil => rfl
  | cons entry rest ih =>
    obtain ⟨key, node⟩ := entry
    obtain ⟨validKey, validRest⟩ := List.forall_mem_cons.mp valid
    have lowered : key.map Char.toLower = key := ValidName.lower validKey
    by_cases empty : key = []
    · have skipped : assigned emit names ((key, node) :: rest) = assigned emit names rest := by
        simp [assigned, empty]
      rw [skipped, ← ih validRest datas world names_of, loadNodes, if_pos empty]
    by_cases inside : key ∈ names
    · have given : assigned emit names ((key, node) :: rest) =
          (key, nodeText emit node) :: assigned emit names rest := by
        simp [assigned, empty, inside]
      obtain ⟨base, found⟩ := (names_of key).mpr inside
      have same := base.fromString_getName (nodeText emit node) world
      rw [((Table.find?_eq_some_iff _ _ _).mp found).2] at same
      rw [given, loadNodes, if_neg empty, lowered, loadTexts, found]
      dsimp only
      cases called : base.fromString (nodeText emit node) world with
      | mk after outcome =>
        rw [called] at same
        cases outcome with
        | returns value next => exact ih validRest _ next (names_of.put found same)
        | throws | crashes => rfl
    · have skipped : assigned emit names ((key, node) :: rest) = assigned emit names rest := by
        simp [assigned, inside]
      rw [skipped, ← ih validRest datas world names_of, loadNodes, if_neg empty, lowered,
        names_of.absent inside]

/-- A load is what its flattened entries assign. -/
theorem loadFromYaml_assigned {names : List Text} (root : Node) (datas : ConfigVarMap W) (world : W)
    (names_of : NamesOf names datas) :
    loadFromYaml emit root datas world = loadTexts (assigned emit names (listAllMember [] root)) datas world :=
  loadNodes_assigned _ (valid_listAllMember root) datas world names_of

end Loads

section Assigned

variable (emit : Node → Text) (names : List Text) (root : Node)

/-- The node is flattened and its path is one of the names. -/
def Visit.Assigns (visit : Visit) : Prop := visit.Valid ∧ visit.path ≠ [] ∧ visit.path ∈ names

instance (visit : Visit) : Decidable (visit.Assigns names) :=
  inferInstanceAs (Decidable (_ ∧ _ ∧ _))

/-- The name and the text that a node assigns. -/
def Visit.assignment (visit : Visit) : Text × Text := (visit.path, nodeText emit visit.node)

theorem assigned_listAllMember :
    assigned emit names (listAllMember [] root) =
      ((preorder [] [] root).filter fun visit => visit.Assigns names).map (Visit.assignment emit) := by
  rw [listAllMember_eq [] [] (by simp) root, assigned, List.filter_map, List.map_map, List.filter_filter]
  have same : ∀ visit ∈ preorder [] [] root,
      (((fun entry : Text × Node => decide (entry.1 ≠ [] ∧ entry.1 ∈ names)) ∘ Visit.entry) visit &&
        decide visit.Valid) = decide (visit.Assigns names) := by
    intro visit _
    rw [Bool.eq_iff_iff]
    simp only [Function.comp_apply, Bool.and_eq_true, decide_eq_true_eq]
    exact and_comm
  rw [List.filter_congr same]
  rfl

/-- The lower-cased document, in terms of the nodes of the document itself. -/
theorem assigned_lowerKeys :
    assigned emit names (listAllMember [] (lowerKeys root)) =
      ((preorder [] [] root).filter fun visit => visit.lowered.Assigns names).map
        fun visit => visit.lowered.assignment emit := by
  have moved : preorder [] [] (lowerKeys root) = (preorder [] [] root).map Visit.lowered :=
    preorder_lowerKeys [] [] root
  rw [assigned_listAllMember, moved, List.filter_map, List.map_map]
  rfl

/-- Lower-casing the keys brings no node to a name that was not there before, and
changes no text that a name is given. -/
def KeysAgree : Prop :=
  ∀ visit ∈ preorder [] [] root, visit.lowered.Assigns names →
    visit.Valid ∧ nodeText emit visit.node = nodeText emit (lowerKeys visit.node)

theorem Visit.Valid.assigns_lowered {visit : Visit} (valid : visit.Valid) :
    visit.lowered.Assigns names ↔ visit.Assigns names := by
  have same : visit.lowered.path = visit.path := valid.lower_path
  rw [Visit.Assigns, Visit.Assigns, same]
  exact and_congr_left fun _ => ⟨fun _ => valid, fun _ => valid.lowered⟩

variable {emit names root}

theorem KeysAgree.assigned (agree : KeysAgree emit names root) :
    assigned emit names (listAllMember [] root) = assigned emit names (listAllMember [] (lowerKeys root)) := by
  rw [assigned_listAllMember, assigned_lowerKeys]
  have same : ∀ visit ∈ preorder [] [] root,
      decide (visit.Assigns names) = decide (visit.lowered.Assigns names) := by
    intro visit member
    apply decide_eq_decide.mpr
    constructor
    · intro assigns
      exact (assigns.1.assigns_lowered names).mpr assigns
    · intro lowered
      exact ((agree visit member lowered).1.assigns_lowered names).mp lowered
  rw [List.filter_congr same]
  apply List.map_congr_left
  intro visit inside
  obtain ⟨member, assigns⟩ := List.mem_filter.mp inside
  obtain ⟨valid, text⟩ := agree visit member (by simpa using assigns)
  rw [Visit.assignment, Visit.assignment, text]
  exact Prod.ext valid.lower_path.symm rfl

end Assigned

end Sylar
