import Mathlib.Data.List.Lex
import Sylar.Config.Var
import Sylar.Library.Settle
import Sylar.Yaml

/-! `Config::LoadFromYaml`: the tree is flattened into dotted paths and each path is
looked up among the registered variables. The reference semantics visits the whole
tree in pre-order and folds, for each variable, the conversions of its nodes. -/
namespace Sylar

open Library Yaml

/-- The characters of a valid name; the digit 9 is not among them. -/
def nameChars : List Char :=
  ['a', 'b', 'c', 'd', 'e', 'f', 'g', 'h', 'i', 'k', 'j', 'l', 'm', 'n', 'o', 'p', 'q', 'r', 's',
    't', 'u', 'v', 'w', 'x', 'y', 'z', '.', '_', '0', '1', '2', '3', '4', '5', '6', '7', '8']

/-- `find_first_not_of` finds nothing. -/
def ValidName (name : Text) : Prop := ∀ c ∈ name, c ∈ nameChars

instance (name : Text) : Decidable (ValidName name) :=
  Text.decidableAll name (· ∈ nameChars)

def memberName (pre key : Text) : Text := if pre = [] then key else pre ++ '.' :: key

mutual
/-- `ListAllMember`: a node under an invalid name is left out with all its members. -/
def listAllMember (pre : Text) (node : Node) : List (Text × Node) :=
  if ValidName pre then
    (pre, node) ::
      match node with
      | .map pairs => listPairs pre pairs
      | _ => []
  else []

/-- The loop over the members of a map. -/
def listPairs (pre : Text) : List (Node × Node) → List (Text × Node)
  | [] => []
  | (key, value) :: rest =>
    listAllMember (memberName pre key.scalarText) value ++ listPairs pre rest
end

/-- A variable behind its base class: the value type is hidden, its equality and its
conversion `FromStr` stay with it. -/
structure ConfigVarBase (W : Type v) where
  T : Type
  beq : BEq T
  fromStr : Text → Except Exn T
  var : ConfigVar T W

namespace ConfigVarBase

variable {W : Type v}

def getName (base : ConfigVarBase W) : Text := base.var.name

/-- The virtual `fromString`. -/
def fromString (text : Text) (base : ConfigVarBase W) (world : W) :
    ConfigVarBase W × Outcome Bool W :=
  letI := base.beq
  let (_, var, outcome) := base.var.fromString base.fromStr text world
  ({ base with var := var }, outcome)

theorem fromString_getName (base : ConfigVarBase W) (text : Text) (world : W) :
    (base.fromString text world).1.getName = base.getName :=
  letI := base.beq
  base.var.fromString_name base.fromStr text world

end ConfigVarBase

/-- A variable behind its base class. -/
def ConfigVar.base [equal : BEq T] (fromStr : Text → Except Exn T) (var : ConfigVar T W) : ConfigVarBase W :=
  ⟨T, equal, fromStr, var⟩

theorem ConfigVar.base_injective [BEq T] {fromStr : Text → Except Exn T} {var other : ConfigVar T W}
    (same : var.base fromStr = other.base fromStr) : var = other := by
  simpa [ConfigVar.base] using same

/-- `GetDatas()`: the registered variables by name. -/
abbrev ConfigVarMap (W : Type v) := Table (ConfigVarBase.getName : ConfigVarBase W → Text)

section Load

variable {W : Type v} (emit : Node → Text)

def nodeText : Node → Text
  | .scalar text => text
  | node => emit node

/-- The second loop, over the flattened nodes. -/
def loadNodes : List (Text × Node) → ConfigVarMap W → W → ConfigVarMap W × Outcome Unit W
  | [], datas, world => (datas, .returns () world)
  | (key, node) :: rest, datas, world =>
    if key = [] then loadNodes rest datas world
    else
      match datas.find? (key.map Char.toLower) with
      | none => loadNodes rest datas world
      | some v =>
        match v.fromString (nodeText emit node) world with
        | (v', .returns _ next) => loadNodes rest (datas.put v') next
        | (v', .throws exn next) => (datas.put v', .throws exn next)
        | (v', .crashes) => (datas.put v', .crashes)

def loadFromYaml (root : Node) (datas : ConfigVarMap W) (world : W) :
    ConfigVarMap W × Outcome Unit W :=
  loadNodes emit (listAllMember [] root) datas world

end Load

/-- A node of a tree with its path and the paths above it. -/
structure Visit where
  path : Text
  above : List Text
  node : Node

mutual
/-- All nodes of a tree, valid or not, a parent before its members. -/
def preorder (path : Text) (above : List Text) (node : Node) : List Visit :=
  ⟨path, above, node⟩ ::
    match node with
    | .map pairs => preorderPairs path (path :: above) pairs
    | _ => []

def preorderPairs (path : Text) (above : List Text) : List (Node × Node) → List Visit
  | [] => []
  | (key, value) :: rest =>
    preorder (memberName path key.scalarText) above value ++ preorderPairs path above rest
end

/-- All path prefixes contain only allowed characters. -/
def Visit.Valid (visit : Visit) : Prop := ∀ path ∈ visit.path :: visit.above, ValidName path

instance (visit : Visit) : Decidable visit.Valid :=
  inferInstanceAs (Decidable (∀ path ∈ visit.path :: visit.above, _))

/-- The pairs that the members of a node are read from; only a map has any. -/
def Yaml.Node.members : Node → List (Node × Node)
  | .map pairs => pairs
  | _ => []

theorem listAllMember_def (pre : Text) (node : Node) :
    listAllMember pre node =
      if ValidName pre then (pre, node) :: listPairs pre node.members else [] := by
  cases node <;> simp [listAllMember, Node.members, listPairs]

theorem preorder_def (path : Text) (above : List Text) (node : Node) :
    preorder path above node =
      ⟨path, above, node⟩ :: preorderPairs path (path :: above) node.members := by
  cases node <;> simp [preorder, Node.members, preorderPairs]

mutual
/-- Every node below carries the paths on the way down to it. -/
theorem mem_preorder {path : Text} {above : List Text} (node : Node) {visit : Visit}
    (member : visit ∈ preorder path above node) :
    ∀ p ∈ path :: above, p ∈ visit.path :: visit.above := by
  rw [preorder_def] at member
  rcases List.mem_cons.mp member with rfl | member
  · intro p inside
    exact inside
  · cases node with
    | map pairs => exact mem_preorderPairs pairs member
    | null | scalar | sequence => cases member

theorem mem_preorderPairs {path : Text} {above : List Text} (pairs : List (Node × Node))
    {visit : Visit} (member : visit ∈ preorderPairs path above pairs) :
    ∀ p ∈ above, p ∈ visit.path :: visit.above := by
  cases pairs with
  | nil => cases member
  | cons pair rest =>
    obtain ⟨key, value⟩ := pair
    intro p inside
    rcases List.mem_append.mp member with member | member
    · exact mem_preorder value member p (List.mem_cons_of_mem _ inside)
    · exact mem_preorderPairs rest member p inside
end

/-- The flattened entry of a visited node. -/
def Visit.entry (visit : Visit) : Text × Node := (visit.path, visit.node)

mutual
/-- Flattening prunes the pre-order walk to the nodes with valid paths. -/
theorem listAllMember_eq (path : Text) (above : List Text) (valid : ∀ p ∈ above, ValidName p)
    (node : Node) :
    listAllMember path node =
      ((preorder path above node).filter fun visit => visit.Valid).map Visit.entry := by
  rw [listAllMember_def]
  by_cases here : ValidName path
  · have reached : (⟨path, above, node⟩ : Visit).Valid := List.forall_mem_cons.mpr ⟨here, valid⟩
    rw [if_pos here, preorder_def, List.filter_cons_of_pos (by simpa using reached)]
    rw [List.map_cons, Visit.entry]
    cases node with
    | map pairs => rw [Node.members, listPairs_eq path (path :: above) reached pairs]
    | null | scalar | sequence => rfl
  · have pruned : (preorder path above node).filter (fun visit => visit.Valid) = [] := by
      apply List.filter_eq_nil_iff.mpr
      intro visit member reached
      have all : visit.Valid := by simpa using reached
      exact here (all path (mem_preorder node member path List.mem_cons_self))
    rw [if_neg here, pruned]
    rfl

theorem listPairs_eq (path : Text) (above : List Text) (valid : ∀ p ∈ above, ValidName p)
    (pairs : List (Node × Node)) :
    listPairs path pairs =
      ((preorderPairs path above pairs).filter fun visit => visit.Valid).map Visit.entry := by
  cases pairs with
  | nil => rfl
  | cons pair rest =>
    obtain ⟨key, value⟩ := pair
    rw [listPairs, preorderPairs, List.filter_append, List.map_append]
    rw [listAllMember_eq (memberName path key.scalarText) above valid value]
    rw [listPairs_eq path above valid rest]
end

theorem nameChars_lower : ∀ c ∈ nameChars, c.toLower = c := by decide

theorem ValidName.lower {name : Text} (valid : ValidName name) : name.map Char.toLower = name := by
  rw [List.map_congr_left fun c member => nameChars_lower c (valid c member)]
  exact List.map_id' name

/-- Replace by the conversion of a text if it succeeds, else keep. -/
def replaceBy (fromStr : Text → Except Exn T) (val : T) (text : Text) : T :=
  match fromStr text with
  | .ok v => v
  | .error _ => val

/-- What a text makes of a value: its conversion, unless the two compare equal. -/
def settleBy [BEq T] (fromStr : Text → Except Exn T) (val : T) (text : Text) : T :=
  match fromStr text with
  | .ok v => settle val v
  | .error _ => val

/-- The values that texts convert to. -/
def conversions (fromStr : Text → Except Exn T) (texts : List Text) : List T :=
  texts.filterMap fun text => (fromStr text).toOption

@[simp] theorem conversions_nil (fromStr : Text → Except Exn T) : conversions fromStr [] = [] := rfl

theorem conversions_error {fromStr : Text → Except Exn T} {text : Text} {exn : Exn}
    (converted : fromStr text = .error exn) (rest : List Text) :
    conversions fromStr (text :: rest) = conversions fromStr rest := by
  simp [conversions, converted, Except.toOption]

theorem conversions_ok {fromStr : Text → Except Exn T} {text : Text} {v : T}
    (converted : fromStr text = .ok v) (rest : List Text) :
    conversions fromStr (text :: rest) = v :: conversions fromStr rest := by
  simp [conversions, converted, Except.toOption]

theorem mem_conversions {fromStr : Text → Except Exn T} {texts : List Text} {v : T} :
    v ∈ conversions fromStr texts ↔ ∃ text ∈ texts, fromStr text = .ok v := by
  rw [conversions, List.mem_filterMap]
  apply exists_congr
  intro text
  cases fromStr text with
  | ok | error => simp [Except.toOption]

theorem foldl_settleBy [BEq T] (fromStr : Text → Except Exn T) (val : T) (texts : List Text) :
    texts.foldl (settleBy fromStr) val = settleAll val (conversions fromStr texts) := by
  induction texts generalizing val with
  | nil => rfl
  | cons text rest ih =>
    rw [List.foldl_cons, ih]
    cases converted : fromStr text with
    | error exn => simp [settleBy, conversions_error converted, converted]
    | ok v => simp [settleBy, conversions_ok converted, converted, settleAll]

/-- An exception that `fromString` does not catch. -/
def escapes : Except Exn α → Bool
  | .error .other => true
  | _ => false

theorem escapes_iff {result : Except Exn α} : escapes result = true ↔ result = .error .other := by
  cases result with
  | ok => simp [escapes]
  | error exn => cases exn <;> simp [escapes]

namespace ConfigVarBase

variable {W : Type v}

def withVal (base : ConfigVarBase W) (val : base.T) : ConfigVarBase W :=
  { base with var := base.var.store val }

/-- The variable after the conversions of a list of texts. -/
def loaded (base : ConfigVarBase W) (texts : List Text) : ConfigVarBase W :=
  base.withVal (texts.foldl (replaceBy base.fromStr) base.var.val)

/-- Equality is structural, conversions throw standard exceptions only, and the
listeners are quiet. -/
structure Tame (base : ConfigVarBase W) : Prop where
  structural : ∀ a b, base.beq.beq a b = true ↔ a = b
  standard : ∀ text, base.fromStr text ≠ .error .other
  quiet : ∀ entry ∈ base.var.cbs.entries, Quiet entry.2

@[simp] theorem loaded_nil (base : ConfigVarBase W) : base.loaded [] = base := rfl

/-- None of the listeners throws. -/
def Calm (base : ConfigVarBase W) : Prop := ∀ entry ∈ base.var.cbs.entries, Quiet entry.2

def settle (base : ConfigVarBase W) : base.T → Text → base.T :=
  letI := base.beq
  settleBy base.fromStr

/-- The variable after texts have settled it. -/
def settled (base : ConfigVarBase W) (texts : List Text) : ConfigVarBase W :=
  base.withVal (texts.foldl base.settle base.var.val)

/-- With quiet listeners `fromString` settles the value, or the conversion throws what
`fromString` does not catch. -/
theorem fromString_calm {base : ConfigVarBase W} (calm : base.Calm) (text : Text) (world : W) :
    (escapes (base.fromStr text) = true ∧ base.fromString text world = (base, .throws .other world)) ∨
    (escapes (base.fromStr text) = false ∧ ∃ next, base.fromString text world =
      (base.withVal (base.settle base.var.val text), .returns false next)) := by
  let _ := base.beq
  cases converted : base.fromStr text with
  | error exn =>
    cases exn with
    | other =>
      refine .inl ⟨rfl, ?_⟩
      simp only [fromString, ConfigVar.fromString, converted]
    | standard =>
      refine .inr ⟨rfl, world, ?_⟩
      simp only [fromString, ConfigVar.fromString, converted, settle, settleBy]
      rfl
  | ok v =>
    obtain ⟨events, after, next, set⟩ := base.var.setValue_quiet v world calm
    refine .inr ⟨rfl, next, ?_⟩
    simp only [fromString, ConfigVar.fromString, converted, set]
    have stored : after = base.var.store (base.settle base.var.val text) := by
      rcases ConfigVar.setValue_cases set with ⟨same, _, rfl, _⟩ | ⟨differs, _, stored, _⟩
      · have kept : base.settle base.var.val text = base.var.val := by
          simp only [settle, settleBy, converted]
          exact if_pos same
        rw [kept]
        rfl
      · have changed : base.settle base.var.val text = v := by
          simp only [settle, settleBy, converted]
          exact if_neg (by simpa using differs)
        rw [changed]
        exact stored
    rw [stored]
    rfl

/-- On a tame variable settling is replacing. -/
theorem Tame.settle {base : ConfigVarBase W} (tame : base.Tame) (val : base.T) (text : Text) :
    base.settle val text = replaceBy base.fromStr val text := by
  cases converted : base.fromStr text with
  | error exn => simp [ConfigVarBase.settle, settleBy, replaceBy, converted]
  | ok v =>
    let _ := base.beq
    simp only [ConfigVarBase.settle, settleBy, replaceBy, converted]
    rcases Library.settle_cases val v with ⟨same, kept⟩ | ⟨_, changed⟩
    · exact kept.trans ((tame.structural v val).mp same).symm
    · exact changed

end ConfigVarBase

section Reference

variable {W : Type v} (emit : Node → Text)

/-- The texts that flattened nodes offer to the variable of a name, in order. -/
def offered (name : Text) (nodes : List (Text × Node)) : List Text :=
  (nodes.filter fun entry => entry.1 = name).map fun entry => nodeText emit entry.2

/-- The loop ends with the exception of this entry's conversion. -/
def stops (datas : ConfigVarMap W) (entry : Text × Node) : Bool :=
  match datas.find? (entry.1.map Char.toLower) with
  | none => false
  | some base => escapes (base.fromStr (nodeText emit entry.2))

/-- The entries that the second loop gets through; it skips the empty key. -/
def reached (datas : ConfigVarMap W) (nodes : List (Text × Node)) : List (Text × Node) :=
  (nodes.filter fun entry => entry.1 ≠ []).takeWhile fun entry => !stops emit datas entry

/-- Other values do not change where the loop stops. -/
theorem stops_put {datas : ConfigVarMap W} {base : ConfigVarBase W} {name : Text} (val : base.T)
    (found : datas.find? name = some base) : stops emit (datas.put (base.withVal val)) = stops emit datas := by
  have same : (base.withVal val).getName = name := ((Table.find?_eq_some_iff _ _ _).mp found).2
  funext entry
  unfold stops
  rw [Table.find?_put, same]
  split_ifs with here
  · rw [← here, found]
    rfl
  · rfl

section Entries

variable {emit}

theorem offered_same (key : Text) (node : Node) (nodes : List (Text × Node)) :
    offered emit key ((key, node) :: nodes) = nodeText emit node :: offered emit key nodes := by
  simp [offered]

theorem offered_other {key name : Text} (apart : key ≠ name) (node : Node) (nodes : List (Text × Node)) :
    offered emit name ((key, node) :: nodes) = offered emit name nodes := by
  simp [offered, apart]

theorem stops_absent {datas : ConfigVarMap W} {key : Text} (valid : ValidName key)
    (found : datas.find? key = none) (node : Node) : stops emit datas (key, node) = false := by
  simp [stops, ValidName.lower valid, found]

theorem stops_found {datas : ConfigVarMap W} {base : ConfigVarBase W} {key : Text} (valid : ValidName key)
    (found : datas.find? key = some base) (node : Node) :
    stops emit datas (key, node) = escapes (base.fromStr (nodeText emit node)) := by
  simp [stops, ValidName.lower valid, found]

theorem reached_empty (datas : ConfigVarMap W) (node : Node) (rest : List (Text × Node)) :
    reached emit datas (([], node) :: rest) = reached emit datas rest := by
  rw [reached, reached, List.filter_cons_of_neg (by simp)]

theorem reached_goes {datas : ConfigVarMap W} {key : Text} {node : Node} (named : key ≠ [])
    (goes : stops emit datas (key, node) = false) (rest : List (Text × Node)) :
    reached emit datas ((key, node) :: rest) = (key, node) :: reached emit datas rest := by
  rw [reached, List.filter_cons_of_pos (by simpa using named), List.takeWhile_cons_of_pos (by simp [goes])]
  rfl

theorem reached_stops {datas : ConfigVarMap W} {key : Text} {node : Node} (named : key ≠ [])
    (here : stops emit datas (key, node) = true) (rest : List (Text × Node)) :
    reached emit datas ((key, node) :: rest) = [] := by
  rw [reached, List.filter_cons_of_pos (by simpa using named), List.takeWhile_cons_of_neg (by simp [here])]

theorem reached_put {datas : ConfigVarMap W} {base : ConfigVarBase W} {name : Text} (val : base.T)
    (found : datas.find? name = some base) (nodes : List (Text × Node)) :
    reached emit (datas.put (base.withVal val)) nodes = reached emit datas nodes := by
  rw [reached, stops_put emit val found]
  rfl

theorem calm_put {datas : ConfigVarMap W} {base : ConfigVarBase W} {name : Text} (val : base.T)
    (found : datas.find? name = some base) (calm : ∀ other ∈ datas.entries, other.Calm) :
    ∀ other ∈ (datas.put (base.withVal val)).entries, other.Calm := by
  intro other inside
  rcases (Table.mem_put _ _ _).mp inside with rfl | ⟨inside, _⟩
  · exact calm base ((Table.find?_eq_some_iff _ _ _).mp found).1
  · exact calm other inside

end Entries

/-- The second loop, over any variables with quiet listeners: each variable settles the
texts offered to it, up to the entry that stops the loop. -/
theorem loadNodes_values (nodes : List (Text × Node)) (datas : ConfigVarMap W) (world : W)
    (calm : ∀ base ∈ datas.entries, base.Calm) (valid : ∀ entry ∈ nodes, ValidName entry.1) :
    ∃ final outcome next, loadNodes emit nodes datas world = (final, outcome) ∧
      outcome.world? = some next ∧
      ((∀ entry ∈ nodes, stops emit datas entry = false) → outcome = .returns () next) ∧
      ∀ name, final.find? name = (datas.find? name).map fun base =>
        base.settled (offered emit name (reached emit datas nodes)) := by
  induction nodes generalizing datas world with
  | nil =>
    refine ⟨datas, .returns () world, world, rfl, rfl, fun _ => rfl, ?_⟩
    intro name
    cases datas.find? name <;> rfl
  | cons entry rest ih =>
    obtain ⟨key, node⟩ := entry
    obtain ⟨validKey, validRest⟩ := List.forall_mem_cons.mp valid
    by_cases empty : key = []
    · obtain ⟨final, outcome, next, loaded, ended, complete, values⟩ := ih datas world calm validRest
      refine ⟨final, outcome, next, by simp [loadNodes, empty, loaded], ended, ?_, ?_⟩
      · exact fun none_stops => complete (List.forall_mem_cons.mp none_stops).2
      · intro name
        rw [values, empty, reached_empty]
    have lower : key.map Char.toLower = key := ValidName.lower validKey
    cases found : datas.find? key with
    | none =>
      have goes : stops emit datas (key, node) = false := stops_absent validKey found node
      obtain ⟨final, outcome, next, loaded, ended, complete, values⟩ := ih datas world calm validRest
      refine ⟨final, outcome, next, by simp [loadNodes, empty, lower, found, loaded], ended, ?_, ?_⟩
      · exact fun none_stops => complete (List.forall_mem_cons.mp none_stops).2
      · intro name
        rw [values, reached_goes empty goes]
        cases other : datas.find? name with
        | none => rfl
        | some base =>
          have apart : key ≠ name := by
            rintro rfl
            cases found.symm.trans other
          rw [offered_other apart]
    | some base =>
      obtain ⟨member, sameName⟩ := (Table.find?_eq_some_iff _ _ _).mp found
      rcases ConfigVarBase.fromString_calm (calm base member) (nodeText emit node) world with
        ⟨thrown, called⟩ | ⟨caught, next, called⟩
      · have here : stops emit datas (key, node) = true := (stops_found validKey found node).trans thrown
        have none_left := reached_stops empty here rest
        refine ⟨datas.put base, .throws .other world, world, ?_, rfl, ?_, ?_⟩
        · simp [loadNodes, empty, lower, found, called]
        · intro none_stops
          rw [(List.forall_mem_cons.mp none_stops).1] at here
          cases here
        · intro name
          rw [none_left, Table.find?_put, sameName]
          split_ifs with same
          · rw [← same, found]
            rfl
          · cases datas.find? name with
            | none | some => rfl
      · have goes : stops emit datas (key, node) = false := (stops_found validKey found node).trans caught
        set base' := base.withVal (base.settle base.var.val (nodeText emit node)) with changed
        obtain ⟨final, outcome, next', loaded, ended, complete, values⟩ :=
          ih (datas.put base') next (calm_put _ found calm) validRest
        refine ⟨final, outcome, next', by simp [loadNodes, empty, lower, found, called, loaded], ended, ?_, ?_⟩
        · intro none_stops
          apply complete
          rw [stops_put emit _ found]
          exact (List.forall_mem_cons.mp none_stops).2
        · intro name
          rw [values, reached_put _ found, reached_goes empty goes, Table.find?_put]
          have named : base'.getName = key := sameName
          rw [named]
          split_ifs with same
          · rw [← same, found, offered_same]
            rfl
          · rw [offered_other same]

/-- On tame variables settling is converting all that is offered. -/
theorem loadNodes_find? (nodes : List (Text × Node)) (datas : ConfigVarMap W) (world : W)
    (tame : ∀ base ∈ datas.entries, base.Tame) (named : ∀ base ∈ datas.entries, base.getName ≠ [])
    (valid : ∀ entry ∈ nodes, ValidName entry.1) :
    ∃ final next, loadNodes emit nodes datas world = (final, .returns () next) ∧
      ∀ name, final.find? name =
        (datas.find? name).map fun base => base.loaded (offered emit name nodes) := by
  have goes (entry : Text × Node) : stops emit datas entry = false := by
    unfold stops
    split
    · rfl
    · rename_i base found
      rw [Bool.eq_false_iff, ne_eq, escapes_iff]
      exact (tame base ((Table.find?_eq_some_iff _ _ _).mp found).1).standard _
  obtain ⟨final, outcome, next, loaded, _, complete, values⟩ :=
    loadNodes_values emit nodes datas world (fun base member => (tame base member).quiet) valid
  have returned := complete fun entry _ => goes entry
  rw [returned] at loaded
  refine ⟨final, next, loaded, ?_⟩
  intro name
  rw [values]
  cases found : datas.find? name with
  | none => rfl
  | some base =>
    obtain ⟨member, rfl⟩ := (Table.find?_eq_some_iff _ _ _).mp found
    have all : offered emit base.getName (reached emit datas nodes) = offered emit base.getName nodes := by
      have skipped : (nodes.filter fun entry => entry.1 ≠ []).filter (fun entry => entry.1 = base.getName) =
          nodes.filter fun entry => entry.1 = base.getName := by
        rw [List.filter_filter]
        apply List.filter_congr
        intro entry _
        by_cases same : entry.1 = base.getName
        · simp [same, named base member]
        · simp [same]
      rw [offered, reached, List.takeWhile_eq_self_iff.mpr (by simp [goes]), skipped]
      rfl
    have settles : base.settle = replaceBy base.fromStr := by
      funext val text
      exact (tame base member).settle val text
    simp only [Option.map_some, all, ConfigVarBase.settled, settles]
    rfl

end Reference

section Reference

variable {W : Type v} (emit : Node → Text)

/-- The reference semantics of a variable: the texts of the nodes on its path whose
path prefixes are all valid, in pre-order. -/
def reference (name : Text) (root : Node) : List Text :=
  ((preorder [] [] root).filter fun visit => visit.path = name ∧ visit.Valid).map
    fun visit => nodeText emit visit.node

theorem offered_listAllMember (name : Text) (root : Node) :
    offered emit name (listAllMember [] root) = reference emit name root := by
  rw [listAllMember_eq [] [] (by simp) root, offered, reference, List.filter_map, List.map_map,
    List.filter_filter]
  simp [Visit.entry, Function.comp_def]
  rfl

/-- Flattening keeps to valid names. -/
theorem valid_listAllMember (root : Node) : ∀ entry ∈ listAllMember [] root, ValidName entry.1 := by
  rw [listAllMember_eq [] [] (by simp) root]
  intro entry member
  obtain ⟨visit, inside, rfl⟩ := List.mem_map.mp member
  have reached : visit.Valid := by simpa using (List.mem_filter.mp inside).2
  exact reached visit.path List.mem_cons_self

/-- `LoadFromYaml` meets its reference: every variable holds the fold of the
conversions of its nodes, variables without a node are as before, and an invalid
key prunes its own subtree and no other node. -/
theorem loadFromYaml_reference (root : Node) (datas : ConfigVarMap W) (world : W)
    (tame : ∀ base ∈ datas.entries, base.Tame)
    (named : ∀ base ∈ datas.entries, base.getName ≠ []) :
    (∃ final next, loadFromYaml emit root datas world = (final, .returns () next) ∧
      ∀ name, final.find? name =
          (datas.find? name).map (fun base => base.loaded (reference emit name root)) ∧
        ((∀ visit ∈ preorder [] [] root, visit.Valid → visit.path ≠ name) →
          final.find? name = datas.find? name)) ∧
    listAllMember [] root =
      ((preorder [] [] root).filter fun visit => visit.Valid).map Visit.entry := by
  have flattened := listAllMember_eq [] [] (by simp) root
  refine ⟨?_, flattened⟩
  obtain ⟨final, next, loaded, values⟩ :=
    loadNodes_find? emit (listAllMember [] root) datas world tame named (valid_listAllMember root)
  refine ⟨final, next, loaded, ?_⟩
  intro name
  have value := values name
  rw [offered_listAllMember] at value
  refine ⟨value, ?_⟩
  intro absent
  have silent : reference emit name root = [] := by
    rw [reference, List.map_eq_nil_iff, List.filter_eq_nil_iff]
    intro visit member reached
    obtain ⟨same, valid⟩ : visit.path = name ∧ visit.Valid := by simpa using reached
    exact absent visit member valid same
  rw [value, silent]
  simp

end Reference

/-- A variable of texts whose conversion refuses the empty text. -/
def addressVar : ConfigVarBase Unit :=
  ⟨Text, inferInstance, fun text => if text = [] then .error .standard else .ok text,
    ⟨['a', '.', 'b'], ['0'], .empty⟩⟩

def addressDatas : ConfigVarMap Unit := Table.empty.put addressVar

/-- A nested key, an invalid key, and a dotted key with the same path. -/
def addressRoot : Node :=
  .map [(.scalar ['a'], .map [(.scalar ['b'], .scalar ['1']), (.scalar ['9'], .scalar ['2'])]),
    (.scalar ['a', '.', 'b'], .scalar [])]

theorem loadFromYaml_reference_address :
    ∃ final next, loadFromYaml (fun _ => []) addressRoot addressDatas () =
        (final, .returns () next) ∧
      final.find? ['a', '.', 'b'] = some (addressVar.withVal ['1']) := by
  have only (base : ConfigVarBase Unit) (member : base ∈ addressDatas.entries) :
      base = addressVar := List.mem_singleton.mp member
  obtain ⟨final, next, loaded, values⟩ :=
    (loadFromYaml_reference (fun _ => []) addressRoot addressDatas ()
      (by
        intro base member
        rw [only base member]
        refine ⟨fun a b => beq_iff_eq (α := Text), ?_, ?_⟩
        · intro text
          by_cases empty : text = [] <;> simp [addressVar, empty]
        · intro entry inside
          cases inside)
      (by
        intro base member
        rw [only base member]
        exact List.cons_ne_nil _ _)).1
  exact ⟨final, next, loaded, (values ['a', '.', 'b']).1⟩

end Sylar
