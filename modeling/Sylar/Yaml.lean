import Sylar.Library.Text
import Sylar.Outcome

/-! YAML documents as finite trees, with what the program reads from them. -/
namespace Sylar.Yaml

open Library

inductive Node where
  | null
  | scalar (text : Text)
  | sequence (items : List Node)
  | map (pairs : List (Node × Node))
  deriving Inhabited

/-- `Scalar()`: empty for a node that is not a scalar. -/
def Node.scalarText : Node → Text
  | .scalar text => text
  | _ => []

/-- What is left to yaml-cpp: printing and parsing, and two of its conversions. -/
structure YamlCpp where
  /-- `ss << node` -/
  emit : Node → Text
  /-- `YAML::Load` -/
  load : Text → Except Exn Node
  /-- `as<std::string>` of a null node -/
  nullText : Except Exn Text
  /-- a key's text read as a `size_t` -/
  keyIndex : Text → Option Nat

/-- The value of the first pair whose key is a scalar that passes a test. -/
def findPair (test : Text → Bool) : List (Node × Node) → Option Node
  | [] => none
  | (.scalar key, value) :: rest => if test key then some value else findPair test rest
  | _ :: rest => findPair test rest

/-- `node[key]` with a text as key; `none` is an undefined node. A scalar has no
members and throws; a sequence or null is turned into a map without that key. -/
def Node.member (key : Text) : Option Node → Except Exn (Option Node)
  | some (.scalar _) => .error .standard
  | some (.map pairs) => .ok (findPair (fun text => text = key) pairs)
  | _ => .ok none

/-- `size()` -/
def Node.size : Node → Nat
  | .sequence items => items.length
  | .map pairs => pairs.length
  | _ => 0

/-- `node[x]` below the size. -/
def Node.item (yaml : YamlCpp) (x : Nat) : Node → Option Node
  | .sequence items => items[x]?
  | .map pairs => findPair (fun text => yaml.keyIndex text = some x) pairs
  | _ => none

/-- `as<std::string>` of a defined node. -/
def Node.asText (yaml : YamlCpp) : Node → Except Exn Text
  | .scalar text => .ok text
  | .null => yaml.nullText
  | _ => .error .standard

/-- `node[key] = value` on the pairs of a node that is or becomes a map. -/
def assign (key : Text) (value : Node) : List (Node × Node) → List (Node × Node)
  | [] => [(.scalar key, value)]
  | (.scalar other, old) :: rest =>
    if other = key then (.scalar other, value) :: rest
    else (.scalar other, old) :: assign key value rest
  | pair :: rest => pair :: assign key value rest

/-- A node built by assignments only; without any it stays null. -/
def ofPairs (pairs : List (Node × Node)) : Node := if pairs.isEmpty then .null else .map pairs

@[simp] theorem member_ofPairs (key : Text) (pairs : List (Node × Node)) :
    Node.member key (some (ofPairs pairs)) = .ok (findPair (fun text => text = key) pairs) := by
  cases pairs <;> rfl

@[simp] theorem findPair_assign_same (key : Text) (value : Node) (pairs : List (Node × Node)) :
    findPair (fun text => text = key) (assign key value pairs) = some value := by
  induction pairs with
  | nil => simp [assign, findPair]
  | cons pair rest ih =>
    obtain ⟨first, old⟩ := pair
    cases first with
    | scalar other => by_cases same : other = key <;> simp [assign, findPair, same, ih]
    | null | sequence | map => simp [assign, findPair, ih]

/-- Assignment leaves other keys alone. -/
theorem findPair_assign_other {key other : Text} (apart : other ≠ key) (value : Node)
    (pairs : List (Node × Node)) :
    findPair (fun text => text = key) (assign other value pairs) =
      findPair (fun text => text = key) pairs := by
  induction pairs with
  | nil => simp [assign, findPair, apart]
  | cons pair rest ih =>
    obtain ⟨first, old⟩ := pair
    cases first with
    | scalar text =>
      by_cases same : text = other
      · simp [assign, findPair, same, apart]
      · simp [assign, findPair, same, ih]
    | null | sequence | map => simp [assign, findPair, ih]

end Sylar.Yaml
