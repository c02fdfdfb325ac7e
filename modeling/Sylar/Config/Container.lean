import Mathlib.Data.Finset.Dedup
import Mathlib.Data.List.Lex
import Sylar.Library.Table
import Sylar.Yaml.Flow

/-! The `LexicalCast` specialisations for containers. Every element goes through its own
text: printed, loaded and attached on the way out, printed again on the way in. -/
namespace Sylar

open Library Yaml

/-- `LexicalCast<C, std::string>` of an object and `LexicalCast<std::string, C>`, which gives
a value: objects that iterate in different orders may have the same one. -/
structure LexicalCast (O : Type) (V : Type) where
  toText : O → Except Exn Text
  fromText : Text → Except Exn V

section Loops

variable (yaml : YamlCpp)

/-- `ss << node`; an undefined node prints nothing. -/
def printNode : Option Node → Text
  | some node => yaml.emit node
  | none => []

/-- `node.push_back(YAML::Load(LexicalCast<T, std::string>()(i)))` for each element. -/
def encodeItems (toText : O → Except Exn Text) : List O → Except Exn (List Node)
  | [] => pure []
  | x :: rest => do
    let item ← yaml.load (← toText x)
    let items ← encodeItems toText rest
    pure (item :: items)

/-- The conversions of `node[i]` from position `i` on, `count` of them. -/
def decodeItems (fromText : Text → Except Exn V) (node : Node) : Nat → Nat → Except Exn (List V)
  | 0, _ => pure []
  | count + 1, i => do
    let x ← fromText (printNode yaml (node.item yaml i))
    let rest ← decodeItems fromText node count (i + 1)
    pure (x :: rest)

/-- `node[i.first] = YAML::Load(LexicalCast<T, std::string>()(i.second))` for each pair. -/
def encodePairs (toText : O → Except Exn Text) :
    List (Text × O) → List (Node × Node) → Except Exn (List (Node × Node))
  | [], pairs => pure pairs
  | (key, x) :: rest, pairs => do
    let node ← yaml.load (← toText x)
    encodePairs toText rest (assign key node pairs)

/-- The pairs that an iterator over a node gives. An element of a sequence is none, and
its `first.Scalar()` throws. -/
def Yaml.Node.pairs : Node → Except Exn (List (Node × Node))
  | .map pairs => .ok pairs
  | .sequence (_ :: _) => .error .standard
  | _ => .ok []

def decodePairs (fromText : Text → Except Exn V) : List (Node × Node) → Except Exn (List (Text × V))
  | [] => pure []
  | (key, node) :: rest => do
    let x ← fromText (yaml.emit node)
    let later ← decodePairs fromText rest
    pure ((key.scalarText, x) :: later)

end Loops

namespace LexicalCast

section Definitions

variable (yaml : YamlCpp)

/-- The text of a container is its node, printed. -/
def container (encode : O → Except Exn Node) (decode : Node → Except Exn V) : LexicalCast O V where
  toText x := do return yaml.emit (← encode x)
  fromText text := do decode (← yaml.load text)

section Kinds

variable (c : LexicalCast O V)

/-- `std::vector<T>` -/
def vector : LexicalCast (List O) (List V) :=
  container yaml
    (fun xs => do return .sequence (← encodeItems yaml c.toText xs))
    (fun node => decodeItems yaml c.fromText node node.size 0)

/-- `std::list<T>` -/
def list : LexicalCast (List O) (List V) :=
  container yaml
    (fun xs => do return .sequence (← encodeItems yaml c.toText xs))
    (fun node => decodeItems yaml c.fromText node node.size 0)

/-- `std::set<T>`, its elements ordered by a key of their values. -/
def set [LinearOrder κ] (value : O → V) (key : V → κ) : LexicalCast (Table fun x => key (value x)) (Table key) :=
  container yaml
    (fun xs => do return .sequence (← encodeItems yaml c.toText xs.entries))
    (fun node => do return Table.insertAll (← decodeItems yaml c.fromText node node.size 0))

/-- `std::unordered_set<T>`, an object being its elements in the order of iteration. -/
def unorderedSet [DecidableEq V] (value : O → V) :
    LexicalCast { xs : List O // (xs.map value).Nodup } (Finset V) :=
  container yaml
    (fun xs => do return .sequence (← encodeItems yaml c.toText xs.val))
    (fun node => do return (← decodeItems yaml c.fromText node node.size 0).toFinset)

/-- `std::map<std::string, T>` -/
def map : LexicalCast (Table fun pair : Text × O => pair.1) (Table fun pair : Text × V => pair.1) :=
  container yaml
    (fun xs => do return .map (← encodePairs yaml c.toText xs.entries []))
    (fun node => do return Table.insertAll (← decodePairs yaml c.fromText (← node.pairs)))

/-- `std::unordered_map<std::string, T>`, an object being its pairs in the order of iteration. -/
def unorderedMap :
    LexicalCast { xs : List (Text × O) // (xs.map Prod.fst).Nodup } (Table fun pair : Text × V => pair.1) :=
  container yaml
    (fun xs => do return .map (← encodePairs yaml c.toText xs.val []))
    (fun node => do return Table.insertAll (← decodePairs yaml c.fromText (← node.pairs)))

end Kinds

section Values

variable (value : O → V)

/-- The set that the objects of an unordered set make. -/
def unorderedSetValue [DecidableEq V] (xs : { xs : List O // (xs.map value).Nodup }) : Finset V :=
  (xs.val.map value).toFinset

def mapValue : Table (fun pair : Text × O => pair.1) → Table (fun pair : Text × V => pair.1) :=
  Table.map (fun pair => (pair.1, value pair.2)) fun _ => rfl

/-- The map that the pairs of an unordered map make. -/
def unorderedMapValue (xs : { xs : List (Text × O) // (xs.map Prod.fst).Nodup }) :
    Table (fun pair : Text × V => pair.1) :=
  Table.insertAll (xs.val.map fun pair => (pair.1, value pair.2))

/-- Its pairs are those of the object. -/
theorem mem_unorderedMapValue (xs : { xs : List (Text × O) // (xs.map Prod.fst).Nodup }) (pair : Text × V) :
    pair ∈ (unorderedMapValue value xs).entries ↔ ∃ x, (pair.1, x) ∈ xs.val ∧ value x = pair.2 := by
  have nodup : ((xs.val.map fun pair => (pair.1, value pair.2)).map Prod.fst).Nodup := by
    simpa [Function.comp_def] using xs.property
  have all := Table.mem_insertAll nodup pair
  rw [unorderedMapValue, all]
  simp [Prod.ext_iff]

end Values

/-- An object's text is read as its value. -/
def RoundTrips (value : O → V) (c : LexicalCast O V) : Prop :=
  ∀ x, ∃ text, c.toText x = .ok text ∧ c.fromText text = .ok (value x)

/-- It is, with a loading and a printing between the conversions. -/
def Reloads (value : O → V) (c : LexicalCast O V) : Prop :=
  ∀ x, ∃ text node, c.toText x = .ok text ∧ yaml.load text = .ok node ∧
    c.fromText (yaml.emit node) = .ok (value x)

end Definitions

section Laws

variable {yaml : YamlCpp} {value : O → V} {c : LexicalCast O V}

/-- Elements are pushed and read back in order. -/
theorem Reloads.items (reloads : c.Reloads yaml value) (xs : List O) :
    ∃ items, encodeItems yaml c.toText xs = .ok items ∧ items.length = xs.length ∧
      ∀ front, decodeItems yaml c.fromText (.sequence (front ++ items)) items.length front.length =
        .ok (xs.map value) := by
  induction xs with
  | nil => exact ⟨[], rfl, rfl, fun _ => rfl⟩
  | cons x rest ih =>
    obtain ⟨text, item, printed, loaded, read⟩ := reloads x
    obtain ⟨items, encoded, length, decoded⟩ := ih
    refine ⟨item :: items, ?_, by simp [length], ?_⟩
    · simp only [encodeItems, printed, loaded, encoded, bind, Except.bind]
      rfl
    · intro front
      have here : (Node.sequence (front ++ item :: items)).item yaml front.length = some item := by
        simp [Node.item]
      have later : decodeItems yaml c.fromText (.sequence (front ++ item :: items)) items.length
          (front.length + 1) = .ok (rest.map value) := by
        simpa using decoded (front ++ [item])
      simp only [List.length_cons, decodeItems, here, printNode, read, later, bind, Except.bind]
      rfl

/-- The whole sequence node. -/
theorem Reloads.sequence (reloads : c.Reloads yaml value) (xs : List O) :
    ∃ items, encodeItems yaml c.toText xs = .ok items ∧
      decodeItems yaml c.fromText (.sequence items) (Node.size (.sequence items)) 0 =
        .ok (xs.map value) := by
  obtain ⟨items, encoded, _, decoded⟩ := reloads.items xs
  exact ⟨items, encoded, decoded []⟩

theorem assign_new {key : Text} {node : Node} {pairs : List (Node × Node)}
    (absent : ∀ pair ∈ pairs, pair.1 ≠ .scalar key) :
    assign key node pairs = pairs ++ [(.scalar key, node)] := by
  induction pairs with
  | nil => rfl
  | cons pair rest ih =>
    obtain ⟨apart, later⟩ := List.forall_mem_cons.mp absent
    obtain ⟨first, old⟩ := pair
    cases first with
    | scalar other =>
      have different : other ≠ key := fun same => apart (congrArg Node.scalar same)
      simp [assign, different, ih later]
    | null | sequence | map => simp [assign, ih later]

/-- Pairs with different keys are assigned and read back in order. -/
theorem Reloads.pairs (reloads : c.Reloads yaml value) (xs : List (Text × O)) (nodup : (xs.map Prod.fst).Nodup) :
    ∃ pairs, (∀ front, (∀ pair ∈ front, ∀ x ∈ xs, pair.1 ≠ .scalar x.1) →
        encodePairs yaml c.toText xs front = .ok (front ++ pairs)) ∧
      decodePairs yaml c.fromText pairs = .ok (xs.map fun pair => (pair.1, value pair.2)) := by
  induction xs with
  | nil => exact ⟨[], fun front _ => by simp [encodePairs]; rfl, rfl⟩
  | cons x rest ih =>
    obtain ⟨key, x⟩ := x
    obtain ⟨text, node, printed, loaded, read⟩ := reloads x
    obtain ⟨fresh, nodup⟩ := List.nodup_cons.mp nodup
    obtain ⟨pairs, encoded, decoded⟩ := ih nodup
    refine ⟨(.scalar key, node) :: pairs, ?_, ?_⟩
    · intro front apart
      have absent : ∀ pair ∈ front, pair.1 ≠ .scalar key := fun pair member =>
        apart pair member (key, x) List.mem_cons_self
      have next := encoded (front ++ [(.scalar key, node)]) ?_
      · simp only [encodePairs, printed, loaded, assign_new absent, bind, Except.bind, next]
        simp
      · intro pair member other inside
        rcases List.mem_append.mp member with old | new
        · exact apart pair old other (List.mem_cons_of_mem _ inside)
        · rw [List.mem_singleton.mp new]
          intro same
          cases same
          exact fresh (List.mem_map.mpr ⟨other, inside, rfl⟩)
    · simp only [decodePairs, read, decoded, bind, Except.bind]
      rfl

/-- Where loading what was emitted gives the node back, a container whose node reads
back goes through both kinds of conversion. -/
theorem container_spec (loads : ∀ node, yaml.load (yaml.emit node) = .ok node)
    {encode : O → Except Exn Node} {decode : Node → Except Exn V}
    (reads : ∀ x, ∃ node, encode x = .ok node ∧ decode node = .ok (value x)) :
    (container yaml encode decode).RoundTrips value ∧ (container yaml encode decode).Reloads yaml value := by
  have reload (x : O) : ∃ node, (container yaml encode decode).toText x = .ok (yaml.emit node) ∧
      (container yaml encode decode).fromText (yaml.emit node) = .ok (value x) := by
    obtain ⟨node, encoded, decoded⟩ := reads x
    refine ⟨node, ?_, ?_⟩
    · simp only [container, encoded, bind, Except.bind]
      rfl
    · simp only [container, loads, bind, Except.bind, decoded]
  constructor
  · intro x
    obtain ⟨node, printed, read⟩ := reload x
    exact ⟨yaml.emit node, printed, read⟩
  · intro x
    obtain ⟨node, printed, read⟩ := reload x
    exact ⟨yaml.emit node, node, printed, loads node, read⟩

section Kinds

variable (loads : ∀ node, yaml.load (yaml.emit node) = .ok node) (reloads : c.Reloads yaml value)
include loads reloads

theorem vector_spec :
    (vector yaml c).RoundTrips (List.map value) ∧ (vector yaml c).Reloads yaml (List.map value) := by
  apply container_spec loads
  intro xs
  obtain ⟨items, encoded, decoded⟩ := reloads.sequence xs
  exact ⟨.sequence items, by simp only [encoded]; rfl, decoded⟩

theorem list_spec : (list yaml c).RoundTrips (List.map value) ∧ (list yaml c).Reloads yaml (List.map value) :=
  vector_spec loads reloads

/-- The elements come back in order, so that each is inserted last. -/
theorem set_spec [LinearOrder κ] (key : V → κ) :
    (set yaml c value key).RoundTrips (Table.map value fun _ => rfl) ∧
      (set yaml c value key).Reloads yaml (Table.map value fun _ => rfl) := by
  apply container_spec loads
  intro xs
  obtain ⟨items, encoded, decoded⟩ := reloads.sequence xs.entries
  refine ⟨.sequence items, by simp only [encoded]; rfl, ?_⟩
  simp only [decoded]
  exact congrArg Except.ok (Table.insertAll_entries (xs.map value fun _ => rfl))

theorem unorderedSet_spec [DecidableEq V] :
    (unorderedSet yaml c value).RoundTrips (unorderedSetValue value) ∧
      (unorderedSet yaml c value).Reloads yaml (unorderedSetValue value) := by
  apply container_spec loads
  intro xs
  obtain ⟨items, encoded, decoded⟩ := reloads.sequence xs.val
  exact ⟨.sequence items, by simp only [encoded]; rfl, by simp only [decoded]; rfl⟩

theorem map_spec :
    (map yaml c).RoundTrips (mapValue value) ∧ (map yaml c).Reloads yaml (mapValue value) := by
  apply container_spec loads
  intro xs
  obtain ⟨pairs, encoded, decoded⟩ := reloads.pairs xs.entries xs.keys_nodup
  refine ⟨.map pairs, by simp only [encoded [] (by simp)]; rfl, ?_⟩
  simp only [Node.pairs, decoded, bind, Except.bind]
  exact congrArg Except.ok (Table.insertAll_entries (mapValue value xs))

theorem unorderedMap_spec : (unorderedMap yaml c).RoundTrips (unorderedMapValue value) ∧
    (unorderedMap yaml c).Reloads yaml (unorderedMapValue value) := by
  apply container_spec loads
  intro xs
  obtain ⟨pairs, encoded, decoded⟩ := reloads.pairs xs.val xs.property
  refine ⟨.map pairs, by simp only [encoded [] (by simp)]; rfl, ?_⟩
  simp only [Node.pairs, decoded, bind, Except.bind]
  rfl

end Kinds

end Laws

/-- The types built from one by a number of container templates: what the value of an object
is, and the conversions. -/
inductive Nested (yaml : YamlCpp) (value : T → W) (base : LexicalCast T W) :
    Nat → {O V : Type} → (O → V) → LexicalCast O V → Prop
  | base : Nested yaml value base 0 value base
  | vector {v : O → V} {c : LexicalCast O V} (element : Nested yaml value base n v c) :
      Nested yaml value base (n + 1) (List.map v) (vector yaml c)
  | list {v : O → V} {c : LexicalCast O V} (element : Nested yaml value base n v c) :
      Nested yaml value base (n + 1) (List.map v) (list yaml c)
  | set {κ : Type} [LinearOrder κ] {v : O → V} {c : LexicalCast O V} (key : V → κ)
      (element : Nested yaml value base n v c) :
      Nested yaml value base (n + 1) (Table.map v fun _ => rfl) (set yaml c v key)
  | unorderedSet [DecidableEq V] {v : O → V} {c : LexicalCast O V} (element : Nested yaml value base n v c) :
      Nested yaml value base (n + 1) (unorderedSetValue v) (unorderedSet yaml c v)
  | map {v : O → V} {c : LexicalCast O V} (element : Nested yaml value base n v c) :
      Nested yaml value base (n + 1) (mapValue v) (map yaml c)
  | unorderedMap {v : O → V} {c : LexicalCast O V} (element : Nested yaml value base n v c) :
      Nested yaml value base (n + 1) (unorderedMapValue v) (unorderedMap yaml c)

variable {yaml : YamlCpp} {value : T → W} {base : LexicalCast T W}

/-- Reloading is inherited by containers, and gives them the round trip. -/
theorem Nested.spec (loads : ∀ node, yaml.load (yaml.emit node) = .ok node)
    (reloads : base.Reloads yaml value) {O V : Type} {v : O → V} {c : LexicalCast O V} {n : Nat}
    (nested : Nested yaml value base n v c) : c.Reloads yaml v ∧ (0 < n → c.RoundTrips v) := by
  induction nested with
  | base => exact ⟨reloads, fun positive => absurd positive (Nat.lt_irrefl 0)⟩
  | vector _ ih =>
    obtain ⟨trips, again⟩ := vector_spec loads ih.1
    exact ⟨again, fun _ => trips⟩
  | list _ ih =>
    obtain ⟨trips, again⟩ := list_spec loads ih.1
    exact ⟨again, fun _ => trips⟩
  | set key _ ih =>
    obtain ⟨trips, again⟩ := set_spec loads ih.1 key
    exact ⟨again, fun _ => trips⟩
  | unorderedSet _ ih =>
    obtain ⟨trips, again⟩ := unorderedSet_spec loads ih.1
    exact ⟨again, fun _ => trips⟩
  | map _ ih =>
    obtain ⟨trips, again⟩ := map_spec loads ih.1
    exact ⟨again, fun _ => trips⟩
  | unorderedMap _ ih =>
    obtain ⟨trips, again⟩ := unorderedMap_spec loads ih.1
    exact ⟨again, fun _ => trips⟩

/-- Values of nested containers survive being converted to a text and back. -/
theorem containers_survive (loads : ∀ node, yaml.load (yaml.emit node) = .ok node)
    (reloads : base.Reloads yaml value)
    {O V : Type} {v : O → V} {c : LexicalCast O V} {n : Nat} (nested : Nested yaml value base (n + 1) v c) (x : O) :
    ∃ text, c.toText x = .ok text ∧ c.fromText text = .ok (v x) :=
  (nested.spec loads reloads).2 (Nat.succ_pos n) x

/-- `bool` by `boost::lexical_cast`. -/
def bool : LexicalCast Bool Bool where
  toText x := .ok (if x then ['1'] else ['0'])
  fromText text := if text = ['1'] then .ok true else if text = ['0'] then .ok false else .error .standard

/-- The texts in block style of a map with one list. -/
def blockYaml : YamlCpp := styled
  [(.scalar ['0'], ['0']), (.scalar ['1'], ['1']),
    (.sequence [.scalar ['1'], .scalar ['0']], "- 1\n- 0".toList),
    (.map [(.scalar ['a'], .sequence [.scalar ['1'], .scalar ['0']])], "a:\n  - 1\n  - 0".toList)]

/-- `std::map<std::string, std::list<bool>>` -/
theorem containers_survive_map :
    ∃ text, (map blockYaml (list blockYaml bool)).toText (Table.empty.put (['a'], [true, false])) = .ok text ∧
      (map blockYaml (list blockYaml bool)).fromText text = .ok (Table.empty.put (['a'], [true, false])) := by
  have loads : ∀ node, blockYaml.load (blockYaml.emit node) = .ok node :=
    styled_loads (by decide) (by decide)
  have reloads : bool.Reloads blockYaml id := by
    intro x
    cases x with
    | false => exact ⟨['0'], .scalar ['0'], rfl, rfl, rfl⟩
    | true => exact ⟨['1'], .scalar ['1'], rfl, rfl, rfl⟩
  exact containers_survive loads reloads (.map (.list .base)) (Table.empty.put (['a'], [true, false]))

end LexicalCast

end Sylar
