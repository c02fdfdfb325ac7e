import Mathlib.Data.List.Nodup
import Sylar.Yaml

/-! Flow style: a printer of nodes and its parser, after which loading what was emitted
gives the node back. It stands for yaml-cpp where all of its texts are needed. -/
namespace Sylar.Yaml

open Library

/-- A quoted scalar up to and with its closing quote. -/
def quote : Text → Text
  | [] => ['"']
  | c :: rest => if c = '"' ∨ c = '\\' then '\\' :: c :: quote rest else c :: quote rest

def unquote : Text → Option (Text × Text)
  | [] => none
  | '"' :: rest => some ([], rest)
  | '\\' :: c :: rest => (unquote rest).map fun (text, after) => (c :: text, after)
  | c :: rest => (unquote rest).map fun (text, after) => (c :: text, after)

mutual

def Node.flow : Node → Text
  | .null => ['~']
  | .scalar text => '"' :: quote text
  | .sequence items => '[' :: flowItems items
  | .map pairs => '{' :: flowPairs pairs

def flowItems : List Node → Text
  | [] => [']']
  | item :: rest => item.flow ++ ',' :: flowItems rest

def flowPairs : List (Node × Node) → Text
  | [] => ['}']
  | (key, value) :: rest => key.flow ++ ':' :: (value.flow ++ ',' :: flowPairs rest)

end

mutual

/-- A node at the front of a text, and what follows it. -/
def parseNode : Nat → Text → Option (Node × Text)
  | 0, _ => none
  | fuel + 1, text =>
    match text with
    | '~' :: rest => some (.null, rest)
    | '"' :: rest => (unquote rest).map fun (text, after) => (.scalar text, after)
    | '[' :: rest => (parseItems fuel rest).map fun (items, after) => (.sequence items, after)
    | '{' :: rest => (parsePairs fuel rest).map fun (pairs, after) => (.map pairs, after)
    | _ => none

def parseItems : Nat → Text → Option (List Node × Text)
  | 0, _ => none
  | fuel + 1, text =>
    match text with
    | ']' :: rest => some ([], rest)
    | _ =>
      match parseNode fuel text with
      | some (item, ',' :: rest) =>
        (parseItems fuel rest).map fun (items, after) => (item :: items, after)
      | _ => none

def parsePairs : Nat → Text → Option (List (Node × Node) × Text)
  | 0, _ => none
  | fuel + 1, text =>
    match text with
    | '}' :: rest => some ([], rest)
    | _ =>
      match parseNode fuel text with
      | some (key, ':' :: rest) =>
        match parseNode fuel rest with
        | some (value, ',' :: rest) =>
          (parsePairs fuel rest).map fun (pairs, after) => ((key, value) :: pairs, after)
        | _ => none
      | _ => none

end

theorem quote_last (text : Text) : (quote text).dropLast ++ ['"'] = quote text := by
  induction text with
  | nil => rfl
  | cons c rest ih =>
    have more : quote rest ≠ [] := by
      rw [← ih]
      simp
    rw [quote]
    split_ifs with special
    · rw [List.dropLast_cons_of_ne_nil (by simp), List.dropLast_cons_of_ne_nil more, List.cons_append,
        List.cons_append, ih]
    · rw [List.dropLast_cons_of_ne_nil more, List.cons_append, ih]

/-- Besides its characters a quoted scalar has its closing quote. -/
theorem length_quote (text : Text) : text.length + 1 ≤ (quote text).length := by
  induction text with
  | nil => exact Nat.le_refl 1
  | cons c rest ih =>
    rw [quote]
    split_ifs with special
    · simp only [List.length_cons]
      omega
    · simp only [List.length_cons]
      omega

theorem unquote_quote (text rest : Text) : unquote (quote text ++ rest) = some (text, rest) := by
  induction text with
  | nil => rfl
  | cons c text ih =>
    rw [quote]
    split_ifs with special
    · simp [unquote, ih]
    · rw [not_or] at special
      rw [List.cons_append, unquote, ih]
      · rfl
      · exact fun same => special.1 same
      · intro _ _ same
        exact absurd same special.2

theorem parseItems_cons {fuel : Nat} {text rest : Text} {item : Node}
    (first : parseNode fuel text = some (item, ',' :: rest)) (more : ∀ tail, text ≠ ']' :: tail) :
    parseItems (fuel + 1) text =
      (parseItems fuel rest).map fun (items, after) => (item :: items, after) := by
  rw [parseItems, first]
  · rfl
  · exact more

theorem parsePairs_cons {fuel : Nat} {text middle rest : Text} {key value : Node}
    (first : parseNode fuel text = some (key, ':' :: middle))
    (second : parseNode fuel middle = some (value, ',' :: rest)) (more : ∀ tail, text ≠ '}' :: tail) :
    parsePairs (fuel + 1) text =
      (parsePairs fuel rest).map fun (pairs, after) => ((key, value) :: pairs, after) := by
  rw [parsePairs, first]
  · simp only [second]
  · exact more

/-- A printed node does not begin like the end of a list. -/
theorem flow_head (node : Node) (rest tail : Text) :
    node.flow ++ rest ≠ ']' :: tail ∧ node.flow ++ rest ≠ '}' :: tail := by
  cases node with
  | null | scalar | sequence | map => simp [Node.flow]

theorem flow_positive (node : Node) : 0 < node.flow.length := by
  cases node with
  | null | scalar | sequence | map => simp [Node.flow]

mutual

/-- A node's length is fuel enough to parse it. -/
theorem parse_flow (node : Node) (rest : Text) (fuel : Nat) (enough : node.flow.length ≤ fuel) :
    parseNode fuel (node.flow ++ rest) = some (node, rest) := by
  match node, fuel, enough with
  | .null, fuel + 1, _ => rfl
  | .scalar text, fuel + 1, _ =>
    simp [Node.flow, parseNode, unquote_quote]
  | .sequence items, fuel + 1, enough =>
    have inner := parse_flowItems items rest fuel (Nat.le_of_succ_le_succ enough)
    simp [Node.flow, parseNode, inner]
  | .map pairs, fuel + 1, enough =>
    have inner := parse_flowPairs pairs rest fuel (Nat.le_of_succ_le_succ enough)
    simp [Node.flow, parseNode, inner]

theorem parse_flowItems (items : List Node) (rest : Text) (fuel : Nat)
    (enough : (flowItems items).length ≤ fuel) :
    parseItems fuel (flowItems items ++ rest) = some (items, rest) := by
  match items, fuel, enough with
  | [], fuel + 1, _ => rfl
  | _ :: _, 0, enough => simp [flowItems] at enough
  | item :: items, fuel + 1, enough =>
    have positive := flow_positive item
    rw [flowItems, List.length_append, List.length_cons] at enough
    have first := parse_flow item (',' :: (flowItems items ++ rest)) fuel (by omega)
    have later := parse_flowItems items rest fuel (by omega)
    rw [flowItems, List.append_assoc, List.cons_append]
    rw [parseItems_cons first fun tail => (flow_head item _ tail).1, later]
    rfl

theorem parse_flowPairs (pairs : List (Node × Node)) (rest : Text) (fuel : Nat)
    (enough : (flowPairs pairs).length ≤ fuel) :
    parsePairs fuel (flowPairs pairs ++ rest) = some (pairs, rest) := by
  match pairs, fuel, enough with
  | [], fuel + 1, _ => rfl
  | _ :: _, 0, enough => simp [flowPairs] at enough
  | (key, value) :: pairs, fuel + 1, enough =>
    have positive := flow_positive key
    rw [flowPairs, List.length_append, List.length_cons, List.length_append, List.length_cons] at enough
    have first := parse_flow key (':' :: (value.flow ++ ',' :: (flowPairs pairs ++ rest))) fuel (by omega)
    have second := parse_flow value (',' :: (flowPairs pairs ++ rest)) fuel (by omega)
    have later := parse_flowPairs pairs rest fuel (by omega)
    rw [flowPairs, List.append_assoc, List.cons_append, List.append_assoc, List.cons_append]
    rw [parsePairs_cons first second fun tail => (flow_head key _ tail).2, later]
    rfl

end

/-- Flow style, with other texts for some nodes, such as those in block style. -/
def styled (known : List (Node × Text)) : YamlCpp where
  emit node :=
    match known.find? fun pair => pair.1.flow = node.flow with
    | some (_, text) => text
    | none => node.flow
  load text :=
    match known.find? fun pair => pair.2 = text with
    | some (node, _) => .ok node
    | none =>
      match parseNode text.length text with
      | some (node, []) => .ok node
      | _ => .error .standard
  nullText := .ok ['n', 'u', 'l', 'l']
  keyIndex _ := none

theorem flow_injective {a b : Node} (same : a.flow = b.flow) : a = b := by
  have first := parse_flow a [] a.flow.length (Nat.le_refl _)
  have second := parse_flow b [] b.flow.length (Nat.le_refl _)
  rw [same, second] at first
  cases first
  rfl

/-- How texts in flow style begin. -/
def flowHeads : List (Option Char) := [some '~', some '"', some '[', some '{']

theorem head_flow (node : Node) : node.flow.head? ∈ flowHeads := by
  cases node with
  | null | scalar | sequence | map => simp [Node.flow, flowHeads]

/-- The other texts must differ from each other and begin unlike flow style. -/
theorem styled_loads {known : List (Node × Text)} (distinct : (known.map Prod.snd).Nodup)
    (apart : ∀ pair ∈ known, pair.2.head? ∉ flowHeads) (node : Node) :
    (styled known).load ((styled known).emit node) = .ok node := by
  cases found : known.find? fun pair => pair.1.flow = node.flow with
  | none =>
    have unknown : known.find? (fun pair => pair.2 = node.flow) = none := by
      rw [List.find?_eq_none]
      intro pair member
      have different : pair.2 ≠ node.flow := fun same => apart pair member (same ▸ head_flow node)
      simpa using different
    have parsed := parse_flow node [] node.flow.length (Nat.le_refl _)
    rw [List.append_nil] at parsed
    simp only [styled, found, unknown, parsed]
  | some pair =>
    have member := List.mem_of_find?_eq_some found
    have same : pair.1 = node := flow_injective (by simpa using List.find?_some found)
    have known' : known.find? (fun other => other.2 = pair.2) = some pair := by
      cases result : known.find? (fun other => other.2 = pair.2) with
      | none =>
        have absent := List.find?_eq_none.mp result pair member
        simp at absent
      | some other =>
        have text : other.2 = pair.2 := by simpa using List.find?_some result
        exact congrArg some (List.inj_on_of_nodup_map distinct (List.mem_of_find?_eq_some result) member text)
    simp only [styled, found, known', same]

end Sylar.Yaml
