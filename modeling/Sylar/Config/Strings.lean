import Sylar.Config.Container
import Sylar.Config.Load

/-! Variables of strings and of lists of strings. A string by itself is taken as it is,
an element of a list as the text of a node: it is loaded on the way out, and printed on
the way in. -/
namespace Sylar

open Library Yaml

/-- `boost::lexical_cast` from strings to strings. -/
def LexicalCast.text : LexicalCast Text Text where
  toText := .ok
  fromText := .ok

/-- `LexicalCast` of `std::vector<std::string>`. -/
abbrev LexicalCast.strings (yaml : YamlCpp) : LexicalCast (List Text) (List Text) := vector yaml text

/-- `toString`: a standard exception of the conversion is logged, and the text empty. -/
def ConfigVar.toString (toStr : T → Except Exn Text) (var : ConfigVar T W) : Except Exn Text :=
  match toStr var.val with
  | .error .standard => .ok []
  | result => result

section Conversions

variable {yaml : YamlCpp}

/-- All strings load, or the first that does not ends the loop. -/
theorem encodeItems_cases (yaml : YamlCpp) (texts : List Text) :
    (∃ items, encodeItems yaml .ok texts = .ok items ∧
      List.Forall₂ (fun text node => yaml.load text = .ok node) texts items) ∨
    ∃ exn, encodeItems yaml .ok texts = .error exn ∧ ∃ text ∈ texts, yaml.load text = .error exn := by
  induction texts with
  | nil => exact .inl ⟨[], rfl, .nil⟩
  | cons text rest ih =>
    simp only [encodeItems, bind, Except.bind]
    cases first : yaml.load text with
    | error exn => exact .inr ⟨exn, rfl, text, List.mem_cons_self, first⟩
    | ok node =>
      rcases ih with ⟨items, encoded, loaded⟩ | ⟨exn, failed, other, member, fails⟩
      · rw [encoded]
        exact .inl ⟨node :: items, rfl, .cons first loaded⟩
      · rw [failed]
        exact .inr ⟨exn, rfl, other, List.mem_cons_of_mem _ member, fails⟩

/-- The text of a list is its sequence, printed. -/
theorem strings_toText (texts : List Text) :
    (LexicalCast.strings yaml).toText texts =
      (encodeItems yaml .ok texts).map fun items => yaml.emit (.sequence items) := by
  cases encoded : encodeItems yaml .ok texts with
  | error exn | ok items =>
    simp only [LexicalCast.strings, LexicalCast.vector, LexicalCast.container, LexicalCast.text, encoded, bind,
      Except.bind]
    rfl

/-- Read as strings, the elements of a sequence are their printed nodes. -/
theorem decodeItems_text (front items : List Node) :
    decodeItems yaml .ok (.sequence (front ++ items)) items.length front.length = .ok (items.map yaml.emit) := by
  induction items generalizing front with
  | nil => rfl
  | cons item rest ih =>
    have here : (Node.sequence (front ++ item :: rest)).item yaml front.length = some item := by
      simp [Node.item]
    have later := ih (front ++ [item])
    rw [List.append_assoc, List.singleton_append, List.length_append, List.length_singleton] at later
    simp only [List.length_cons, decodeItems, here, printNode, later, bind, Except.bind]
    rfl

theorem strings_fromText (loads : ∀ node, yaml.load (yaml.emit node) = .ok node) (items : List Node) :
    (LexicalCast.strings yaml).fromText (yaml.emit (.sequence items)) = .ok (items.map yaml.emit) := by
  simp only [LexicalCast.strings, LexicalCast.vector, LexicalCast.container, loads, bind, Except.bind]
  exact decodeItems_text [] items

/-- A string that loading and printing gives back. -/
def Survives (yaml : YamlCpp) (s : Text) : Prop := ∃ node, yaml.load s = .ok node ∧ yaml.emit node = s

theorem survives_of_loaded {texts : List Text} {items : List Node}
    (loaded : List.Forall₂ (fun text node => yaml.load text = .ok node) texts items) :
    items.map yaml.emit = texts ↔ ∀ s ∈ texts, Survives yaml s := by
  induction loaded with
  | nil => simp
  | cons first _ ih =>
    rename_i text node texts items _
    have here : Survives yaml text ↔ yaml.emit node = text := by
      constructor
      · rintro ⟨other, loaded, printed⟩
        rw [first] at loaded
        cases loaded
        exact printed
      · intro printed
        exact ⟨node, first, printed⟩
    rw [List.map_cons, List.cons.injEq, List.forall_mem_cons, ih, here]

/-- What comes back from a list of strings: the empty list if one of them does not load,
else their nodes' texts. -/
theorem strings_trip (loads : ∀ node, yaml.load (yaml.emit node) = .ok node)
    (empty : yaml.load [] = .ok .null) (standard : ∀ text, yaml.load text ≠ .error .other)
    (var : ConfigVar (List Text) W) :
    ∃ text back, var.toString (LexicalCast.strings yaml).toText = .ok text ∧
      (LexicalCast.strings yaml).fromText text = .ok back ∧
      (back = var.val ↔ ∀ s ∈ var.val, Survives yaml s) := by
  rcases encodeItems_cases yaml var.val with
    ⟨items, encoded, loaded⟩ | ⟨exn, failed, s, member, fails⟩
  · refine ⟨yaml.emit (.sequence items), items.map yaml.emit, ?_, strings_fromText loads items, ?_⟩
    · rw [ConfigVar.toString, strings_toText, encoded]
      rfl
    · exact survives_of_loaded loaded
  · have swallowed : exn = .standard := by
      cases exn with
      | standard => rfl
      | other => exact absurd fails (standard s)
    refine ⟨[], [], ?_, ?_, ?_⟩
    · rw [ConfigVar.toString, strings_toText, failed, swallowed]
      rfl
    · simp only [LexicalCast.strings, LexicalCast.vector, LexicalCast.container, empty, bind, Except.bind]
      rfl
    · constructor
      · intro same
        rw [← same] at member
        cases member
      · intro all
        obtain ⟨node, loaded, _⟩ := all s member
        rw [fails] at loaded
        cases loaded

end Conversions

/-- A text that converts is what a variable with quiet listeners holds afterwards. -/
theorem ConfigVar.fromString_takes [BEq T] [LawfulBEq T] {fromStr : Text → Except Exn T} {text : Text} {v : T}
    (converted : fromStr text = .ok v) (var : ConfigVar T W) (quiet : var.AllQuiet) (world : W) :
    ∃ events next, var.fromString fromStr text world = (events, var.store v, .returns false next) := by
  obtain ⟨events, after, next, set⟩ := var.setValue_quiet v world quiet
  refine ⟨events, next, ?_⟩
  simp only [ConfigVar.fromString, converted, set]
  rcases ConfigVar.setValue_cases set with ⟨same, _, rfl, _⟩ | ⟨_, _, rfl, _⟩
  · rw [eq_of_beq same]
    rfl
  · rfl

section Restored

variable {yaml : YamlCpp}

/-- A list of strings comes back into a variable exactly if loading and printing gives
back each of the strings. -/
theorem strings_restored_iff (loads : ∀ node, yaml.load (yaml.emit node) = .ok node)
    (empty : yaml.load [] = .ok .null) (standard : ∀ text, yaml.load text ≠ .error .other)
    (var other : ConfigVar (List Text) W) (quiet : other.AllQuiet) (world : W) :
    ∃ text events after next, var.toString (LexicalCast.strings yaml).toText = .ok text ∧
      other.fromString (LexicalCast.strings yaml).fromText text world = (events, after, .returns false next) ∧
      (after = other.store var.val ↔ ∀ s ∈ var.val, Survives yaml s) := by
  obtain ⟨text, back, printed, read, restored⟩ := strings_trip loads empty standard var
  obtain ⟨events, next, taken⟩ := ConfigVar.fromString_takes read other quiet world
  refine ⟨text, events, other.store back, next, printed, taken, ?_⟩
  rw [← restored]
  constructor
  · intro same
    exact congrArg ConfigVar.val same
  · intro same
    rw [same]

end Restored

/-- Some nodes as yaml-cpp prints them. -/
def blockStrings : List (Node × Text) :=
  [(.scalar ['a'], ['a']), (.sequence [.null], "- ~".toList), (.sequence [.scalar []], "- \"\"".toList),
    (.sequence [.scalar ['a']], "- a".toList)]

/-- An empty document is a null node. -/
def stringsYaml : YamlCpp :=
  { styled blockStrings with
    load := fun text => if text = [] then .ok .null else (styled blockStrings).load text }

theorem stringsYaml_loads (node : Node) : stringsYaml.load (stringsYaml.emit node) = .ok node := by
  have loads : (styled blockStrings).load ((styled blockStrings).emit node) = .ok node :=
    styled_loads (by decide) (by decide) node
  have printed : (styled blockStrings).emit node ≠ [] := by
    intro none
    rw [none] at loads
    cases loads
  exact (if_neg printed).trans loads

theorem stringsYaml_standard (text : Text) : stringsYaml.load text ≠ .error .other := by
  simp only [stringsYaml, styled]
  split_ifs
  · simp
  · split
    · simp
    · split <;> simp

def stringsVar (val : List Text) : ConfigVar (List Text) Unit := ⟨['x'], val, .empty⟩

theorem strings_restored_iff_a :
    ∃ text events after next,
      (stringsVar [['a']]).toString (LexicalCast.strings stringsYaml).toText = .ok text ∧
      (stringsVar []).fromString (LexicalCast.strings stringsYaml).fromText text () =
        (events, after, .returns false next) ∧
      (after = (stringsVar []).store [['a']] ↔ ∀ s ∈ [['a']], Survives stringsYaml s) :=
  strings_restored_iff stringsYaml_loads rfl stringsYaml_standard (stringsVar [['a']]) (stringsVar [])
    (by intro entry member; cases member) ()

/-- The empty string is loaded as null and comes back as `~`. -/
theorem strings_restored_empty :
    (stringsVar [[]]).toString (LexicalCast.strings stringsYaml).toText = .ok "- ~".toList ∧
    ((stringsVar []).fromString (LexicalCast.strings stringsYaml).fromText "- ~".toList ()).2 =
      ((stringsVar []).store [['~']], .returns false ()) ∧
    (stringsVar []).store [['~']] ≠ (stringsVar []).store [[]] :=
  ⟨rfl, rfl, fun same => by cases congrArg ConfigVar.val same⟩

/-- How yaml-cpp prints scalars: a safe plain text as it is, any other quoted, its
characters escaped. -/
structure ScalarStyle (yaml : YamlCpp) where
  safe : Text → Prop
  escape : Text → Text
  longer : ∀ s, s.length ≤ (escape s).length
  plain : ∀ s, safe s → yaml.emit (.scalar s) = s
  quoted : ∀ s, ¬ safe s → yaml.emit (.scalar s) = '"' :: (escape s ++ ['"'])

/-- The safe texts are those printed as they are. -/
theorem ScalarStyle.emit_iff {yaml : YamlCpp} (style : ScalarStyle yaml) (s : Text) :
    yaml.emit (.scalar s) = s ↔ style.safe s := by
  constructor
  · intro same
    by_contra unsafe_text
    have printed := style.quoted s unsafe_text
    have long := style.longer s
    have length := congrArg List.length (same.symm.trans printed)
    simp only [List.length_cons, List.length_append, List.length_nil] at length
    omega
  · exact style.plain s

/-- The last text settles a variable whose equality is that of its values. -/
theorem ConfigVar.settled_last [BEq T] [LawfulBEq T] {fromStr : Text → Except Exn T} {text : Text} {v : T}
    (converted : fromStr text = .ok v) (var : ConfigVar T W) (front : List Text) :
    (var.base fromStr).settled (front ++ [text]) = (var.store v).base fromStr := by
  have last (old : T) : settle old v = v := by
    rcases settle_cases old v with ⟨same, kept⟩ | ⟨_, taken⟩
    · rw [kept, eq_of_beq same]
    · exact taken
  have step (old : T) : (var.base fromStr).settle old text = v := by
    simp only [ConfigVarBase.settle, base, settleBy, converted]
    exact last old
  rw [ConfigVarBase.settled, List.foldl_append, List.foldl_cons, List.foldl_nil]
  exact congrArg (var.base fromStr).withVal (step _)

section Written

variable {yaml : YamlCpp} {W : Type v}

/-- The last entry of the document that reaches a variable. -/
def GivenLast (emit : Node → Text) (root : Node) (datas : ConfigVarMap W) (name : Text) (node : Node) : Prop :=
  ∃ front, (reached emit datas (listAllMember [] root)).filter (fun entry => entry.1 = name) =
    front ++ [(name, node)]

theorem GivenLast.offered {emit : Node → Text} {root : Node} {datas : ConfigVarMap W} {name : Text} {node : Node}
    (given : GivenLast emit root datas name node) :
    ∃ front, offered emit name (reached emit datas (listAllMember [] root)) = front ++ [nodeText emit node] := by
  obtain ⟨front, last⟩ := given
  exact ⟨front.map fun entry => nodeText emit entry.2, by simp [Sylar.offered, last]⟩

/-- A list of strings is loaded as written exactly if all its strings are safe plain
scalars. A string by itself always is. -/
theorem strings_load_iff (style : ScalarStyle yaml) (loads : ∀ node, yaml.load (yaml.emit node) = .ok node)
    (root : Node) (datas : ConfigVarMap W) (world : W) (calm : ∀ base ∈ datas.entries, base.Calm) :
    ∃ final outcome next, loadFromYaml yaml.emit root datas world = (final, outcome) ∧
      outcome.world? = some next ∧
      (∀ (var : ConfigVar (List Text) W) (ss : List Text),
        datas.find? var.name = some (var.base (LexicalCast.strings yaml).fromText) →
        GivenLast yaml.emit root datas var.name (.sequence (ss.map .scalar)) →
        (final.find? var.name = some ((var.store ss).base (LexicalCast.strings yaml).fromText) ↔
          ∀ s ∈ ss, style.safe s)) ∧
      ∀ (var : ConfigVar Text W) (s : Text),
        datas.find? var.name = some (var.base LexicalCast.text.fromText) →
        GivenLast yaml.emit root datas var.name (.scalar s) →
        final.find? var.name = some ((var.store s).base LexicalCast.text.fromText) := by
  obtain ⟨final, outcome, next, loaded, ended, _, values⟩ :=
    loadNodes_values yaml.emit (listAllMember [] root) datas world calm (valid_listAllMember root)
  refine ⟨final, outcome, next, loaded, ended, ?_, ?_⟩
  · intro var ss registered given
    obtain ⟨front, last⟩ := given.offered
    have read : (LexicalCast.strings yaml).fromText (yaml.emit (.sequence (ss.map .scalar))) =
        .ok ((ss.map Node.scalar).map yaml.emit) := strings_fromText loads _
    rw [values, registered, last]
    simp only [Option.map_some, nodeText, ConfigVar.settled_last read]
    rw [Option.some.injEq]
    have each : (ss.map Node.scalar).map yaml.emit = ss ↔ ∀ s ∈ ss, style.safe s := by
      have same := List.map_inj_left (f := yaml.emit ∘ Node.scalar) (g := id) (l := ss)
      rw [List.map_id] at same
      rw [List.map_map, same]
      exact forall₂_congr fun s _ => style.emit_iff s
    rw [← each]
    constructor
    · intro same
      exact congrArg ConfigVar.val (ConfigVar.base_injective same)
    · intro same
      rw [same]
  · intro var s registered given
    obtain ⟨front, last⟩ := given.offered
    rw [values, registered, last]
    exact congrArg some (ConfigVar.settled_last rfl var front)

end Written

/-- Of all texts only `a` is printed plain. -/
def stringsStyle : ScalarStyle stringsYaml where
  safe s := s = ['a']
  escape s := (quote s).dropLast
  longer s := by
    have long := length_quote s
    rw [List.length_dropLast]
    omega
  plain s same := by
    rw [same]
    rfl
  quoted s other := by
    have unknown : blockStrings.find? (fun pair => pair.1.flow = (Node.scalar s).flow) = none := by
      rw [List.find?_eq_none]
      intro pair member
      suffices differ : pair.1 ≠ .scalar s by simpa using fun same => differ (flow_injective same)
      rintro same
      simp only [blockStrings, List.mem_cons, List.not_mem_nil, or_false] at member
      rcases member with rfl | rfl | rfl | rfl
      · cases same
        exact other rfl
      all_goals cases same
    rw [quote_last]
    simp only [stringsYaml, styled, unknown]
    rfl

def stringsDatas : ConfigVarMap Unit :=
  Table.empty.put ((stringsVar []).base (LexicalCast.strings stringsYaml).fromText)

/-- The variable is given a list of one string. -/
def stringsRoot (s : Text) : Node := .map [(.scalar ['x'], .sequence [.scalar s])]

theorem strings_load_iff_a :
    ∃ final outcome next,
      loadFromYaml stringsYaml.emit (stringsRoot ['a']) stringsDatas () = (final, outcome) ∧
      outcome.world? = some next ∧
      (final.find? ['x'] =
        some (((stringsVar []).store [['a']]).base (LexicalCast.strings stringsYaml).fromText) ↔
        ∀ s ∈ [['a']], stringsStyle.safe s) := by
  obtain ⟨final, outcome, next, loaded, ended, lists, _⟩ :=
    strings_load_iff stringsStyle stringsYaml_loads (stringsRoot ['a']) stringsDatas ()
      (by
        intro base member
        obtain rfl := List.mem_singleton.mp member
        intro entry inside
        cases inside)
  exact ⟨final, outcome, next, loaded, ended, lists (stringsVar []) [['a']] rfl ⟨[], rfl⟩⟩

/-- The empty string arrives with the quotes that it was printed in. -/
theorem strings_load_empty :
    ∃ final, loadFromYaml stringsYaml.emit (stringsRoot []) stringsDatas () = (final, .returns () ()) ∧
      final.find? ['x'] =
        some (((stringsVar []).store [['"', '"']]).base (LexicalCast.strings stringsYaml).fromText) ∧
      final.find? ['x'] ≠
        some (((stringsVar []).store [[]]).base (LexicalCast.strings stringsYaml).fromText) := by
  refine ⟨_, rfl, rfl, ?_⟩
  intro same
  have stored : (stringsVar []).store [['"', '"']] = (stringsVar []).store [[]] :=
    ConfigVar.base_injective (Option.some.inj same)
  cases congrArg ConfigVar.val stored

end Sylar
