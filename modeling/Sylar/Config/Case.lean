import Sylar.Config.Keys

/-! When a load ignores the case of keys. Whether it does is seen by the variables alone;
a listener that refuses every text up to a given list tells any two lists of texts apart. -/
namespace Sylar

open Library Yaml

section Recorder

/-- The texts given to a name, in order. -/
def textsOf (name : Text) (given : List (Text × Text)) : List Text :=
  (given.filter fun pair => pair.1 = name).map Prod.snd

theorem textsOf_cons (other name text : Text) (rest : List (Text × Text)) :
    textsOf other ((name, text) :: rest) =
      if name = other then text :: textsOf other rest else textsOf other rest := by
  unfold textsOf
  split_ifs with same
  · simp [same]
  · simp [same]

theorem textsOf_map (name : Text) (f : α → Text × Text) (test : α → Prop) [DecidablePred test] (l : List α) :
    textsOf name ((l.filter fun a => test a).map f) =
      (l.filter fun a => test a ∧ (f a).1 = name).map fun a => (f a).2 := by
  rw [textsOf, List.filter_map, List.map_map, List.filter_filter]
  apply congrArg
  apply List.filter_congr
  intro a _
  simp [Bool.and_comm]

/-- If one test is the stronger and what passes it maps to the same list, the tests agree. -/
theorem agree_of_map_filter {p q : α → Prop} [DecidablePred p] [DecidablePred q] {f g : α → β} {l : List α}
    (fewer : ∀ a, p a → q a) (same : (l.filter fun a => p a).map f = (l.filter fun a => q a).map g) :
    ∀ a ∈ l, q a → p a ∧ f a = g a := by
  have kept : (l.filter fun a => p a) = l.filter fun a => q a := by
    apply List.Sublist.eq_of_length
    · apply List.monotone_filter_right
      intro a passes
      exact decide_eq_true (fewer a (of_decide_eq_true passes))
    · simpa using congrArg List.length same
  intro a member passes
  have inside : a ∈ l.filter fun a => q a := List.mem_filter.mpr ⟨member, decide_eq_true passes⟩
  have stronger : a ∈ l.filter fun a => p a := kept ▸ inside
  rw [kept] at same
  exact ⟨of_decide_eq_true (List.mem_filter.mp stronger).2, List.map_inj_left.mp same a inside⟩

/-- Keeps a record of the new values of a variable, and refuses them until the record is
the target. -/
def record (target : List Text) (name : Text) : OnChange (Option Text) (Text → List Text) :=
  fun _ new seen =>
    let next := Function.update seen name (seen name ++ new.toList)
    if next name = target then .returns () next else .throws .standard next

/-- A variable of texts that are set or not, with this listener. -/
def recorder (target : List Text) (name : Text) (val : Option Text) :
    ConfigVar (Option Text) (Text → List Text) :=
  ⟨name, val, Table.empty.put (1, record target name)⟩

/-- It converts every text. -/
def recorderBase (target : List Text) (name : Text) (val : Option Text) : ConfigVarBase (Text → List Text) :=
  (recorder target name val).base fun text => .ok (some text)

/-- What a text does to the value and the record. -/
def recorderTake (target : List Text) (state : Option Text × List Text) (text : Text) : Option Text × List Text :=
  if state.1 = some text then state
  else if state.2 ++ [text] = target then (some text, state.2 ++ [text])
  else (state.1, state.2 ++ [text])

theorem recorder_setValue (target : List Text) (name : Text) (seen : Text → List Text) {text : Text}
    {val : Option Text} (differs : val ≠ some text) :
    ∃ events, (recorder target name val).setValue (some text) seen =
      if seen name ++ [text] = target then
        (events, recorder target name (some text), .returns () (Function.update seen name (seen name ++ [text])))
      else
        (events, recorder target name val,
          .throws .standard (Function.update seen name (seen name ++ [text]))) := by
  have differs' : (some text == (recorder target name val).val) = false :=
    beq_eq_false_iff_ne.mpr differs.symm
  have listening : (recorder target name val).cbs.entries = [(1, record target name)] := rfl
  by_cases complete : seen name ++ [text] = target
  · refine ⟨[.notified 1 val (some text), .stored (some text)], ?_⟩
    rw [if_pos complete]
    simp [ConfigVar.setValue, ConfigVar.compareAndNotify, differs', listening, notify, record, complete]
    exact ⟨rfl, rfl⟩
  · refine ⟨[.notified 1 val (some text)], ?_⟩
    rw [if_neg complete]
    simp [ConfigVar.setValue, ConfigVar.compareAndNotify, differs', listening, notify, record, complete]
    rfl

theorem recorder_fromString (target : List Text) (name text : Text) (val : Option Text)
    (seen : Text → List Text) :
    (recorderBase target name val).fromString text seen =
      (recorderBase target name (recorderTake target (val, seen name) text).1,
        .returns false (Function.update seen name (recorderTake target (val, seen name) text).2)) := by
  have converted (events after outcome)
      (called : (recorder target name val).fromString (fun text => .ok (some text)) text seen =
        (events, after, outcome)) :
      (recorderBase target name val).fromString text seen = (after.base fun text => .ok (some text), outcome) :=
    congrArg (fun result => (result.2.1.base fun text => .ok (some text), result.2.2)) called
  by_cases same : val = some text
  · have unchanged : recorderTake target (val, seen name) text = (val, seen name) := if_pos same
    have equal : (some text == (recorder target name val).val) = true := by simp [recorder, same]
    rw [unchanged, Function.update_eq_self]
    apply converted []
    simp [ConfigVar.fromString, ConfigVar.setValue, ConfigVar.compareAndNotify, equal]
  · obtain ⟨events, set⟩ := recorder_setValue target name seen same
    by_cases complete : seen name ++ [text] = target
    · have taken : recorderTake target (val, seen name) text = (some text, seen name ++ [text]) := by
        rw [recorderTake, if_neg same, if_pos complete]
      rw [if_pos complete] at set
      rw [taken]
      apply converted events
      simp [ConfigVar.fromString, set]
    · have taken : recorderTake target (val, seen name) text = (val, seen name ++ [text]) := by
        rw [recorderTake, if_neg same, if_neg complete]
      rw [if_neg complete] at set
      rw [taken]
      apply converted events
      simp [ConfigVar.fromString, set]

/-- Up to the target the record is all that was given; from there on it is too long for
the target. -/
theorem recorderTake_all {target : List Text} (some_target : target ≠ []) (texts : List Text) :
    (texts.foldl (recorderTake target) (none, []) = (none, texts) ∧ ¬ target <+: texts) ∨
    ((texts.foldl (recorderTake target) (none, [])).1 ≠ none ∧ target <+: texts ∧
      target.length ≤ (texts.foldl (recorderTake target) (none, [])).2.length) := by
  induction texts using List.reverseRecOn with
  | nil => exact .inl ⟨rfl, mt List.prefix_nil.mp some_target⟩
  | append_singleton texts text ih =>
    rw [List.foldl_append, List.foldl_cons, List.foldl_nil]
    rcases ih with ⟨state, not_yet⟩ | ⟨set, reached, long⟩
    · rw [state]
      by_cases complete : texts ++ [text] = target
      · have taken : recorderTake target (none, texts) text = (some text, texts ++ [text]) := by
          rw [recorderTake, if_neg (Option.some_ne_none text).symm, if_pos complete]
        refine .inr ⟨?_, ?_, ?_⟩
        · simp [taken]
        · exact ⟨[], by rw [List.append_nil, complete]⟩
        · rw [taken, complete]
      · have taken : recorderTake target (none, texts) text = (none, texts ++ [text]) := by
          rw [recorderTake, if_neg (Option.some_ne_none text).symm, if_neg complete]
        refine .inl ⟨taken, ?_⟩
        intro reached
        rcases List.prefix_concat_iff.mp reached with rfl | before
        · exact complete rfl
        · exact not_yet before
    · set state := texts.foldl (recorderTake target) (none, []) with state_def
      refine .inr ⟨?_, reached.trans (List.prefix_append texts [text]), ?_⟩
      · unfold recorderTake
        split_ifs
        · exact set
        · exact Option.some_ne_none text
        · exact set
      · unfold recorderTake
        split_ifs
        · exact long
        · simp only [List.length_append]
          omega
        · simp only [List.length_append]
          omega

/-- The value is set exactly if the target is a beginning of the texts. -/
theorem recorderTake_set_iff {target : List Text} (some_target : target ≠ []) (texts : List Text) :
    (texts.foldl (recorderTake target) (none, [])).1 ≠ none ↔ target <+: texts := by
  rcases recorderTake_all some_target texts with ⟨state, not_yet⟩ | ⟨set, reached, _⟩
  · rw [state]
    exact ⟨fun set => absurd rfl set, fun reached => absurd reached not_yet⟩
  · exact ⟨fun _ => reached, fun _ => set⟩

/-- The variables of these names are recorders in these states, and there are no others. -/
structure Recording (target names : List Text) (state : Text → Option Text × List Text)
    (datas : ConfigVarMap (Text → List Text)) : Prop where
  inside : ∀ name ∈ names, datas.find? name = some (recorderBase target name (state name).1)
  outside : ∀ name, name ∉ names → datas.find? name = none

/-- Every recorder takes the texts of its own name. -/
theorem loadTexts_recording {target names : List Text} (given : List (Text × Text))
    (state : Text → Option Text × List Text) (datas : ConfigVarMap (Text → List Text))
    (recording : Recording target names state datas) :
    Recording target names (fun name => (textsOf name given).foldl (recorderTake target) (state name))
      (loadTexts given datas fun name => (state name).2).1 := by
  induction given generalizing state datas with
  | nil => exact recording
  | cons pair rest ih =>
    obtain ⟨name, text⟩ := pair
    by_cases inside : name ∈ names
    · set next := Function.update state name (recorderTake target (state name) text) with next_def
      have states : (fun other => (textsOf other ((name, text) :: rest)).foldl (recorderTake target) (state other)) =
          fun other => (textsOf other rest).foldl (recorderTake target) (next other) := by
        funext other
        rw [textsOf_cons, next_def, Function.update_apply]
        by_cases same : name = other
        · rw [if_pos same, if_pos same.symm, List.foldl_cons, same]
        · rw [if_neg same, if_neg (Ne.symm same)]
      have seen : (Function.update (fun name => (state name).2) name (recorderTake target (state name) text).2) =
          fun name => (next name).2 := by
        funext other
        rw [next_def, Function.update_apply, Function.update_apply]
        split_ifs <;> rfl
      have recording_next : Recording target names next
          (datas.put (recorderBase target name (recorderTake target (state name) text).1)) := by
        have named : (recorderBase target name (recorderTake target (state name) text).1).getName = name := rfl
        constructor
        · intro other member
          rw [Table.find?_put, recording.inside other member, next_def, Function.update_apply, named]
          by_cases same : name = other
          · rw [if_pos same, if_pos same.symm, same]
          · rw [if_neg same, if_neg (Ne.symm same)]
        · intro other absent
          have apart : name ≠ other := ne_of_mem_of_not_mem inside absent
          rw [Table.find?_put, recording.outside other absent, named, if_neg apart]
      rw [states, loadTexts, recording.inside name inside]
      dsimp only
      rw [recorder_fromString, seen]
      exact ih next _ recording_next
    · have loaded := ih state datas recording
      rw [loadTexts, recording.outside name inside]
      refine ⟨?_, loaded.outside⟩
      intro other member
      have apart : name ≠ other := (ne_of_mem_of_not_mem member inside).symm
      rw [textsOf_cons, if_neg apart]
      exact loaded.inside other member

/-- A registry of recorders that have recorded nothing. -/
def recorders (target : List Text) : List Text → ConfigVarMap (Text → List Text)
  | [] => .empty
  | name :: rest => (recorders target rest).put (recorderBase target name none)

theorem recording_recorders (target names : List Text) :
    Recording target names (fun _ => (none, [])) (recorders target names) := by
  induction names with
  | nil => exact ⟨nofun, fun _ _ => rfl⟩
  | cons first rest ih =>
    have named : (recorderBase target first none).getName = first := rfl
    constructor
    · intro name member
      rw [recorders, Table.find?_put, named]
      by_cases same : first = name
      · rw [if_pos same, same]
      · rw [if_neg same]
        exact ih.inside name (List.mem_of_ne_of_mem (Ne.symm same) member)
    · intro name absent
      obtain ⟨apart, absent⟩ := not_or.mp (mt List.mem_cons.mpr absent)
      rw [recorders, Table.find?_put, named, if_neg (Ne.symm apart)]
      exact ih.outside name absent

theorem Recording.namesOf {target names : List Text} {state : Text → Option Text × List Text}
    {datas : ConfigVarMap (Text → List Text)} (recording : Recording target names state datas) :
    NamesOf names datas := by
  intro name
  constructor
  · rintro ⟨base, found⟩
    by_contra absent
    cases (recording.outside name absent).symm.trans found
  · intro member
    exact ⟨_, recording.inside name member⟩

/-- Lists with the same beginnings are the same. -/
theorem eq_of_prefix_iff {xs ys : List α} (same : ∀ target, target ≠ [] → (target <+: xs ↔ target <+: ys)) :
    xs = ys := by
  by_cases empty : xs = []
  · by_contra apart
    have other : ys ≠ [] := by
      rintro rfl
      exact apart empty
    have inside := (same ys other).mpr (List.prefix_refl ys)
    rw [empty] at inside
    exact other (List.prefix_nil.mp inside)
  · have left : xs <+: ys := (same xs empty).mp (List.prefix_refl xs)
    have other : ys ≠ [] := by
      rintro rfl
      exact empty (List.prefix_nil.mp left)
    have right : ys <+: xs := (same ys other).mpr (List.prefix_refl ys)
    exact left.eq_of_length (Nat.le_antisymm left.length_le right.length_le)

end Recorder

section Case

variable (emit : Node → Text) (names : List Text) (root : Node)

/-- Every registry of variables with these names has the same values after loading the
document as after loading its lower-cased copy. -/
def IgnoresCase : Prop :=
  ∀ (W : Type) (datas : ConfigVarMap W) (world : W), NamesOf names datas →
    ∀ name, (loadFromYaml emit root datas world).1.find? name =
      (loadFromYaml emit (lowerKeys root) datas world).1.find? name

variable {emit names root}

/-- The recorders tell any two different lists of texts apart. -/
theorem IgnoresCase.textsOf (ignores : IgnoresCase emit names root) {name : Text} (inside : name ∈ names) :
    textsOf name (assigned emit names (listAllMember [] root)) =
      textsOf name (assigned emit names (listAllMember [] (lowerKeys root))) := by
  apply eq_of_prefix_iff
  intro target some_target
  have recording := recording_recorders target names
  have names_of := recording.namesOf
  have same := ignores _ (recorders target names) (fun _ => []) names_of name
  rw [loadFromYaml_assigned _ _ _ names_of, loadFromYaml_assigned _ _ _ names_of] at same
  have left := loadTexts_recording (assigned emit names (listAllMember [] root)) _ _ recording
  have right := loadTexts_recording (assigned emit names (listAllMember [] (lowerKeys root))) _ _ recording
  rw [left.inside name inside, right.inside name inside] at same
  have values := congrArg ConfigVar.val (ConfigVar.base_injective (Option.some.inj same))
  rw [← recorderTake_set_iff some_target, ← recorderTake_set_iff some_target]
  exact not_congr (Eq.congr_left values)

/-- A load that ignores case flattens the same nodes to a name, with the same texts. -/
theorem IgnoresCase.keysAgree (ignores : IgnoresCase emit names root) : KeysAgree emit names root := by
  intro visit member lowered
  have texts := ignores.textsOf lowered.2.2
  rw [assigned_listAllMember, assigned_lowerKeys, textsOf_map, textsOf_map] at texts
  have fewer (v : Visit) (here : v.Assigns names ∧ (v.assignment emit).1 = visit.lowered.path) :
      v.lowered.Assigns names ∧ (v.lowered.assignment emit).1 = visit.lowered.path := by
    obtain ⟨assigns, path⟩ := here
    exact ⟨(assigns.1.assigns_lowered names).mpr assigns, assigns.1.lower_path.trans path⟩
  obtain ⟨⟨assigns, _⟩, text⟩ := agree_of_map_filter fewer texts visit member ⟨lowered, rfl⟩
  exact ⟨assigns.1, text⟩

/-- Case is ignored exactly if no node comes to one of the names by lower-casing, and none
that is flattened to a name is printed with its keys. -/
theorem ignoresCase_iff (emit : Node → Text) (names : List Text) (root : Node) :
    IgnoresCase emit names root ↔ KeysAgree emit names root := by
  constructor
  · exact IgnoresCase.keysAgree
  · intro agree W datas world names_of name
    rw [loadFromYaml_assigned root datas world names_of, loadFromYaml_assigned _ datas world names_of,
      agree.assigned]

end Case

/-- A variable of texts without listeners. -/
def letter : ConfigVar Text Unit := ⟨['a'], ['0'], .empty⟩

def letterDatas : ConfigVarMap Unit := Table.empty.put (letter.base .ok)

def letterRoot : Node := .map [(.scalar ['A'], .scalar ['1'])]

/-- The key is dropped with its value, and its lower-cased copy is not. -/
theorem letterRoot_keeps_case :
    (loadFromYaml (fun _ => []) letterRoot letterDatas ()).1.find? ['a'] = some (letter.base .ok) ∧
    (loadFromYaml (fun _ => []) (lowerKeys letterRoot) letterDatas ()).1.find? ['a'] =
      some ((letter.store ['1']).base .ok) ∧
    ¬ IgnoresCase (fun _ => []) [['a']] letterRoot := by
  have before : (loadFromYaml (fun _ => []) letterRoot letterDatas ()).1.find? ['a'] =
      some (letter.base .ok) := rfl
  have after : (loadFromYaml (fun _ => []) (lowerKeys letterRoot) letterDatas ()).1.find? ['a'] =
      some ((letter.store ['1']).base .ok) := rfl
  refine ⟨before, after, ?_⟩
  intro ignores
  have names_of : NamesOf [['a']] letterDatas := by
    intro name
    have named : (letter.base .ok : ConfigVarBase Unit).getName = ['a'] := rfl
    rw [letterDatas, Table.find?_put, named, List.mem_singleton]
    split_ifs with same
    · exact ⟨fun _ => same.symm, fun _ => ⟨_, rfl⟩⟩
    · constructor
      · rintro ⟨base, found⟩
        cases found
      · intro here
        exact absurd here.symm same
  have same := ignores Unit letterDatas () names_of ['a']
  rw [before, after] at same
  have values := congrArg ConfigVar.val (ConfigVar.base_injective (Option.some.inj same))
  cases values

end Sylar
