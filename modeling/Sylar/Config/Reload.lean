import Sylar.Config.Load

/-! Loading the same configuration twice. The second load finds every variable settled
by the first one; it calls listeners where two entries of the tree disagree about one
variable. -/
namespace Sylar

open Library Yaml

/-- The listener that an event is a call of. -/
def Event.listener? : Event T → Option Nat
  | .notified id _ _ => some id
  | .stored _ => none

namespace ConfigVarBase

variable {W : Type v}

/-- The listeners that `fromString` calls, each by its variable and its id. -/
def called (text : Text) (base : ConfigVarBase W) (world : W) : List (Text × Nat) :=
  letI := base.beq
  ((base.var.fromString base.fromStr text world).1.filterMap Event.listener?).map fun id =>
    (base.getName, id)

/-- One call of every listener. -/
def round (base : ConfigVarBase W) : List (Text × Nat) :=
  base.var.ids.map fun id => (base.getName, id)

/-- How often texts replace the value. -/
def changes (base : ConfigVarBase W) (texts : List Text) : Nat :=
  letI := base.beq
  Library.changes base.var.val (conversions base.fromStr texts)

theorem changes_cons (base : ConfigVarBase W) (text : Text) (rest : List Text) :
    base.changes (text :: rest) =
      base.changes [text] + (base.withVal (base.settle base.var.val text)).changes rest := by
  let _ := base.beq
  simp only [changes, withVal, ConfigVar.store, settle, settleBy]
  cases converted : base.fromStr text with
  | error exn =>
    simp only [conversions_error converted, conversions_nil, Library.changes, Nat.zero_add]
    rfl
  | ok v =>
    simp only [conversions_ok converted, conversions_nil, Library.changes, Nat.add_zero]
    rfl

/-- With quiet listeners each replacement calls all of them. -/
theorem called_calm {base : ConfigVarBase W} (calm : base.Calm) (text : Text) (world : W) :
    base.called text world = (List.replicate (base.changes [text]) base.round).flatten := by
  let _ := base.beq
  simp only [called, changes]
  cases converted : base.fromStr text with
  | error exn =>
    rw [conversions_error converted]
    cases exn <;> simp [ConfigVar.fromString, converted, Library.changes]
  | ok v =>
    obtain ⟨events, after, next, set⟩ := base.var.setValue_quiet v world calm
    simp only [ConfigVar.fromString, converted, set, conversions_ok converted, conversions_nil,
      Library.changes]
    rcases ConfigVar.setValue_cases set with ⟨same, rfl, _, _⟩ | ⟨differs, rfl, _⟩
    · simp [same]
    · simp [differs, ConfigVar.notices, Event.listener?, round, Function.comp_def]

/-- Texts that convert to values comparing equal, whichever two of them are taken. -/
def Agree (base : ConfigVarBase W) (texts : List Text) : Prop :=
  ∀ a ∈ texts, ∀ b ∈ texts, a ≠ b → ∀ v w, base.fromStr a = .ok v → base.fromStr b = .ok w →
    base.beq.beq v w = true

def Reflexive (base : ConfigVarBase W) : Prop := ∀ v, base.beq.beq v v = true

def Equivalence (base : ConfigVarBase W) : Prop :=
  letI := base.beq
  EquivBEq base.T

theorem Reflexive.agree_iff {base : ConfigVarBase W} (reflexive : base.Reflexive) (texts : List Text) :
    base.Agree texts ↔ ∀ v ∈ conversions base.fromStr texts, ∀ w ∈ conversions base.fromStr texts,
      base.beq.beq v w = true := by
  constructor
  · intro agree v hv w hw
    obtain ⟨a, inside, first⟩ := mem_conversions.mp hv
    obtain ⟨b, inside', second⟩ := mem_conversions.mp hw
    by_cases same : a = b
    · rw [same, second] at first
      cases first
      exact reflexive v
    · exact agree a inside b inside' same v w first second
  · intro all a inside b inside' _ v w first second
    exact all v (mem_conversions.mpr ⟨a, inside, first⟩) w (mem_conversions.mpr ⟨b, inside', second⟩)

theorem settled_eq (base : ConfigVarBase W) (texts : List Text) :
    base.settled texts =
      base.withVal (@settleAll base.T base.beq base.var.val (conversions base.fromStr texts)) := by
  let _ := base.beq
  rw [settled, ← foldl_settleBy]
  rfl

/-- Texts that agree find nothing to replace after they have settled a variable. -/
theorem Agree.again {base : ConfigVarBase W} {texts : List Text} (agree : base.Agree texts)
    (reflexive : base.Reflexive) :
    (base.settled texts).settled texts = base.settled texts ∧ (base.settled texts).changes texts = 0 := by
  let _ := base.beq
  have fixed := beq_settleAll ((reflexive.agree_iff texts).mp agree) base.var.val
  rw [settled_eq, settled_eq]
  constructor
  · exact congrArg base.withVal (settleAll_fixed fixed)
  · exact (@changes_eq_zero_iff base.T base.beq _ _).mpr fixed

/-- If equality is an equivalence, all texts leave the same value again, and nothing is
replaced on the way exactly if they agree. -/
theorem Equivalence.again {base : ConfigVarBase W} (equivalence : base.Equivalence)
    (texts : List Text) :
    (base.settled texts).settled texts = base.settled texts ∧
      ((base.settled texts).changes texts = 0 ↔ base.Agree texts) := by
  have reflexive : base.Reflexive := fun v => @BEq.rfl base.T base.beq equivalence.toReflBEq v
  rw [settled_eq, settled_eq, reflexive.agree_iff]
  constructor
  · exact congrArg base.withVal (@settleAll_idem base.T base.beq equivalence _ _)
  · exact @changes_settleAll_iff base.T base.beq equivalence _ _

end ConfigVarBase

section Calls

variable {W : Type v} (emit : Node → Text)

/-- The listeners that the second loop of `LoadFromYaml` calls, in order. -/
def loadCalls : List (Text × Node) → ConfigVarMap W → W → List (Text × Nat)
  | [], _, _ => []
  | (key, node) :: rest, datas, world =>
    if key = [] then loadCalls rest datas world
    else
      match datas.find? (key.map Char.toLower) with
      | none => loadCalls rest datas world
      | some v =>
        v.called (nodeText emit node) world ++
          match v.fromString (nodeText emit node) world with
          | (v', .returns _ next) => loadCalls rest (datas.put v') next
          | _ => []

/-- All calls for one variable: a round for each replacement. -/
theorem loadCalls_filter (name : Text) (nodes : List (Text × Node)) (datas : ConfigVarMap W) (world : W)
    (calm : ∀ base ∈ datas.entries, base.Calm) (valid : ∀ entry ∈ nodes, ValidName entry.1) :
    ((loadCalls emit nodes datas world).filter fun call => call.1 = name) =
      match datas.find? name with
      | none => []
      | some base =>
        (List.replicate (base.changes (offered emit name (reached emit datas nodes))) base.round).flatten := by
  induction nodes generalizing datas world with
  | nil =>
    cases found : datas.find? name with
    | none => rfl
    | some base => rfl
  | cons entry rest ih =>
    obtain ⟨key, node⟩ := entry
    obtain ⟨validKey, validRest⟩ := List.forall_mem_cons.mp valid
    by_cases empty : key = []
    · rw [empty, reached_empty, ← ih datas world calm validRest]
      simp [loadCalls]
    have lower : key.map Char.toLower = key := ValidName.lower validKey
    cases found : datas.find? key with
    | none =>
      have goes : stops emit datas (key, node) = false := stops_absent validKey found node
      rw [reached_goes empty goes, loadCalls, if_neg empty, lower, found, ih datas world calm validRest]
      cases other : datas.find? name with
      | none => rfl
      | some base =>
        have apart : key ≠ name := by
          rintro rfl
          cases found.symm.trans other
        simp only [offered_other apart]
    | some base =>
      obtain ⟨member, sameName⟩ := (Table.find?_eq_some_iff _ _ _).mp found
      have own : ∀ call ∈ base.called (nodeText emit node) world, call.1 = key := by
        intro call inside
        obtain ⟨id, _, rfl⟩ := List.mem_map.mp inside
        exact sameName
      rw [loadCalls, if_neg empty, lower, found, List.filter_append]
      rcases ConfigVarBase.fromString_calm (calm base member) (nodeText emit node) world with
        ⟨thrown, called⟩ | ⟨caught, next, called⟩
      · have here : stops emit datas (key, node) = true := (stops_found validKey found node).trans thrown
        have silent : base.called (nodeText emit node) world = [] := by
          simp [ConfigVarBase.called, ConfigVar.fromString, escapes_iff.mp thrown]
        rw [reached_stops empty here, silent, called]
        cases datas.find? name with
        | none | some => rfl
      · have goes : stops emit datas (key, node) = false := (stops_found validKey found node).trans caught
        rw [called, ih _ next (calm_put _ found calm) validRest, reached_put _ found,
          reached_goes empty goes, Table.find?_put]
        have named : (base.withVal (base.settle base.var.val (nodeText emit node))).getName = key := sameName
        rw [named]
        by_cases same : key = name
        · rw [← same, found, if_pos rfl]
          dsimp only
          rw [offered_same, ConfigVarBase.changes_cons, List.replicate_add, List.flatten_append,
            ← ConfigVarBase.called_calm (calm base member) _ world]
          have all : (base.called (nodeText emit node) world).filter (fun call => call.1 = key) =
              base.called (nodeText emit node) world := by
            apply List.filter_eq_self.mpr
            intro call inside
            simpa using own call inside
          rw [all]
          rfl
        · have none_here : (base.called (nodeText emit node) world).filter (fun call => call.1 = name) = [] := by
            apply List.filter_eq_nil_iff.mpr
            intro call inside
            simpa [own call inside] using same
          rw [none_here, if_neg same, offered_other same]
          rfl

/-- Variables with other values are reached by the same entries. -/
theorem reached_settled {datas final : ConfigVarMap W} {texts : Text → List Text}
    (values : ∀ name, final.find? name = (datas.find? name).map fun base => base.settled (texts name))
    (nodes : List (Text × Node)) : reached emit final nodes = reached emit datas nodes := by
  have same : stops emit final = stops emit datas := by
    funext entry
    unfold stops
    rw [values]
    cases datas.find? (entry.1.map Char.toLower) with
    | none | some => rfl
  rw [reached, same]
  rfl

end Calls

section Reload

variable {W : Type v} (emit : Node → Text)

/-- The texts that a tree offers to a variable, up to the entry whose conversion throws
what is not caught. -/
def ConfigVarBase.offers (root : Node) (datas : ConfigVarMap W) (base : ConfigVarBase W) : List Text :=
  offered emit base.getName (reached emit datas (listAllMember [] root))

/-- What two loads leave in a variable, and the calls that the second one makes for it. -/
theorem reload_variable (root : Node) (datas : ConfigVarMap W) (world : W)
    (calm : ∀ base ∈ datas.entries, base.Calm) :
    ∃ first outcome next second again last,
      loadFromYaml emit root datas world = (first, outcome) ∧ outcome.world? = some next ∧
      loadFromYaml emit root first next = (second, again) ∧ again.world? = some last ∧
      ∀ name,
        (datas.find? name = none → first.find? name = none ∧ second.find? name = none ∧
          ∀ call ∈ loadCalls emit (listAllMember [] root) first next, call.1 ≠ name) ∧
        ∀ base, datas.find? name = some base →
          first.find? name = some (base.settled (base.offers emit root datas)) ∧
          second.find? name =
            some ((base.settled (base.offers emit root datas)).settled (base.offers emit root datas)) ∧
          ((∀ call ∈ loadCalls emit (listAllMember [] root) first next, call.1 ≠ name) ↔
            (base.settled (base.offers emit root datas)).changes (base.offers emit root datas) = 0 ∨
              base.var.ids = []) := by
  have valid := valid_listAllMember root
  obtain ⟨first, outcome, next, loaded, ended, _, values⟩ :=
    loadNodes_values emit (listAllMember [] root) datas world calm valid
  have calm' : ∀ base ∈ first.entries, base.Calm := by
    intro base member
    have found := values base.getName
    rw [(Table.find?_eq_some_iff _ _ _).mpr ⟨member, rfl⟩] at found
    obtain ⟨before, was, same⟩ := Option.map_eq_some_iff.mp found.symm
    have quiet : before.Calm := calm before ((Table.find?_eq_some_iff _ _ _).mp was).1
    exact same ▸ quiet
  obtain ⟨second, again, last, loaded', ended', _, values'⟩ :=
    loadNodes_values emit (listAllMember [] root) first next calm' valid
  refine ⟨first, outcome, next, second, again, last, loaded, ended, loaded', ended', ?_⟩
  intro name
  have uncalled : (∀ call ∈ loadCalls emit (listAllMember [] root) first next, call.1 ≠ name) ↔
      (loadCalls emit (listAllMember [] root) first next).filter (fun call => call.1 = name) = [] := by
    simp [List.filter_eq_nil_iff]
  rw [uncalled, loadCalls_filter emit name _ first next calm' valid, values', values,
    reached_settled emit values]
  constructor
  · intro absent
    simp [absent]
  · intro base found
    have named : base.getName = name := ((Table.find?_eq_some_iff _ _ _).mp found).2
    rw [found, ← named]
    refine ⟨rfl, rfl, ?_⟩
    have rounds : (base.settled (base.offers emit root datas)).round = [] ↔ base.var.ids = [] :=
      List.map_eq_nil_iff
    rw [← rounds]
    simp [List.flatten_eq_nil_iff, ConfigVarBase.offers, or_iff_not_imp_left]

/-- A second load leaves every variable whose entries agree as it is and calls none of
its listeners. If equality is an equivalence no variable changes at all, and those with
listeners and entries that disagree are the ones that call them. -/
theorem reload_silent (root : Node) (datas : ConfigVarMap W) (world : W)
    (calm : ∀ base ∈ datas.entries, base.Calm) (reflexive : ∀ base ∈ datas.entries, base.Reflexive) :
    ∃ first outcome next second again last,
      loadFromYaml emit root datas world = (first, outcome) ∧ outcome.world? = some next ∧
      loadFromYaml emit root first next = (second, again) ∧ again.world? = some last ∧
      ((∀ base ∈ datas.entries, base.Agree (base.offers emit root datas)) →
        (∀ name, second.find? name = first.find? name) ∧
          loadCalls emit (listAllMember [] root) first next = []) ∧
      ∀ base ∈ datas.entries,
        (base.Agree (base.offers emit root datas) →
          second.find? base.getName = first.find? base.getName ∧
          ∀ call ∈ loadCalls emit (listAllMember [] root) first next, call.1 ≠ base.getName) ∧
        (base.Equivalence →
          second.find? base.getName = first.find? base.getName ∧
          ((∀ call ∈ loadCalls emit (listAllMember [] root) first next, call.1 ≠ base.getName) ↔
            base.Agree (base.offers emit root datas) ∨ base.var.ids = [])) := by
  obtain ⟨first, outcome, next, second, again, last, loaded, ended, loaded', ended', holds⟩ :=
    reload_variable emit root datas world calm
  refine ⟨first, outcome, next, second, again, last, loaded, ended, loaded', ended', ?_⟩
  have agreed (base : ConfigVarBase W) (member : base ∈ datas.entries)
      (agree : base.Agree (base.offers emit root datas)) :
      second.find? base.getName = first.find? base.getName ∧
        ∀ call ∈ loadCalls emit (listAllMember [] root) first next, call.1 ≠ base.getName := by
    obtain ⟨once, twice, calls⟩ :=
      (holds base.getName).2 base ((Table.find?_eq_some_iff _ _ _).mpr ⟨member, rfl⟩)
    obtain ⟨fixed, none_left⟩ := agree.again (reflexive base member)
    exact ⟨by rw [once, twice, fixed], calls.mpr (.inl none_left)⟩
  refine ⟨?_, ?_⟩
  · intro all
    constructor
    · intro name
      cases found : datas.find? name with
      | none =>
        obtain ⟨once, twice, _⟩ := (holds name).1 found
        rw [once, twice]
      | some base =>
        obtain ⟨member, rfl⟩ := (Table.find?_eq_some_iff _ _ _).mp found
        exact (agreed base member (all base member)).1
    · apply List.eq_nil_iff_forall_not_mem.mpr
      intro call inside
      cases found : datas.find? call.1 with
      | none => exact ((holds call.1).1 found).2.2 call inside rfl
      | some base =>
        obtain ⟨member, named⟩ := (Table.find?_eq_some_iff _ _ _).mp found
        exact (agreed base member (all base member)).2 call inside named.symm
  · intro base member
    refine ⟨agreed base member, ?_⟩
    intro equivalence
    obtain ⟨once, twice, calls⟩ :=
      (holds base.getName).2 base ((Table.find?_eq_some_iff _ _ _).mpr ⟨member, rfl⟩)
    obtain ⟨fixed, disagree⟩ := equivalence.again (base.offers emit root datas)
    rw [once, twice, fixed, calls, disagree]
    exact ⟨rfl, Iff.rfl⟩

end Reload

/-- A variable of texts with a listener that counts its calls. -/
def countedVar : ConfigVarBase Nat :=
  ⟨Text, inferInstance, .ok,
    ⟨['a', '.', 'b'], ['0'], Table.empty.put (1, fun _ _ count => .returns () (count + 1))⟩⟩

def countedDatas : ConfigVarMap Nat := Table.empty.put countedVar

theorem countedDatas_calm : ∀ base ∈ countedDatas.entries, base.Calm := by
  intro base member
  obtain rfl := List.mem_singleton.mp member
  intro entry inside old new count
  rw [List.mem_singleton.mp inside]
  exact ⟨count + 1, rfl⟩

theorem countedDatas_reflexive : ∀ base ∈ countedDatas.entries, base.Reflexive := by
  intro base member
  rw [List.mem_singleton.mp member]
  exact fun v => beq_self_eq_true (α := Text) v

/-- One entry for the variable. -/
def singleRoot : Node := .map [(.scalar ['a'], .map [(.scalar ['b'], .scalar ['1'])])]

theorem reload_silent_single :
    ∃ first outcome next second again last,
      loadFromYaml (fun _ => []) singleRoot countedDatas 0 = (first, outcome) ∧ outcome.world? = some next ∧
      loadFromYaml (fun _ => []) singleRoot first next = (second, again) ∧ again.world? = some last ∧
      (∀ name, second.find? name = first.find? name) ∧
        loadCalls (fun _ => []) (listAllMember [] singleRoot) first next = [] := by
  obtain ⟨first, outcome, next, second, again, last, loaded, ended, loaded', ended', silent, _⟩ :=
    reload_silent (fun _ => []) singleRoot countedDatas 0 countedDatas_calm countedDatas_reflexive
  refine ⟨first, outcome, next, second, again, last, loaded, ended, loaded', ended', silent ?_⟩
  intro base member a inside b inside' differ
  rw [List.mem_singleton.mp member] at inside inside'
  exact absurd ((List.mem_singleton.mp inside).trans (List.mem_singleton.mp inside').symm) differ

/-- A nested key and a dotted key give the variable two values. -/
def twiceRoot : Node :=
  .map [(.scalar ['a'], .map [(.scalar ['b'], .scalar ['1'])]),
    (.scalar ['a', '.', 'b'], .scalar ['2'])]

/-- The second load goes to the first value and back, and calls the listener both times. -/
theorem reload_calls_listener :
    (∀ base ∈ countedDatas.entries, base.Calm) ∧ (∀ base ∈ countedDatas.entries, base.Reflexive) ∧
    ∃ first, loadFromYaml (fun _ => []) twiceRoot countedDatas 0 = (first, .returns () 2) ∧
      loadFromYaml (fun _ => []) twiceRoot first 2 = (first, .returns () 4) ∧
      loadCalls (fun _ => []) (listAllMember [] twiceRoot) first 2 =
        [(['a', '.', 'b'], 1), (['a', '.', 'b'], 1)] :=
  ⟨countedDatas_calm, countedDatas_reflexive, _, rfl, rfl, rfl⟩

end Sylar
