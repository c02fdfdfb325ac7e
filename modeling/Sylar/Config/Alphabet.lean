import Sylar.Config.Registry

/-! The alphabet of names. It is documented as `[0-9a-z_.]`, and written out by hand where
a variable is created and where a tree is flattened. -/
namespace Sylar

open Library Yaml

/-- `[0-9a-z_.]` -/
def Documented (c : Char) : Prop := ('0' ≤ c ∧ c ≤ '9') ∨ ('a' ≤ c ∧ c ≤ 'z') ∨ c = '_' ∨ c = '.'

instance (c : Char) : Decidable (Documented c) :=
  inferInstanceAs (Decidable (('0' ≤ c ∧ c ≤ '9') ∨ ('a' ≤ c ∧ c ≤ 'z') ∨ c = '_' ∨ c = '.'))

/-- The lists written out leave out the nine. -/
theorem documented_iff (c : Char) : Documented c ↔ c ∈ nameChars ∨ c = '9' := by
  have small : ∀ n < 128, Documented (Char.ofNat n) → Char.ofNat n ∈ nameChars ∨ Char.ofNat n = '9' := by
    decide +kernel
  constructor
  · intro documented
    have ascii : c.toNat < 128 := by
      simp only [Documented, Char.le_def, UInt32.le_iff_toNat_le] at documented
      rcases documented with ⟨_, high⟩ | ⟨_, high⟩ | rfl | rfl
      · change c.toNat ≤ 57 at high
        omega
      · change c.toNat ≤ 122 at high
        omega
      · decide
      · decide
    have all := small c.toNat ascii
    rw [Char.ofNat_toNat] at all
    exact all documented
  · have listed : ∀ c ∈ nameChars, Documented c := by decide
    rintro (member | rfl)
    · exact listed c member
    · decide

/-- Every character of a name is in the documented alphabet. -/
def DocumentedName (name : Text) : Prop := ∀ c ∈ name, Documented c

theorem validName_iff (name : Text) : ValidName name ↔ DocumentedName name ∧ '9' ∉ name := by
  constructor
  · intro valid
    refine ⟨fun c member => (documented_iff c).mpr (.inl (valid c member)), ?_⟩
    intro nine
    exact absurd (valid '9' nine) (by decide)
  · rintro ⟨documented, no_nine⟩ c member
    rcases (documented_iff c).mp (documented c member) with listed | rfl
    · exact listed
    · exact absurd member no_nine

namespace Registry

variable {Ty : Type u} {Val : Ty → Type} {W : Type w}

section View

variable (beq : ∀ T, BEq (Val T)) (fromStr : ∀ T, Text → Except Exn (Val T))

/-- A registered variable as `LoadFromYaml` sees it. -/
def base (v : Registered Val W) : ConfigVarBase W :=
  letI := beq v.type
  v.var.base (fromStr v.type)

/-- `GetDatas()` as `LoadFromYaml` sees it. -/
def view (s : Registry Val W) : ConfigVarMap W :=
  .insertAll (s.datas.entries.filterMap fun entry => s.heap[entry.2]?.map (base beq fromStr))

end View

variable (beq : ∀ T, BEq (Val T)) (fromStr : ∀ T, Text → Except Exn (Val T))

/-- Every entry of the registry leads to a variable of its name. -/
theorem Named.view_names {s : Registry Val W} (named : s.Named) (entries : List (Text × Nat))
    (inside : ∀ entry ∈ entries, entry ∈ s.datas.entries) :
    (entries.filterMap fun entry => s.heap[entry.2]?.map (base beq fromStr)).map ConfigVarBase.getName =
      entries.map Prod.fst := by
  induction entries with
  | nil => rfl
  | cons entry rest ih =>
    obtain ⟨here, later⟩ := List.forall_mem_cons.mp inside
    obtain ⟨_, v, at_p, name⟩ := named entry.1 entry.2 here
    rw [List.filterMap_cons_some (by rw [at_p, Option.map_some]), List.map_cons, List.map_cons, ih later]
    exact congrArg (· :: rest.map Prod.fst) name

theorem Named.find?_view {s : Registry Val W} (named : s.Named) (name : Text) :
    (s.view beq fromStr).find? name = (s.find? name).map fun found => base beq fromStr found.2 := by
  have names := named.view_names beq fromStr s.datas.entries fun _ member => member
  apply Option.ext
  intro found
  rw [Table.find?_eq_some_iff, view, Table.mem_insertAll (names ▸ s.datas.keys_nodup), List.mem_filterMap,
    Option.map_eq_some_iff]
  constructor
  · rintro ⟨⟨⟨key, p⟩, member, leads⟩, same⟩
    obtain ⟨v, at_p, rfl⟩ := Option.map_eq_some_iff.mp leads
    obtain ⟨_, v', at_p', rfl⟩ := named key p member
    cases at_p.symm.trans at_p'
    refine ⟨(p, v), ?_, rfl⟩
    exact find?_eq_some_iff.mpr ⟨same ▸ member, at_p⟩
  · rintro ⟨⟨p, v⟩, there, rfl⟩
    obtain ⟨member, at_p⟩ := find?_eq_some_iff.mp there
    obtain ⟨_, v', at_p', same⟩ := named name p member
    cases at_p.symm.trans at_p'
    exact ⟨⟨(name, p), member, by rw [at_p, Option.map_some]⟩, same⟩

end Registry

section Names

variable {Ty : Type u} [DecidableEq Ty] {Val : Ty → Type} {W : Type w}

theorem Registry.lookup_new {s : Registry Val W} {name : Text} (absent : s.find? name = none) (T : Ty)
    (default : Val T) :
    (ValidName name ∧ s.lookup T name default = (.ptr s.heap.length, s.enter T name default)) ∨
    (¬ ValidName name ∧ s.lookup T name default = (.throws, s)) := by
  by_cases valid : ValidName name
  · exact .inl ⟨valid, by simp only [lookup, absent, if_neg (not_not.mpr valid)]⟩
  · exact .inr ⟨valid, by simp only [lookup, absent, if_pos valid]⟩

/-- One entry with a valid name is all that flattening a map of it gives besides the
root. -/
theorem listAllMember_single {name : Text} (valid : ValidName name) (text : Text) :
    listAllMember [] (.map [(.scalar name, .scalar text)]) =
      [([], .map [(.scalar name, .scalar text)]), (name, .scalar text)] := by
  have root : ValidName [] := by simp [ValidName]
  simp [listAllMember, listPairs, root, memberName, Node.scalarText, valid]

/-- Without listeners a converted text becomes the value, or compares equal to it. -/
theorem ConfigVar.fromString_created [BEq T] {fromStr : Text → Except Exn T} {text : Text} {v : T}
    (converted : fromStr text = .ok v) (name : Text) (default : T) (world : W) :
    ∃ events val, (ConfigVar.create name default).fromString fromStr text world =
        (events, (ConfigVar.create name default).store val, .returns false world) ∧
      (val = v ∨ (v == val) = true) := by
  have compared : (ConfigVar.create name default : ConfigVar T W).compareAndNotify v world =
      ([], .returns (!(v == default)) world) := by
    cases same : v == default with
    | true => exact if_pos same
    | false => exact if_neg (by simpa [create] using same)
  cases same : v == default with
  | true =>
    refine ⟨[], default, ?_, .inr same⟩
    simp only [fromString, converted, setValue, compared, same, Bool.not_true]
    rfl
  | false =>
    refine ⟨[.stored v], v, ?_, .inl rfl⟩
    simp only [fromString, converted, setValue, compared, same, Bool.not_false, List.nil_append]

/-- A new name of at least one character is accepted as documented, and a document sets
its variable, exactly if the name has no nine or has a character that is not documented. -/
theorem names_documented_iff (beq : ∀ T, BEq (Val T)) (fromStr : ∀ T, Text → Except Exn (Val T))
    (emit : Node → Text) (s : Registry Val W) (named : s.Named) (name : Text) (nonempty : name ≠ [])
    (absent : s.find? name = none) (T : Ty) (default : Val T) (world : W) :
    (((∃ p, (s.lookup T name default).1 = .ptr p) ↔ DocumentedName name) ∧
      (DocumentedName name → ∀ text v, fromStr T text = .ok v →
        ∃ final val, loadFromYaml emit (.map [(.scalar name, .scalar text)])
            ((s.lookup T name default).2.view beq fromStr) world = (final, .returns () world) ∧
          final.find? name = some (Registry.base beq fromStr ⟨T, (ConfigVar.create name default).store val⟩) ∧
          (val = v ∨ (beq T).beq v val = true))) ↔
    ('9' ∉ name ∨ ¬ DocumentedName name) := by
  have documented := validName_iff name
  rcases Registry.lookup_new absent T default with ⟨valid, created⟩ | ⟨invalid, thrown⟩
  · obtain ⟨inside, no_nine⟩ := documented.mp valid
    refine iff_of_true ⟨?_, ?_⟩ (.inl no_nine)
    · rw [created]
      exact iff_of_true ⟨_, rfl⟩ inside
    · intro _ text v converted
      let _ := beq T
      obtain ⟨events, val, set, near⟩ := ConfigVar.fromString_created converted name default world
      have lower : name.map Char.toLower = name := valid.lower
      have found := (named.enter T default valid).find?_view beq fromStr name
      rw [Registry.find?_enter_same, Option.map_some] at found
      refine ⟨((s.enter T name default).view beq fromStr).put
        (Registry.base beq fromStr ⟨T, (ConfigVar.create name default).store val⟩), val, ?_, ?_, near⟩
      · simp only [loadFromYaml, listAllMember_single valid, loadNodes, created, if_true, if_neg nonempty, lower,
          found, nodeText, ConfigVarBase.fromString, Registry.base, ConfigVar.base, set]
      · exact (Table.find?_put _ _ _).trans (if_pos lower)
  · by_cases inside : DocumentedName name
    · have nine : ¬ ('9' ∉ name ∨ ¬ DocumentedName name) := by
        rintro (no_nine | outside)
        · exact invalid (documented.mpr ⟨inside, no_nine⟩)
        · exact outside inside
      refine iff_of_false ?_ nine
      rintro ⟨accepted, _⟩
      obtain ⟨p, found⟩ := accepted.mpr inside
      rw [thrown] at found
      cases found
    · refine iff_of_true ⟨?_, fun documented => absurd documented inside⟩ (.inr inside)
      rw [thrown]
      refine iff_of_false ?_ inside
      rintro ⟨p, found⟩
      cases found

end Names

/-- A registry of strings. -/
abbrev TextRegistry := Registry (fun _ : Unit => Text) Unit

theorem names_documented_iff_port :
    DocumentedName "port".toList ∧
    ∃ final val, loadFromYaml (fun _ => []) (.map [(.scalar "port".toList, .scalar ['1'])])
        (((Registry.empty : TextRegistry).lookup () "port".toList []).2.view (fun _ => inferInstance)
          fun _ => .ok) () = (final, .returns () ()) ∧
      final.find? "port".toList = some (Registry.base (fun _ => inferInstance) (fun _ => .ok)
        ⟨(), (ConfigVar.create "port".toList []).store val⟩) ∧
      (val = ['1'] ∨ (['1'] == val) = true) := by
  have documented : DocumentedName "port".toList := by
    unfold DocumentedName
    decide
  refine ⟨documented, ?_⟩
  exact ((names_documented_iff (fun _ => inferInstance) (fun _ => .ok) (fun _ => [])
    (Registry.empty : TextRegistry) Registry.empty_recorded.named "port".toList (by decide) rfl () [] ()).mpr
    (.inl (by decide))).2 documented ['1'] ['1'] rfl

/-- A documented name that no variable can have. -/
theorem names_documented_nine :
    DocumentedName "port9".toList ∧
      (Registry.empty : TextRegistry).lookup () "port9".toList [] = (.throws, .empty) := by
  refine ⟨?_, rfl⟩
  unfold DocumentedName
  decide

end Sylar
