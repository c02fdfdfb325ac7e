import Sylar.Config.Load
import Sylar.Library.Heap
import Sylar.Library.Machine

/-! The registry of configuration variables. `Config::Lookup` is a template, and the
registry holds variables of all types behind their base class: `Ty` names the types
and `Val` their values. A variable is an object of the heap, and its pointer is its
identity. Every call holds the registry's lock, so threads interleave whole calls. -/
namespace Sylar

open Library

/-- A `ConfigVar<T>` behind `ConfigVarBase::ptr`. -/
structure Registered {Ty : Type u} (Val : Ty → Type v) (W : Type w) where
  type : Ty
  var : ConfigVar (Val type) W

/-- `ConfigVar(name, default_value)`; the base class lowers the letters of the name. -/
def ConfigVar.create (name : Text) (default : T) : ConfigVar T W :=
  ⟨name.map Char.toLower, default, .empty⟩

/-- `GetDatas()`, a name's pointer, and the objects that the pointers lead to. -/
structure Registry {Ty : Type u} (Val : Ty → Type v) (W : Type w) where
  datas : Table (Prod.fst : Text × Nat → Text)
  heap : List (Registered Val W)

/-- `Lookup<T>(name, default_value)`, `Lookup<T>(name)` and `LookupBase(name)`. -/
inductive Lookup {Ty : Type u} (Val : Ty → Type v) where
  | create (T : Ty) (name : Text) (default : Val T)
  | typed (T : Ty) (name : Text)
  | base (name : Text)

/-- What a lookup gives back: a pointer, null, or `std::invalid_argument`. -/
inductive Found where
  | ptr (p : Nat)
  | null
  | throws
  deriving DecidableEq, Repr

namespace Registry

variable {Ty : Type u} {Val : Ty → Type v} {W : Type w}

def empty : Registry Val W := ⟨.empty, []⟩

/-- `GetDatas().find(name)`, followed to the object. -/
def find? (name : Text) (s : Registry Val W) : Option (Nat × Registered Val W) :=
  match s.datas.find? name with
  | none => none
  | some (_, p) => s.heap[p]?.map (p, ·)

/-- `GetDatas()[name] = v` with a new variable `v`. -/
def enter (T : Ty) (name : Text) (default : Val T) (s : Registry Val W) : Registry Val W :=
  ⟨s.datas.put (name, s.heap.length), s.heap ++ [⟨T, ConfigVar.create name default⟩]⟩

section Calls

variable [DecidableEq Ty]

/-- `std::dynamic_pointer_cast<ConfigVar<T>>` -/
def cast (T : Ty) : Option (Nat × Registered Val W) → Found
  | none => .null
  | some (p, v) => if v.type = T then .ptr p else .null

def lookup (T : Ty) (name : Text) (default : Val T) (s : Registry Val W) :
    Found × Registry Val W :=
  match s.find? name with
  | some found => (cast T (some found), s)
  | none =>
    if ¬ ValidName name then (.throws, s) else (.ptr s.heap.length, s.enter T name default)

def lookupTyped (T : Ty) (name : Text) (s : Registry Val W) : Found := cast T (s.find? name)

def lookupBase (name : Text) (s : Registry Val W) : Found :=
  match s.find? name with
  | none => .null
  | some (p, _) => .ptr p

def call (s : Registry Val W) : Lookup Val → Found × Registry Val W
  | .create T name default => s.lookup T name default
  | .typed T name => (s.lookupTyped T name, s)
  | .base name => (s.lookupBase name, s)

/-- A call as a step of a machine; its event is the call with what it gives back. -/
def step (s : Registry Val W) (op : Lookup Val) : Option (List (Lookup Val × Found) × Registry Val W) :=
  some ([(op, (s.call op).1)], (s.call op).2)

end Calls

/-- Every name leads to an object of that name, which is a valid one. -/
def Named (s : Registry Val W) : Prop :=
  ∀ name p, (name, p) ∈ s.datas.entries →
    ValidName name ∧ ∃ v, s.heap[p]? = some v ∧ v.var.name = name

theorem find?_eq_some_iff {s : Registry Val W} {name : Text} {p : Nat} {v : Registered Val W} :
    s.find? name = some (p, v) ↔ (name, p) ∈ s.datas.entries ∧ s.heap[p]? = some v := by
  cases found : s.datas.find? name with
  | none =>
    have absent := (Table.find?_eq_none_iff _ _).mp found
    simp only [find?, found, reduceCtorEq, false_iff, not_and]
    intro member
    exact absurd rfl (absent _ member)
  | some entry =>
    obtain ⟨other, q⟩ := entry
    obtain ⟨member, same⟩ := (Table.find?_eq_some_iff _ _ _).mp found
    cases same
    simp only [find?, found, Option.map_eq_some_iff, Prod.mk.injEq]
    constructor
    · rintro ⟨v', at_q, rfl, rfl⟩
      exact ⟨member, at_q⟩
    · rintro ⟨member', at_p⟩
      cases s.datas.key_injective member member' rfl
      exact ⟨v, at_p, rfl, rfl⟩

/-- A name that is not found is not in the table. -/
theorem Named.find?_eq_none_iff {s : Registry Val W} (named : s.Named) {name : Text} :
    s.find? name = none ↔ ∀ p, (name, p) ∉ s.datas.entries := by
  constructor
  · intro absent p member
    obtain ⟨_, v, at_p, _⟩ := named name p member
    cases absent.symm.trans (find?_eq_some_iff.mpr ⟨member, at_p⟩)
  · intro absent
    cases found : s.find? name with
    | none => rfl
    | some entry => exact absurd (find?_eq_some_iff.mp found).1 (absent entry.1)

/-- What a new variable changes: its own name is found, and all others as before. -/
theorem find?_enter_same (T : Ty) (name : Text) (default : Val T) (s : Registry Val W) :
    (s.enter T name default).find? name =
      some (s.heap.length, ⟨T, ConfigVar.create name default⟩) := by
  refine find?_eq_some_iff.mpr ⟨?_, ?_⟩
  · exact (Table.mem_put _ _ _).mpr (.inl rfl)
  · exact getElem?_allocated.mpr (.inr ⟨rfl, rfl⟩)

theorem Named.find?_enter_other {s : Registry Val W} (named : s.Named) (T : Ty) {name other : Text}
    (default : Val T) (apart : name ≠ other) : (s.enter T name default).find? other = s.find? other := by
  apply Option.ext
  rintro ⟨p, v⟩
  rw [find?_eq_some_iff, find?_eq_some_iff]
  constructor
  · rintro ⟨member, at_p⟩
    rcases (Table.mem_put _ _ _).mp member with same | ⟨old, _⟩
    · exact absurd (congrArg Prod.fst same).symm apart
    · obtain ⟨_, v', old_p, _⟩ := named other p old
      have inside : (s.enter T name default).heap[p]? = some v' := getElem?_allocated.mpr (.inl old_p)
      cases inside.symm.trans at_p
      exact ⟨old, old_p⟩
  · rintro ⟨member, at_p⟩
    refine ⟨?_, getElem?_allocated.mpr (.inl at_p)⟩
    exact (Table.mem_put _ _ _).mpr (.inr ⟨member, Ne.symm apart⟩)

theorem Named.enter {s : Registry Val W} (named : s.Named) (T : Ty) {name : Text} (default : Val T)
    (valid : ValidName name) : (s.enter T name default).Named := by
  intro other p member
  rcases (Table.mem_put _ _ _).mp member with same | ⟨old, _⟩
  · cases same
    refine ⟨valid, _, getElem?_allocated.mpr (.inr ⟨rfl, rfl⟩), ?_⟩
    -- a valid name has no letters to lower
    exact valid.lower
  · obtain ⟨validOther, v, at_p, named⟩ := named other p old
    exact ⟨validOther, v, getElem?_allocated.mpr (.inl at_p), named⟩

/-- The names found are those of the creating lookups that succeeded. -/
structure Recorded (s : Registry Val W) (past : List (Lookup Val × Found)) : Prop where
  named : s.Named
  created : ∀ name p, (∃ v, s.find? name = some (p, v)) ↔
    ∃ T default, (Lookup.create T name default, Found.ptr p) ∈ past

theorem empty_recorded : Recorded (empty : Registry Val W) [] := by
  refine ⟨?_, ?_⟩
  · intro name p member
    cases member
  · intro name p
    constructor
    · rintro ⟨v, found⟩
      cases found
    · rintro ⟨T, default, member⟩
      cases member

variable [DecidableEq Ty] {s next : Registry Val W} {op : Lookup Val} {result : Found}

/-- A call leaves the registry alone, or it is the creating lookup of a valid name that
was not found. -/
theorem call_cases (done : s.call op = (result, next)) :
    next = s ∧ (∀ T name default p, op = .create T name default → result = .ptr p →
      ∃ v, s.find? name = some (p, v)) ∨
    ∃ T name default, op = .create T name default ∧ s.find? name = none ∧ ValidName name ∧
      result = .ptr s.heap.length ∧ next = s.enter T name default := by
  cases op with
  | create T name default =>
    simp only [call, lookup] at done
    cases found : s.find? name with
    | some entry =>
      obtain ⟨q, v⟩ := entry
      rw [found] at done
      cases done
      refine .inl ⟨rfl, ?_⟩
      intro T' name' default' p same isPtr
      cases same
      by_cases same_type : v.type = T
      · rw [cast, if_pos same_type] at isPtr
        cases isPtr
        exact ⟨v, found⟩
      · rw [cast, if_neg same_type] at isPtr
        cases isPtr
    | none =>
      rw [found] at done
      by_cases valid : ValidName name
      · rw [if_neg (not_not.mpr valid)] at done
        cases done
        exact .inr ⟨T, name, default, rfl, found, valid, rfl, rfl⟩
      · rw [if_pos valid] at done
        cases done
        refine .inl ⟨rfl, ?_⟩
        intro _ _ _ p _ isPtr
        cases isPtr
  | typed T name | base name =>
    cases done
    refine .inl ⟨rfl, ?_⟩
    intro _ _ _ _ same
    cases same

theorem Named.call (named : s.Named) (done : s.call op = (result, next)) : next.Named := by
  rcases call_cases done with ⟨rfl, _⟩ | ⟨T, name, default, _, _, valid, _, rfl⟩
  · exact named
  · exact named.enter T default valid

/-- What is found stays found, the same object with the same type. -/
theorem Named.keeps (named : s.Named) (done : s.call op = (result, next)) {name : Text}
    {p : Nat} {v : Registered Val W} (found : s.find? name = some (p, v)) :
    next.find? name = some (p, v) := by
  rcases call_cases done with ⟨rfl, _⟩ | ⟨T, new, default, _, absent, _, _, rfl⟩
  · exact found
  · have apart : new ≠ name := by
      rintro rfl
      cases absent.symm.trans found
    rw [named.find?_enter_other T default apart]
    exact found

theorem Recorded.call {past : List (Lookup Val × Found)} (recorded : Recorded s past)
    (done : s.call op = (result, next)) : Recorded next (past ++ [(op, result)]) := by
  refine ⟨recorded.named.call done, ?_⟩
  intro name p
  simp only [List.mem_append, List.mem_singleton, Prod.mk.injEq, exists_or, ← recorded.created name p]
  constructor
  · rintro ⟨v, found⟩
    rcases call_cases done with ⟨rfl, _⟩ | ⟨T, new, default, rfl, _, _, rfl, rfl⟩
    · exact .inl ⟨v, found⟩
    · by_cases same : new = name
      · subst same
        rw [find?_enter_same] at found
        cases found
        exact .inr ⟨T, default, rfl, rfl⟩
      · rw [recorded.named.find?_enter_other T default same] at found
        exact .inl ⟨v, found⟩
  · rintro (⟨v, found⟩ | ⟨T, default, same, isPtr⟩)
    · exact ⟨v, recorded.named.keeps done found⟩
    · rcases call_cases done with ⟨rfl, old⟩ | ⟨T', new, default', rfl, _, _, rfl, rfl⟩
      · exact old T name default p same.symm isPtr.symm
      · cases same
        cases isPtr
        exact ⟨_, find?_enter_same T name default s⟩

/-- A run of lookups records its events. -/
theorem Recorded.run {calls : List (Lookup Val)} {past events : List (Lookup Val × Found)}
    (recorded : Recorded s past) (ran : run step calls s = some (events, next)) :
    Recorded next (past ++ events) := by
  refine run_history Recorded ?_ ran recorded
  intro s op past events next before taken
  cases taken
  exact before.call rfl

theorem Named.run {calls : List (Lookup Val)} {events : List (Lookup Val × Found)} (named : s.Named)
    (ran : run step calls s = some (events, next)) {name : Text} {p : Nat} {v : Registered Val W}
    (found : s.find? name = some (p, v)) : next.find? name = some (p, v) := by
  refine (run_invariant (fun s => s.Named ∧ s.find? name = some (p, v)) ?_ ran ⟨named, found⟩).2
  rintro s op events next ⟨named, found⟩ taken
  cases taken
  exact ⟨named.call rfl, named.keeps rfl found⟩

theorem run_some (calls : List (Lookup Val)) (s : Registry Val W) :
    ∃ events next, run step calls s = some (events, next) := by
  induction calls generalizing s with
  | nil => exact ⟨[], s, rfl⟩
  | cons op calls ih =>
    obtain ⟨events, next, ran⟩ := ih (s.call op).2
    exact ⟨_, next, run_cons_eq_some.mpr ⟨_, _, events, rfl, ran, rfl⟩⟩

/-- After any lookups: a variable found has the name it is found under and stays found;
a creating lookup gives back the variable of the name if its type is the one asked for
and else null; a name with a character that is not allowed throws; a valid new name
gets a new variable; and `LookupBase` finds what a creating lookup has given back. -/
theorem registry_integrity (calls : List (Lookup Val)) :
    ∃ events s, run step calls (empty : Registry Val W) = some (events, s) ∧
      (∀ name p v, s.find? name = some (p, v) → v.var.name = name) ∧
      (∀ more later next, run step more s = some (later, next) → ∀ name p v,
        s.find? name = some (p, v) → next.find? name = some (p, v)) ∧
      (∀ T name default p v, s.find? name = some (p, v) →
        s.call (.create T name default) = (if v.type = T then .ptr p else .null, s) ∧
        s.call (.typed T name) = (if v.type = T then .ptr p else .null, s)) ∧
      (∀ T name default, s.find? name = none → ¬ ValidName name →
        s.call (.create T name default) = (.throws, s)) ∧
      (∀ T name default, s.find? name = none → ValidName name →
        ∃ p next, s.call (.create T name default) = (.ptr p, next) ∧
          next.find? name = some (p, ⟨T, ConfigVar.create name default⟩) ∧
          ∀ other, other ≠ name → next.find? other = s.find? other ∧ ∀ v, s.find? other ≠ some (p, v)) ∧
      (∀ name p, s.call (.base name) = (.ptr p, s) ↔
        ∃ T default, (.create T name default, .ptr p) ∈ events) ∧
      ∀ name, s.call (.base name) = (.null, s) ↔
        ∀ T default p, (.create T name default, .ptr p) ∉ events := by
  obtain ⟨events, s, ran⟩ := run_some calls (empty : Registry Val W)
  have recorded : Recorded s events := empty_recorded.run ran
  have base (name : Text) (p : Nat) :
      s.call (.base name) = (.ptr p, s) ↔ ∃ v, s.find? name = some (p, v) := by
    cases found : s.find? name with
    | none => simp [call, lookupBase, found]
    | some entry => simp [call, lookupBase, found, Prod.ext_iff]
  refine ⟨events, s, ran, ?_, fun more later next ran => fun name p v => recorded.named.run ran, ?_, ?_, ?_,
    ?_, ?_⟩
  · intro name p v found
    obtain ⟨member, at_p⟩ := find?_eq_some_iff.mp found
    obtain ⟨_, v', at_p', same⟩ := recorded.named name p member
    cases at_p.symm.trans at_p'
    exact same
  · intro T name default p v found
    simp only [call, lookup, lookupTyped, found, cast, and_self]
  · intro T name default absent invalid
    simp only [call, lookup, absent, if_pos invalid]
  · intro T name default absent valid
    refine ⟨_, _, ?_, find?_enter_same T name default s, ?_⟩
    · simp only [call, lookup, absent, if_neg (not_not.mpr valid)]
    · intro other apart
      refine ⟨recorded.named.find?_enter_other T default (Ne.symm apart), ?_⟩
      intro v found
      -- the new pointer lies outside the old heap
      have inside := (find?_eq_some_iff.mp found).2
      rw [List.getElem?_length] at inside
      cases inside
  · intro name p
    rw [base, recorded.created]
  · intro name
    constructor
    · intro null T default p member
      obtain ⟨v, found⟩ := (recorded.created name p).mpr ⟨T, default, member⟩
      cases null.symm.trans ((base name p).mpr ⟨v, found⟩)
    · intro never
      cases found : s.find? name with
      | none => simp only [call, lookupBase, found]
      | some entry =>
        obtain ⟨T, default, member⟩ := (recorded.created name entry.1).mp ⟨entry.2, found⟩
        exact absurd member (never T default entry.1)

end Registry

end Sylar
