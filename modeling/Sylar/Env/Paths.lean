import Sylar.Config.Registry
import Sylar.Env.Help

/-! The paths that `Env` makes absolute. `getAbsoluteWorkPath` looks its variable up once
and keeps the pointer in a static local, null or not. -/
namespace Sylar

open Library

namespace Env

def getAbsolutePath (path : Text) (env : Env) : Text :=
  if path.isEmpty then ['/']
  else if path.head? = some '/' then path
  else env.cwd ++ path

def getConfigPath (env : Env) : Text := env.getAbsolutePath (env.get ['c'] "conf".toList)

/-- The name that `getAbsoluteWorkPath` looks up. -/
def workName : Text := "server.work_path".toList

/-- It starts with a slash. -/
def Absolute (path : Text) : Prop := path.head? = some '/'

instance (path : Text) : Decidable (Absolute path) := inferInstanceAs (Decidable (_ = _))

theorem absolute_append {path : Text} (absolute : Absolute path) (rest : Text) : Absolute (path ++ rest) := by
  cases path with
  | nil => cases absolute
  | cons c path => exact absolute

/-- The directory of an absolute path, with a slash behind it, is absolute. -/
theorem absolute_directory {path : Text} (rooted : path = [] ∨ Absolute path) : Absolute (directory path ++ ['/']) := by
  rcases rooted with rfl | absolute
  · rfl
  · cases path with
    | nil => cases absolute
    | cons c path =>
      cases absolute
      have slash : ('/' :: path).contains '/' = true := by simp
      rw [directory, if_pos slash, List.reverse_cons, List.dropWhile_append]
      -- the search from the end stops behind the first slash, or at it
      cases later : path.reverse.dropWhile (· ≠ '/') with
      | nil => rfl
      | cons c rest =>
        simp only [List.isEmpty_cons, Bool.false_eq_true, if_false, List.cons_append, List.tail_cons]
        rw [List.reverse_append]
        rfl

theorem absolute_getAbsolutePath {env : Env} (rooted : Absolute env.cwd) (path : Text) :
    Absolute (env.getAbsolutePath path) := by
  rw [getAbsolutePath]
  split
  · rfl
  · split
    · assumption
    · exact absolute_append rooted path

/-- The loop over the arguments leaves the working directory alone. -/
theorem parse_cwd (now_key : Option Text) (i : Nat) (env : Env) (args : List Text) :
    (parse now_key i env args).2.2.cwd = env.cwd := by
  induction args generalizing now_key i env with
  | nil => cases now_key <;> rfl
  | cons arg rest ih =>
    unfold parse
    split_ifs with dash long
    · cases now_key with
      | none => exact ih _ _ _
      | some key => exact ih _ _ _
    · rfl
    · cases now_key with
      | none => rfl
      | some key => exact ih _ _ _

end Env

section Registered

variable {Ty : Type u} {Val : Ty → Type v} {W : Type w} [DecidableEq Ty]

/-- The section of `setValue` that stores, on a variable of type `T`. -/
def Registered.store (T : Ty) (v : Val T) (r : Registered Val W) : Registered Val W :=
  if same : r.type = T then ⟨T, (same ▸ r.var).store v⟩ else r

/-- The value of a variable of type `T`. -/
def Registered.valueOf (T : Ty) (r : Registered Val W) : Option (Val T) :=
  if same : r.type = T then some (same ▸ r.var.val) else none

theorem Registered.store_keeps (T : Ty) (v : Val T) (r : Registered Val W) :
    (r.store T v).type = r.type ∧ (r.store T v).var.name = r.var.name := by
  obtain ⟨type, var⟩ := r
  by_cases same : type = T
  · subst same
    rw [store, dif_pos rfl]
    exact ⟨rfl, rfl⟩
  · rw [store, dif_neg same]
    exact ⟨rfl, rfl⟩

theorem Registered.valueOf_eq_none {T : Ty} {r : Registered Val W} : r.valueOf T = none ↔ r.type ≠ T := by
  simp [valueOf]

namespace Registry

def store (p : Nat) (T : Ty) (v : Val T) (s : Registry Val W) : Registry Val W :=
  { s with heap := s.heap.modify p (Registered.store T v) }

theorem find?_store (p : Nat) (T : Ty) (v : Val T) (s : Registry Val W) (name : Text) :
    (s.store p T v).find? name = (s.find? name).map fun found =>
      (found.1, if p = found.1 then found.2.store T v else found.2) := by
  cases entry : s.datas.find? name with
  | none => simp [find?, store, entry]
  | some entry' =>
    obtain ⟨other, q⟩ := entry'
    simp only [find?, store, entry, List.getElem?_modify, Option.map_map]
    by_cases here : p = q
    · simp [here, Function.comp_def]
    · simp [here, Function.comp_def]

theorem Named.store {s : Registry Val W} (named : s.Named) (p : Nat) (T : Ty) (v : Val T) : (s.store p T v).Named := by
  intro name q member
  obtain ⟨valid, r, there, same⟩ := named name q member
  by_cases here : p = q
  · refine ⟨valid, r.store T v, ?_, (r.store_keeps T v).2.trans same⟩
    simp [Registry.store, here, there]
  · refine ⟨valid, r, ?_, same⟩
    simp [Registry.store, here, there]

/-- Storing a value leaves in place what is found. -/
theorem Recorded.store {s : Registry Val W} {past : List (Lookup Val × Found)} (recorded : Recorded s past) (p : Nat)
    (T : Ty) (v : Val T) : Recorded (s.store p T v) past := by
  refine ⟨recorded.named.store p T v, fun name q => ?_⟩
  rw [← recorded.created name q, find?_store]
  constructor
  · rintro ⟨r, found⟩
    obtain ⟨⟨q', r'⟩, there, same⟩ := Option.map_eq_some_iff.mp found
    cases (Prod.mk.inj same).1
    exact ⟨r', there⟩
  · rintro ⟨r, found⟩
    exact ⟨_, by rw [found]; rfl⟩

/-- A variable of a name and a type. -/
def Typed (s : Registry Val W) (name : Text) (p : Nat) (T : Ty) : Prop :=
  ∃ r, s.find? name = some (p, r) ∧ r.type = T

theorem Typed.store {s : Registry Val W} {name : Text} {p : Nat} {T : Ty} (typed : s.Typed name p T) (q : Nat) (T' : Ty)
    (v : Val T') : (s.store q T' v).Typed name p T := by
  obtain ⟨r, found, same⟩ := typed
  refine ⟨if q = p then r.store T' v else r, by rw [find?_store, found]; rfl, ?_⟩
  split
  · exact (r.store_keeps T' v).1.trans same
  · exact same

theorem Typed.call {s next : Registry Val W} (named : s.Named) {op : Lookup Val} {result : Found} {name : Text} {p : Nat}
    {T : Ty} (typed : s.Typed name p T) (done : s.call op = (result, next)) : next.Typed name p T := by
  obtain ⟨r, found, same⟩ := typed
  exact ⟨r, named.keeps done found, same⟩

/-- A creating lookup gives back variables of its type only. -/
theorem typed_of_create {s next : Registry Val W} {T : Ty} {name : Text} {default : Val T} {p : Nat}
    (done : s.call (.create T name default) = (.ptr p, next)) : next.Typed name p T := by
  simp only [call, lookup] at done
  cases found : s.find? name with
  | some entry =>
    obtain ⟨q, r⟩ := entry
    simp only [found, cast] at done
    split at done
    · rename_i same
      cases done
      exact ⟨r, found, same⟩
    · cases done
  | none =>
    simp only [found] at done
    split at done
    · cases done
    · cases done
      exact ⟨_, find?_enter_same T name default s, rfl⟩

theorem lookupTyped_eq_ptr {s : Registry Val W} {T : Ty} {name : Text} {p : Nat} :
    s.lookupTyped T name = .ptr p ↔ s.Typed name p T := by
  rw [lookupTyped, Typed]
  cases found : s.find? name with
  | none => simp [cast]
  | some entry =>
    obtain ⟨q, r⟩ := entry
    by_cases same : r.type = T
    · simp [cast, same]
    · simp [cast, same]

end Registry

end Registered

/-- A call on the paths, or one that has to do with them; the lookups are those of any
part of the program. -/
inductive PathCall {Ty : Type u} (Val : Ty → Type v) where
  | init (path argv0 : Text) (args : List Text)
  | add (key val : Text)
  | del (key : Text)
  | lookup (op : Lookup Val)
  | store (p : Nat) (T : Ty) (v : Val T)
  | getAbsolutePath (path : Text)
  | getAbsoluteWorkPath (path : Text)
  | getConfigPath

inductive PathEvent {Ty : Type u} (Val : Ty → Type v) where
  | path (path : Text)
  | looked (op : Lookup Val) (found : Found)

/-- `work` is the static local `g_server_work_path`, once it is initialized. -/
structure Paths {Ty : Type u} (Val : Ty → Type v) (W : Type w) where
  env : Env
  registry : Registry Val W
  work : Option Found

namespace Paths

variable {Ty : Type u} {Val : Ty → Type v} {W : Type w}

def create (env : Env) : Paths Val W := ⟨env, .empty, none⟩

variable [DecidableEq Ty]

section Step

variable (str : Ty) (text : Val str → Text)

/-- The value behind `Config::Lookup<std::string>`; `none` is null. -/
def behind (s : Paths Val W) : Found → Option Text
  | .ptr p => (s.registry.heap[p]?.bind (Registered.valueOf str)).map text
  | _ => none

/-- The step that is not possible is a null pointer dereferenced. -/
def getAbsoluteWorkPath (path : Text) (s : Paths Val W) : Option (Text × Paths Val W) :=
  if path.isEmpty then some (['/'], s)
  else if path.head? = some '/' then some (path, s)
  else
    let work := s.work.getD (s.registry.lookupTyped str Env.workName)
    match s.behind str text work with
    | none => none
    | some value => some (value ++ '/' :: path, { s with work := some work })

def step (s : Paths Val W) : PathCall Val → Option (List (PathEvent Val) × Paths Val W)
  | .init path argv0 args => some ([], { s with env := (s.env.init path argv0 args).2.2 })
  | .add key val => some ([], { s with env := s.env.add key val })
  | .del key => some ([], { s with env := s.env.del key })
  | .lookup op => some ([.looked op (s.registry.call op).1], { s with registry := (s.registry.call op).2 })
  | .store p T v => some ([], { s with registry := s.registry.store p T v })
  | .getAbsolutePath path => some ([.path (s.env.getAbsolutePath path)], s)
  | .getAbsoluteWorkPath path =>
    match s.getAbsoluteWorkPath str text path with
    | none => none
    | some (result, next) => some ([.path result], next)
  | .getConfigPath => some ([.path s.env.getConfigPath], s)

/-- The same with a lookup each time. -/
def freshWorkPath (path : Text) (s : Paths Val W) : Option Text :=
  if path.isEmpty then some ['/']
  else if path.head? = some '/' then some path
  else (s.behind str text (s.registry.lookupTyped str Env.workName)).map fun value => value ++ '/' :: path

end Step

/-- The lookups so far, with what they gave back. -/
def lookups (events : List (PathEvent Val)) : List (Lookup Val × Found) :=
  events.filterMap fun
    | .looked op found => some (op, found)
    | .path _ => none

/-- Variables keep the type that they were created with, and the static local is as good
as a new lookup. -/
structure Kept (str : Ty) (s : Paths Val W) (events : List (PathEvent Val)) : Prop where
  recorded : s.registry.Recorded (lookups events)
  typed : ∀ T name default p, (Lookup.create T name default, Found.ptr p) ∈ lookups events → s.registry.Typed name p T
  cached : ∀ found, s.work = some found → ∃ p, found = .ptr p ∧ s.registry.Typed Env.workName p str

variable {str : Ty} {text : Val str → Text} {s next : Paths Val W} {past events : List (PathEvent Val)}

omit [DecidableEq Ty] in
theorem create_kept (env : Env) : (create env : Paths Val W).Kept str [] where
  recorded := Registry.empty_recorded
  typed _ _ _ _ member := by cases member
  cached _ work := by cases work

omit [DecidableEq Ty] in
/-- Nothing has changed but the members of `Env`, and nothing was looked up. -/
theorem Kept.silent (kept : s.Kept str past) (env : Env) (silent : lookups events = []) :
    Kept str { s with env := env } (past ++ events) := by
  have same : lookups (past ++ events) = lookups past := by
    rw [lookups, List.filterMap_append]
    exact (congrArg (lookups past ++ ·) silent).trans (List.append_nil _)
  exact ⟨same ▸ kept.recorded, fun T name default p member => kept.typed T name default p (same ▸ member), kept.cached⟩

theorem Kept.lookup (kept : s.Kept str past) (op : Lookup Val) :
    Kept str { s with registry := (s.registry.call op).2 } (past ++ [.looked op (s.registry.call op).1]) := by
  have same : lookups (past ++ [.looked op (s.registry.call op).1]) = lookups past ++ [(op, (s.registry.call op).1)] := by
    rw [lookups, List.filterMap_append]
    rfl
  refine ⟨?_, ?_, ?_⟩
  · rw [same]
    exact kept.recorded.call rfl
  · intro T name default p member
    rw [same, List.mem_append, List.mem_singleton] at member
    rcases member with old | new
    · exact (kept.typed T name default p old).call kept.recorded.named rfl
    · obtain ⟨rfl, given⟩ := Prod.mk.inj new
      exact Registry.typed_of_create (Prod.ext given.symm rfl)
  · intro found work
    obtain ⟨p, rfl, typed⟩ := kept.cached found work
    exact ⟨p, rfl, typed.call kept.recorded.named rfl⟩

theorem Kept.store (kept : s.Kept str past) (p : Nat) (T : Ty) (v : Val T) :
    Kept str { s with registry := s.registry.store p T v } past where
  recorded := kept.recorded.store p T v
  typed T' name default q member := (kept.typed T' name default q member).store p T v
  cached found work := by
    obtain ⟨q, rfl, typed⟩ := kept.cached found work
    exact ⟨q, rfl, typed.store p T v⟩

/-- The pointer in the static local is the one that a lookup gives. -/
theorem Kept.work (kept : s.Kept str past) :
    s.work.getD (s.registry.lookupTyped str Env.workName) = s.registry.lookupTyped str Env.workName := by
  cases work : s.work with
  | none => rfl
  | some found =>
    obtain ⟨p, rfl, typed⟩ := kept.cached found work
    exact (Registry.lookupTyped_eq_ptr.mpr typed).symm

/-- Null is all that has no value behind it. -/
theorem behind_lookup (text : Val str → Text) : s.behind str text (s.registry.lookupTyped str Env.workName) = none ↔
    ∀ p, ¬ s.registry.Typed Env.workName p str := by
  constructor
  · rintro none p ⟨r, found, type⟩
    have there := (Registry.find?_eq_some_iff.mp found).2
    rw [Registry.lookupTyped_eq_ptr.mpr ⟨r, found, type⟩] at none
    simp only [behind, there, Option.bind_some, Option.map_eq_none_iff] at none
    exact Registered.valueOf_eq_none.mp none type
  · intro untyped
    cases found : s.registry.lookupTyped str Env.workName with
    | ptr p => exact absurd (Registry.lookupTyped_eq_ptr.mp found) (untyped p)
    | null | throws => rfl

theorem freshWorkPath_eq_none (path : Text) : s.freshWorkPath str text path = none ↔
    path ≠ [] ∧ ¬ Env.Absolute path ∧ ∀ p, ¬ s.registry.Typed Env.workName p str := by
  rw [freshWorkPath, ← behind_lookup text, Env.Absolute]
  cases path with
  | nil => simp
  | cons c path =>
    by_cases absolute : (c :: path).head? = some '/'
    · rw [if_neg (by simp), if_pos absolute]
      simp [absolute]
    · rw [if_neg (by simp), if_neg absolute, Option.map_eq_none_iff]
      simp only [ne_eq, reduceCtorEq, not_false_eq_true, true_and, absolute]

theorem Kept.getAbsoluteWorkPath (kept : s.Kept str past) (path : Text) :
    (s.getAbsoluteWorkPath str text path).map Prod.fst = s.freshWorkPath str text path := by
  simp only [Paths.getAbsoluteWorkPath, freshWorkPath, kept.work]
  split
  · rfl
  · split
    · rfl
    · cases s.behind str text (s.registry.lookupTyped str Env.workName) <;> rfl

theorem Kept.step {call : PathCall Val} (kept : s.Kept str past)
    (taken : s.step str text call = some (events, next)) : next.Kept str (past ++ events) := by
  cases call with
  | init | add | del | getAbsolutePath | getConfigPath =>
    cases taken
    exact kept.silent _ rfl
  | lookup op =>
    cases taken
    exact kept.lookup op
  | store p T v =>
    cases taken
    rw [List.append_nil]
    exact kept.store p T v
  | getAbsoluteWorkPath path =>
    simp only [Paths.step] at taken
    split at taken
    · cases taken
    · rename_i result next' given
      cases taken
      simp only [Paths.getAbsoluteWorkPath] at given
      split at given
      · cases given
        exact kept.silent _ rfl
      · split at given
        · cases given
          exact kept.silent _ rfl
        · split at given
          · cases given
          · rename_i value there
            cases given
            have quiet : Kept str s (past ++ [.path (value ++ '/' :: path)]) := kept.silent s.env rfl
            refine ⟨quiet.recorded, quiet.typed, ?_⟩
            rintro found ⟨⟩
            rw [kept.work] at there ⊢
            by_contra untyped
            have none_there : s.behind str text (s.registry.lookupTyped str Env.workName) = none :=
              (behind_lookup text).mpr fun p typed => untyped ⟨p, Registry.lookupTyped_eq_ptr.mpr typed, typed⟩
            cases none_there.symm.trans there

theorem Kept.run {env : Env} {calls : List (PathCall Val)}
    (ran : run (Paths.step str text) calls (create env) = some (events, s)) : s.Kept str events :=
  run_history (Kept str) (fun _ _ _ _ _ kept taken => kept.step taken) ran (create_kept env)

/-- In every run the static local of `getAbsoluteWorkPath` makes no difference: the call
comes to what it would with a new lookup, and it dereferences null exactly for a relative
path while no lookup has created the variable with the type of strings. -/
theorem work_path_fresh (str : Ty) (text : Val str → Text) (env : Env) {calls : List (PathCall Val)}
    (ran : run (step str text) calls (create env : Paths Val W) = some (events, s)) (path : Text) :
    (s.getAbsoluteWorkPath str text path).map Prod.fst = s.freshWorkPath str text path ∧
      (s.getAbsoluteWorkPath str text path = none ↔ path ≠ [] ∧ ¬ Env.Absolute path ∧
        ∀ default p, (Lookup.create str Env.workName default, Found.ptr p) ∉ lookups events) := by
  have kept := Kept.run ran
  have created : (∀ p, ¬ s.registry.Typed Env.workName p str) ↔
      ∀ default p, (Lookup.create str Env.workName default, Found.ptr p) ∉ lookups events := by
    constructor
    · intro untyped default p member
      exact untyped p (kept.typed str Env.workName default p member)
    · rintro never p ⟨r, found, type⟩
      obtain ⟨T, default, member⟩ := (kept.recorded.created Env.workName p).mp ⟨r, found⟩
      obtain ⟨r', found', type'⟩ := kept.typed T Env.workName default p member
      cases found.symm.trans found'
      cases type'.symm.trans type
      exact never default p member
  refine ⟨kept.getAbsoluteWorkPath path, ?_⟩
  rw [← created, ← freshWorkPath_eq_none, ← kept.getAbsoluteWorkPath path, Option.map_eq_none_iff]

/-- The paths that `init` is told are absolute, or empty where the system tells none. -/
def Rooted : PathCall Val → Prop
  | .init path _ _ => path = [] ∨ Env.Absolute path
  | _ => True

def Inits : PathCall Val → Prop
  | .init _ _ _ => True
  | _ => False

theorem step_cwd {call : PathCall Val} (taken : s.step str text call = some (events, next)) (rooted : Rooted call)
    (before : Env.Absolute s.env.cwd ∨ Inits call) : Env.Absolute next.env.cwd := by
  cases call with
  | init path argv0 args =>
    cases taken
    have kept := Env.parse_cwd none 1 (s.env.located path argv0) args
    exact (congrArg Env.Absolute kept).mpr (Env.absolute_directory rooted)
  | add | del | lookup | store | getAbsolutePath | getConfigPath =>
    cases taken
    exact before.resolve_right id
  | getAbsoluteWorkPath path =>
    have same : next.env = s.env := by
      simp only [Paths.step] at taken
      split at taken
      · cases taken
      · rename_i result next' given
        cases taken
        simp only [Paths.getAbsoluteWorkPath] at given
        split at given
        · cases given
          rfl
        · split at given
          · cases given
            rfl
          · split at given
            · cases given
            · cases given
              rfl
    rw [same]
    exact before.resolve_right id

theorem run_cwd {calls : List (PathCall Val)} (ran : run (step str text) calls s = some (events, next))
    (rooted : ∀ call ∈ calls, Rooted call) (before : Env.Absolute s.env.cwd ∨ ∃ call ∈ calls, Inits call) :
    Env.Absolute next.env.cwd := by
  induction calls generalizing s events with
  | nil =>
    cases ran
    rcases before with absolute | ⟨call, member, _⟩
    · exact absolute
    · cases member
  | cons call calls ih =>
    obtain ⟨first, middle, later, taken, rest, _⟩ := run_cons_eq_some.mp ran
    simp only [List.mem_cons, forall_eq_or_imp, exists_eq_or_imp] at rooted before
    refine ih rest rooted.2 ?_
    rcases before with absolute | inits | others
    · exact .inl (step_cwd taken rooted.1 (.inl absolute))
    · exact .inl (step_cwd taken rooted.1 (.inr inits))
    · exact .inr others

/-- After `init`, whatever else was called before and since, `getAbsolutePath` and
`getConfigPath` give absolute paths. -/
theorem paths_absolute {start : Paths Val W} {calls : List (PathCall Val)}
    (ran : run (step str text) calls start = some (events, s)) (rooted : ∀ call ∈ calls, Rooted call)
    (inits : ∃ call ∈ calls, Inits call) :
    (∀ path, Env.Absolute (s.env.getAbsolutePath path)) ∧ Env.Absolute s.env.getConfigPath := by
  have cwd := run_cwd ran rooted (.inr inits)
  exact ⟨Env.absolute_getAbsolutePath cwd, Env.absolute_getAbsolutePath cwd _⟩

/-- Strings are the only type. -/
def Strings : Unit → Type := fun _ => Text

def asText (value : Strings ()) : Text := value

/-- The program starts in `/a`, makes its variable, and asks for three paths. -/
def startUp : List (PathCall Strings) :=
  [.init ['/', 'a', '/', 'x'] ['x'] [['-', 'c'], ['b']], .getConfigPath, .lookup (.create () Env.workName ['/', 'w']),
    .getAbsoluteWorkPath ['f'], .store 0 () ['/', 'v'], .getAbsoluteWorkPath ['f']]

theorem paths_absolute_startUp :
    ∃ events s, run (step () asText) startUp (create HelpThreads.blank : Paths Strings Unit) =
        some (events, s) ∧ s.env.getConfigPath = ['/', 'a', '/', 'b'] ∧
      (∀ path, Env.Absolute (s.env.getAbsolutePath path)) ∧ Env.Absolute s.env.getConfigPath := by
  have ran : ∃ events s, run (step () asText) startUp (create HelpThreads.blank : Paths Strings Unit) =
      some (events, s) ∧ s.env.getConfigPath = ['/', 'a', '/', 'b'] := ⟨_, _, rfl, rfl⟩
  obtain ⟨events, s, ran, config⟩ := ran
  refine ⟨events, s, ran, config, paths_absolute ran ?_ ⟨_, List.mem_cons_self, trivial⟩⟩
  intro call member
  simp only [startUp, List.mem_cons, List.not_mem_nil, or_false] at member
  rcases member with rfl | rfl | rfl | rfl | rfl | rfl
  · exact .inr rfl
  all_goals trivial

theorem work_path_fresh_startUp :
    ∃ events s, run (step () asText) startUp (create HelpThreads.blank : Paths Strings Unit) =
        some (events, s) ∧ s.freshWorkPath () asText ['f'] = some ['/', 'v', '/', 'f'] ∧
      (s.getAbsoluteWorkPath () asText ['f']).map Prod.fst = s.freshWorkPath () asText ['f'] := by
  have ran : ∃ events s, run (step () asText) startUp (create HelpThreads.blank : Paths Strings Unit) =
      some (events, s) ∧ s.freshWorkPath () asText ['f'] = some ['/', 'v', '/', 'f'] := ⟨_, _, rfl, rfl⟩
  obtain ⟨events, s, ran, fresh⟩ := ran
  exact ⟨events, s, ran, fresh, (work_path_fresh () asText HelpThreads.blank ran ['f']).1⟩

end Paths

end Sylar
