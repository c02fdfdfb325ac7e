import Mathlib.Data.List.Lex
import Sylar.Library.Table
import Sylar.Library.Text

/-! `Env`: what the program was started with. The paths come from the system and the
arguments from `main`; `init` goes through the arguments with a key that may still
wait for its value. -/
namespace Sylar

open Library

structure Env where
  /-- `m_args` -/
  args : Table (fun entry : Text × Text => entry.1)
  /-- `m_helps` -/
  helps : List (Text × Text)
  program : Text
  exe : Text
  cwd : Text

namespace Env

def add (key val : Text) (env : Env) : Env := { env with args := env.args.put (key, val) }

def has (key : Text) (env : Env) : Bool := (env.args.find? key).isSome

def del (key : Text) (env : Env) : Env := { env with args := env.args.erase key }

def get (key default_value : Text) (env : Env) : Text :=
  match env.args.find? key with
  | some (_, val) => val
  | none => default_value

theorem get_add (key val k default_value : Text) (env : Env) :
    (env.add key val).get k default_value = if key = k then val else env.get k default_value := by
  rw [get, add, Table.find?_put]
  split_ifs
  · rfl
  · rfl

theorem get_del (key k default_value : Text) (env : Env) :
    (env.del key).get k default_value = if key = k then default_value else env.get k default_value := by
  rw [get, del, Table.find?_erase]
  split_ifs
  · rfl
  · rfl

/-- The text up to the last slash, or all of it. -/
def directory (path : Text) : Text :=
  if path.contains '/' then (path.reverse.dropWhile (· ≠ '/')).tail.reverse else path

/-- The line that a refused argument leaves in the log of `system`. -/
def invalidArg (i : Nat) (arg : Text) : Text :=
  "invalid arg idx=".toList ++ (Nat.repr i).toList ++ " val=".toList ++ arg

/-- The loop of `init` from index `i` on: the lines it logs and what it returns. -/
def parse (now_key : Option Text) (i : Nat) (env : Env) : List Text → List Text × Bool × Env
  | [] =>
    match now_key with
    | some key => ([], true, env.add key [])
    | none => ([], true, env)
  | arg :: rest =>
    if arg.head? = some '-' then
      if arg.length > 1 then
        match now_key with
        | some key => parse (some arg.tail) (i + 1) (env.add key []) rest
        | none => parse (some arg.tail) (i + 1) env rest
      else ([invalidArg i arg], false, env)
    else
      match now_key with
      | some key => parse none (i + 1) (env.add key arg) rest
      | none => ([invalidArg i arg], false, env)

/-- The members that `init` sets before it looks at the arguments. -/
def located (path argv0 : Text) (env : Env) : Env :=
  { env with exe := path, cwd := directory path ++ ['/'], program := argv0 }

/-- `init`; `path` is what the system says is the file of the process, `argv0` and
`args` are `argv`. -/
def init (path argv0 : Text) (args : List Text) (env : Env) : List Text × Bool × Env :=
  parse none 1 (env.located path argv0) args

end Env

/-- One option of a command line: a key and perhaps a value. -/
structure OptionGroup where
  key : Text
  val : Option Text
  key_ne : key ≠ []
  plain : ∀ v ∈ val, v.head? ≠ some '-'

namespace OptionGroup

def args (group : OptionGroup) : List Text := ('-' :: group.key) :: group.val.toList

/-- A group without a value gives its key the empty one. -/
def value (group : OptionGroup) : Text := group.val.getD []

def flag (key : Text) (key_ne : key ≠ []) : OptionGroup := ⟨key, none, key_ne, by simp⟩

/-- Groups taken off a command line start with a key. -/
theorem cons_eq_flatMap {groups : List OptionGroup} {arg : Text} {rest : List Text}
    (split : arg :: rest = groups.flatMap args) :
    ∃ group later, groups = group :: later ∧ arg = '-' :: group.key ∧
      rest = group.val.toList ++ later.flatMap args := by
  cases groups with
  | nil => cases split
  | cons group later =>
    rw [List.flatMap_cons, args, List.cons_append] at split
    obtain ⟨head, tail⟩ := List.cons.inj split
    exact ⟨group, later, rfl, head, tail⟩

end OptionGroup

namespace Env

def addGroup (env : Env) (group : OptionGroup) : Env := env.add group.key group.value

/-- The argument of the key that waits. -/
def pending : Option Text → List Text
  | some key => ['-' :: key]
  | none => []

theorem parse_key (i : Nat) (env : Env) {key : Text} (rest : List Text) (key_ne : key ≠ []) :
    parse none i env (('-' :: key) :: rest) = parse (some key) (i + 1) env rest := by
  have long : ('-' :: key).length > 1 := by simpa using List.length_pos_iff.mpr key_ne
  rw [parse, if_pos (by rfl), if_pos long]
  rfl

/-- A key that no value follows gets the empty one. -/
theorem parse_key_key (old : Text) (i : Nat) (env : Env) {key : Text} (rest : List Text)
    (key_ne : key ≠ []) :
    parse (some old) i env (('-' :: key) :: rest) = parse (some key) (i + 1) (env.add old []) rest := by
  have long : ('-' :: key).length > 1 := by simpa using List.length_pos_iff.mpr key_ne
  rw [parse, if_pos (by rfl), if_pos long]
  rfl

theorem parse_key_value (key : Text) (i : Nat) (env : Env) {val : Text} (rest : List Text)
    (plain : val.head? ≠ some '-') :
    parse (some key) i env (val :: rest) = parse none (i + 1) (env.add key val) rest := by
  rw [parse, if_neg plain]

/-- A command line that is made of groups is taken in, group by group. -/
theorem parse_groups {args : List Text} (now_key : Option Text) (i : Nat) (env : Env)
    {groups : List OptionGroup} (split : pending now_key ++ args = groups.flatMap OptionGroup.args) :
    parse now_key i env args = ([], true, groups.foldl addGroup env) := by
  induction args generalizing now_key i env groups with
  | nil =>
    cases now_key with
    | none =>
      cases groups with
      | nil => rfl
      | cons group later => cases split
    | some key =>
      obtain ⟨group, later, rfl, head, tail⟩ := OptionGroup.cons_eq_flatMap split
      cases (List.cons.inj head).2
      obtain ⟨none, empty⟩ := List.append_eq_nil_iff.mp tail.symm
      cases later with
      | nil => simp [parse, addGroup, OptionGroup.value, Option.toList_eq_nil_iff.mp none]
      | cons other _ => cases empty
  | cons arg rest ih =>
    cases now_key with
    | none =>
      obtain ⟨group, later, rfl, rfl, _⟩ := OptionGroup.cons_eq_flatMap split
      rw [parse_key i env rest group.key_ne]
      exact ih (some group.key) (i + 1) env split
    | some key =>
      obtain ⟨group, later, rfl, head, tail⟩ := OptionGroup.cons_eq_flatMap split
      cases (List.cons.inj head).2
      cases given : group.val with
      | some v =>
        rw [given] at tail
        obtain ⟨rfl, others⟩ : arg = v ∧ rest = later.flatMap OptionGroup.args := List.cons.inj tail
        have value : group.value = arg := by rw [OptionGroup.value, given, Option.getD_some]
        rw [parse_key_value group.key i env rest (group.plain arg given), List.foldl_cons, addGroup, value]
        exact ih none (i + 1) (env.add group.key arg) others
      | none =>
        rw [given] at tail
        obtain ⟨next, others, rfl, rfl, _⟩ := OptionGroup.cons_eq_flatMap tail
        have value : group.value = [] := by rw [OptionGroup.value, given, Option.getD_none]
        rw [parse_key_key group.key i env rest next.key_ne, List.foldl_cons, addGroup, value]
        exact ih (some next.key) (i + 1) (env.add group.key []) tail

/-- What is taken in is made of groups. -/
theorem groups_of_parse {args : List Text} {now_key : Option Text} (i : Nat) (env : Env)
    (key_ne : ∀ key ∈ now_key, key ≠ []) (accepted : (parse now_key i env args).2.1 = true) :
    ∃ groups : List OptionGroup, pending now_key ++ args = groups.flatMap OptionGroup.args := by
  induction args generalizing now_key i env with
  | nil =>
    cases now_key with
    | none => exact ⟨[], rfl⟩
    | some key => exact ⟨[.flag key (key_ne key rfl)], rfl⟩
  | cons arg rest ih =>
    unfold parse at accepted
    split_ifs at accepted with dash long
    · obtain ⟨key', rfl⟩ : ∃ key', arg = '-' :: key' := by
        cases arg with
        | nil => cases dash
        | cons c key' =>
          cases dash
          exact ⟨key', rfl⟩
      have nonempty : ∀ key ∈ some key', key ≠ [] := by
        rintro key ⟨⟩ rfl
        simp at long
      cases now_key with
      | none => exact ih (i + 1) env nonempty accepted
      | some key =>
        obtain ⟨groups, split⟩ := ih (i + 1) (env.add key []) nonempty accepted
        refine ⟨.flag key (key_ne key rfl) :: groups, ?_⟩
        rw [List.flatMap_cons, ← split]
        rfl
    · cases now_key with
      | none => cases accepted
      | some key =>
        obtain ⟨groups, split⟩ := ih (i + 1) (env.add key arg) (by simp) accepted
        refine ⟨⟨key, some arg, key_ne key rfl, ?_⟩ :: groups, ?_⟩
        · rintro v ⟨⟩
          exact dash
        · rw [List.flatMap_cons, ← split]
          rfl

theorem args_groups (groups : List OptionGroup) (env : Env) :
    (groups.foldl addGroup env).args =
      groups.foldl (fun m group => m.put (group.key, group.value)) env.args := by
  induction groups generalizing env with
  | nil => rfl
  | cons group later ih => exact ih (env.addGroup group)

/-- A command line is refused at one argument; the line in the log names it and its index. -/
theorem parse_refused {args : List Text} {now_key : Option Text} {i : Nat} {env : Env}
    (refused : (parse now_key i env args).2.1 = false) :
    ∃ front arg back, args = front ++ arg :: back ∧
      (parse now_key i env args).1 = [invalidArg (i + front.length) arg] := by
  induction args generalizing now_key i env with
  | nil => cases now_key <;> cases refused
  | cons arg rest ih =>
    -- the loop goes on with the next index
    have later {now_key : Option Text} {env : Env}
        (refused : (parse now_key (i + 1) env rest).2.1 = false) :
        ∃ front stop back, arg :: rest = front ++ stop :: back ∧
          (parse now_key (i + 1) env rest).1 = [invalidArg (i + front.length) stop] := by
      obtain ⟨front, stop, back, rfl, line⟩ := ih refused
      refine ⟨arg :: front, stop, back, rfl, ?_⟩
      rw [line, List.length_cons, Nat.add_assoc, Nat.add_comm 1]
    unfold parse at refused ⊢
    split_ifs at refused ⊢ with dash long
    · cases now_key with
      | none => exact later refused
      | some key => exact later refused
    · exact ⟨[], arg, rest, rfl, rfl⟩
    · cases now_key with
      | none => exact ⟨[], arg, rest, rfl, rfl⟩
      | some key => exact later refused

/-- The last group with a key decides its value; keys of no group keep theirs. -/
theorem find?_groups (groups : List OptionGroup) (env : Env) (key : Text) :
    (groups.foldl addGroup env).args.find? key =
      match groups.reverse.find? (·.key = key) with
      | some group => some (key, group.value)
      | none => env.args.find? key := by
  induction groups generalizing env with
  | nil => rfl
  | cons group later ih =>
    rw [List.foldl_cons, ih, List.reverse_cons, List.find?_append]
    cases later.reverse.find? (·.key = key) with
    | some last => rfl
    | none =>
      by_cases here : group.key = key
      · subst here
        simp [addGroup, add]
      · simp [addGroup, add, here, Table.find?_put_other]

theorem init_groups (path argv0 : Text) (groups : List OptionGroup) (env : Env) :
    init path argv0 (groups.flatMap OptionGroup.args) env =
      ([], true, groups.foldl addGroup (env.located path argv0)) :=
  parse_groups none 1 _ rfl

/-- The arguments are accepted just when they form groups, and then the map is the old
one with the groups entered from left to right. -/
theorem init_iff_groups (path argv0 : Text) (args : List Text) (env : Env) :
    ((init path argv0 args env).2.1 = true ↔
      ∃ groups : List OptionGroup, args = groups.flatMap OptionGroup.args) ∧
    ∀ groups : List OptionGroup, args = groups.flatMap OptionGroup.args →
      (init path argv0 args env).2.2.args =
        groups.foldl (fun m group => m.put (group.key, group.value)) env.args ∧
      ∀ key, (init path argv0 args env).2.2.args.find? key =
        match groups.reverse.find? (·.key = key) with
        | some group => some (key, group.value)
        | none => env.args.find? key := by
  refine ⟨⟨?_, ?_⟩, ?_⟩
  · intro accepted
    exact groups_of_parse 1 _ (by simp) accepted
  · rintro ⟨groups, rfl⟩
    rw [init_groups]
  · rintro groups rfl
    rw [init_groups]
    exact ⟨args_groups groups _, find?_groups groups _⟩

/-- `get` after an accepted command line. -/
theorem get_init (path argv0 : Text) (groups : List OptionGroup) (env : Env) (key default_value : Text) :
    (init path argv0 (groups.flatMap OptionGroup.args) env).2.2.get key default_value =
      match groups.reverse.find? (·.key = key) with
      | some group => group.value
      | none => env.get key default_value := by
  rw [init_groups, get, find?_groups]
  cases groups.reverse.find? (·.key = key) with
  | some group => rfl
  | none => rfl

end Env

end Sylar
