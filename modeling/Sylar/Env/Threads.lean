import Sylar.Env.Help
import Sylar.Library.Sections

/-! One `Env` used by many threads, step by step under its `RWMutex`: each turn of the
loops over the help entries is a step of its own. `addHelp` has two sections, that of
`removeHelp` and the one that appends. -/
namespace Sylar

open Library

inductive EnvCall where
  | add (key val : Text)
  | has (key : Text)
  | del (key : Text)
  | get (key default_value : Text)
  | addHelp (key desc : Text)
  | removeHelp (key : Text)
  | printHelp

inductive EnvResult where
  | nothing
  | found (there : Bool)
  | value (val : Text)
  deriving DecidableEq, Repr

/-- Where the current call stands. -/
inductive EnvPlace where
  /-- before its first section, or at the begin of it -/
  | begins
  /-- in the loop that erases, with the iterator at `i` -/
  | erasing (i : Nat)
  /-- at the end of the first section of `addHelp` -/
  | erased
  /-- between the sections of `addHelp`, or at the begin of the second one -/
  | appending
  /-- in the loop that prints, with the entries before `i` printed -/
  | printing (i : Nat)
  /-- at the end of the last section -/
  | ended (result : EnvResult)
  deriving DecidableEq, Repr

/-- A thread: the calls it is in and after that, and what its calls came to. -/
structure EnvThread where
  todo : List EnvCall
  place : EnvPlace
  done : List EnvResult

namespace Env

/-- The lines of `printHelp`. -/
def usage (env : Env) : Text := "Usage: ".toList ++ env.program ++ " [options]\n".toList

def helpLine (entry : Text × Text) : Text := "    -".toList ++ entry.1 ++ " : ".toList ++ entry.2 ++ ['\n']

def helpLines (env : Env) : List Text := env.usage :: env.helps.map helpLine

/-- The entries with other keys. -/
def others (key : Text) (entries : List (Text × Text)) : List (Text × Text) :=
  entries.filter fun entry => entry.1 ≠ key

theorem others_concat (key : Text) (front : List (Text × Text)) (entry : Text × Text) :
    others key (front ++ [entry]) = if entry.1 = key then others key front else others key front ++ [entry] := by
  by_cases same : entry.1 = key
  · simp [others, List.filter_append, same]
  · simp [others, List.filter_append, same]

end Env

/-- The key whose entries a call erases. -/
def EnvCall.erases : EnvCall → Option Text
  | .removeHelp key | .addHelp key _ => some key
  | _ => none

namespace EnvThread

def create (calls : List EnvCall) : EnvThread := ⟨calls, .begins, []⟩

def finish (result : EnvResult) (l : EnvThread) : EnvThread := ⟨l.todo.tail, .begins, l.done ++ [result]⟩

def wants (l : EnvThread) : Option (Unit × Access) :=
  match l.todo, l.place with
  | .has _ :: _, .begins | .get _ _ :: _, .begins | .printHelp :: _, .begins => some ((), .shared)
  | .add _ _ :: _, .begins | .del _ :: _, .begins | .addHelp _ _ :: _, .begins | .removeHelp _ :: _, .begins
  | .addHelp _ _ :: _, .appending => some ((), .exclusive)
  | _, _ => none

/-- Under a `ReadLock`; the events are the texts given to `std::cout`. -/
def read (l : EnvThread) (d : Env) : Option (List Text × EnvThread) :=
  match l.todo, l.place with
  | .has key :: _, .begins => some ([], { l with place := .ended (.found (d.has key)) })
  | .get key default_value :: _, .begins => some ([], { l with place := .ended (.value (d.get key default_value)) })
  | .printHelp :: _, .begins => some ([d.usage], { l with place := .printing 0 })
  | .printHelp :: _, .printing i =>
    match d.helps[i]? with
    | none => some ([], { l with place := .ended .nothing })
    | some entry => some ([Env.helpLine entry], { l with place := .printing (i + 1) })
  | _, _ => none

/-- One turn of the loop of `removeHelp`, or its end: the iterator stays where it is if
the entry is erased. -/
def eraseTurn (key : Text) (i : Nat) (l : EnvThread) (d : Env) (after : EnvPlace) : Env × EnvThread :=
  match d.helps[i]? with
  | none => (d, { l with place := after })
  | some entry =>
    if entry.1 = key then ({ d with helps := d.helps.eraseIdx i }, { l with place := .erasing i })
    else (d, { l with place := .erasing (i + 1) })

/-- Under a `WriteLock`. -/
def write (l : EnvThread) (d : Env) : Option (List Text × Env × EnvThread) :=
  match l.todo, l.place with
  | .add key val :: _, .begins => some ([], d.add key val, { l with place := .ended .nothing })
  | .del key :: _, .begins => some ([], d.del key, { l with place := .ended .nothing })
  | .removeHelp _ :: _, .begins | .addHelp _ _ :: _, .begins => some ([], d, { l with place := .erasing 0 })
  | .removeHelp key :: _, .erasing i => some ([], l.eraseTurn key i d (.ended .nothing))
  | .addHelp key _ :: _, .erasing i => some ([], l.eraseTurn key i d .erased)
  | .addHelp key desc :: _, .appending => some ([], d.pushHelp key desc, { l with place := .ended .nothing })
  | _, _ => none

/-- The guard goes out of scope. -/
def exit (l : EnvThread) : Option EnvThread :=
  match l.place with
  | .erased => some { l with place := .appending }
  | .ended result => some (l.finish result)
  | _ => none

def code : Sections Unit Env EnvThread Text := ⟨wants, read, write, exit⟩

/-- What the section of a call does as a whole. -/
def effect (access : Access) (l : EnvThread) (d : Env) : Option (List Text × Env × EnvThread) :=
  match access, l.todo, l.place with
  | .shared, .has key :: _, .begins => some ([], d, l.finish (.found (d.has key)))
  | .shared, .get key default_value :: _, .begins => some ([], d, l.finish (.value (d.get key default_value)))
  | .shared, .printHelp :: _, .begins => some (d.helpLines, d, l.finish .nothing)
  | .exclusive, .add key val :: _, .begins => some ([], d.add key val, l.finish .nothing)
  | .exclusive, .del key :: _, .begins => some ([], d.del key, l.finish .nothing)
  | .exclusive, .removeHelp key :: _, .begins => some ([], d.removeHelp key, l.finish .nothing)
  | .exclusive, .addHelp key _ :: _, .begins => some ([], d.removeHelp key, { l with place := .appending })
  | .exclusive, .addHelp key desc :: _, .appending => some ([], d.pushHelp key desc, l.finish .nothing)
  | _, _, _ => none

variable {l l₁ l₂ after : EnvThread} {d d₁ d₂ : Env} {past events : List Text} {access : Access}

theorem exit_place (ended : l.exit = some after) : l.place = .erased ∨ ∃ result, l.place = .ended result := by
  simp only [exit] at ended
  split at ended
  · rename_i place
    exact .inl place
  · rename_i result place
    exact .inr ⟨result, place⟩
  · cases ended

/-- A section that is over has no further step. -/
theorem body_over (ended : l.exit = some after) : code.body access l d = none := by
  cases access with
  | shared =>
    rcases exit_place ended with place | ⟨result, place⟩
    · simp [Sections.body, code, read, place]
    · simp [Sections.body, code, read, place]
  | exclusive =>
    rcases exit_place ended with place | ⟨result, place⟩
    · simp [Sections.body, code, write, place]
    · simp [Sections.body, code, write, place]

/-- How far a section has come since it began with `l` and `d`. In the loop that erases,
the entries in front of the iterator are those that stay. -/
inductive Stage (access : Access) (l : EnvThread) (d : Env) : List Text → Env → EnvThread → Prop
  | begins : Stage access l d [] d l
  | erasing {key : Text} (front : List (Text × Text)) {back : List (Text × Text)} {call : EnvCall} {rest : List EnvCall}
      (exclusive : access = .exclusive) (todo : l.todo = call :: rest) (place : l.place = .begins)
      (erases : call.erases = some key) (split : d.helps = front ++ back) :
      Stage access l d [] { d with helps := Env.others key front ++ back }
        { l with place := .erasing (Env.others key front).length }
  | printing {rest : List EnvCall} (i : Nat) (shared : access = .shared) (todo : l.todo = .printHelp :: rest)
      (place : l.place = .begins) :
      Stage access l d (d.usage :: (d.helps.take i).map Env.helpLine) d { l with place := .printing i }
  | ended {past : List Text} {d' : Env} {l' after : EnvThread} (left : l'.exit = some after)
      (whole : effect access l d = some (past, d', after)) : Stage access l d past d' l'

theorem Stage.first_shared (wants : l.wants = some ((), .shared)) (taken : l.read d = some (events, l₂)) :
    Stage .shared l d events d l₂ := by
  simp only [EnvThread.wants] at wants
  split at wants
  · rename_i key rest todo place
    simp only [read, todo, place, Option.some.injEq, Prod.mk.injEq] at taken
    obtain ⟨rfl, rfl⟩ := taken
    exact .ended rfl (by simp [effect, todo, place, finish])
  · rename_i key default_value rest todo place
    simp only [read, todo, place, Option.some.injEq, Prod.mk.injEq] at taken
    obtain ⟨rfl, rfl⟩ := taken
    exact .ended rfl (by simp [effect, todo, place, finish])
  · rename_i rest todo place
    simp only [read, todo, place, Option.some.injEq, Prod.mk.injEq] at taken
    obtain ⟨rfl, rfl⟩ := taken
    rw [← todo]
    exact .printing 0 rfl todo place
  all_goals cases wants

theorem Stage.first_exclusive (wants : l.wants = some ((), .exclusive))
    (taken : l.write d = some (events, d₂, l₂)) : Stage .exclusive l d events d₂ l₂ := by
  simp only [EnvThread.wants] at wants
  split at wants
  · cases wants
  · cases wants
  · cases wants
  · rename_i key val rest todo place
    simp only [write, todo, place, Option.some.injEq, Prod.mk.injEq] at taken
    obtain ⟨rfl, rfl, rfl⟩ := taken
    exact .ended rfl (by simp [effect, todo, place, finish])
  · rename_i key rest todo place
    simp only [write, todo, place, Option.some.injEq, Prod.mk.injEq] at taken
    obtain ⟨rfl, rfl, rfl⟩ := taken
    exact .ended rfl (by simp [effect, todo, place, finish])
  · rename_i key desc rest todo place
    simp only [write, todo, place, Option.some.injEq, Prod.mk.injEq] at taken
    obtain ⟨rfl, rfl, rfl⟩ := taken
    rw [← todo]
    exact .erasing [] rfl todo place rfl rfl
  · rename_i key rest todo place
    simp only [write, todo, place, Option.some.injEq, Prod.mk.injEq] at taken
    obtain ⟨rfl, rfl, rfl⟩ := taken
    rw [← todo]
    exact .erasing [] rfl todo place rfl rfl
  · rename_i key desc rest todo place
    simp only [write, todo, place, Option.some.injEq, Prod.mk.injEq] at taken
    obtain ⟨rfl, rfl, rfl⟩ := taken
    exact .ended rfl (by simp [effect, todo, place, finish])
  · cases wants

/-- One more turn of the loop that erases: the entry at the iterator goes or stays. -/
theorem Stage.turn_erasing {key : Text} {front back : List (Text × Text)} {call : EnvCall} {rest : List EnvCall}
    {behind : EnvPlace} (todo : l.todo = call :: rest) (place : l.place = .begins) (erases : call.erases = some key)
    (split : d.helps = front ++ back) (whole : Stage .exclusive l d [] (d.removeHelp key) { l with place := behind })
    (turned : eraseTurn key (Env.others key front).length { l with place := .erasing (Env.others key front).length }
      { d with helps := Env.others key front ++ back } behind = (d₂, l₂)) : Stage .exclusive l d [] d₂ l₂ := by
  cases back with
  | nil =>
    have here : (Env.others key front ++ [])[(Env.others key front).length]? = none := by simp
    simp only [eraseTurn, here, Prod.mk.injEq] at turned
    obtain ⟨rfl, rfl⟩ := turned
    rw [List.append_nil] at split ⊢
    rw [← split]
    exact whole
  | cons entry back =>
    have here : (Env.others key front ++ entry :: back)[(Env.others key front).length]? = some entry := by simp
    have further : d.helps = (front ++ [entry]) ++ back := by rw [split, List.append_assoc, List.singleton_append]
    have next := Stage.erasing (front ++ [entry]) rfl todo place erases further
    simp only [eraseTurn, here] at turned
    by_cases same : entry.1 = key
    · have kept : Env.others key (front ++ [entry]) = Env.others key front := by
        rw [Env.others_concat, if_pos same]
      have erased : (Env.others key front ++ entry :: back).eraseIdx (Env.others key front).length =
          Env.others key front ++ back := by
        rw [List.eraseIdx_append_of_length_le (Nat.le_refl _), Nat.sub_self, List.eraseIdx_cons_zero]
      simp only [same, if_true, erased, Prod.mk.injEq] at turned
      obtain ⟨rfl, rfl⟩ := turned
      rwa [kept] at next
    · have kept : Env.others key (front ++ [entry]) = Env.others key front ++ [entry] := by
        rw [Env.others_concat, if_neg same]
      simp only [same, if_false, Prod.mk.injEq] at turned
      obtain ⟨rfl, rfl⟩ := turned
      rwa [kept, List.length_append, List.append_assoc, List.singleton_append] at next

/-- One more turn of the loop that prints, or its end. -/
theorem Stage.turn_printing {i : Nat} {rest : List EnvCall} (todo : l.todo = .printHelp :: rest)
    (place : l.place = .begins) (taken : read { l with place := .printing i } d = some (events, l₂)) :
    Stage .shared l d (d.usage :: (d.helps.take i).map Env.helpLine ++ events) d l₂ := by
  simp only [read, todo] at taken
  split at taken
  · rename_i behind
    simp only [Option.some.injEq, Prod.mk.injEq] at taken
    obtain ⟨rfl, rfl⟩ := taken
    rw [List.getElem?_eq_none_iff] at behind
    rw [List.take_of_length_le behind, List.append_nil]
    exact .ended rfl (by simp [effect, todo, place, finish, Env.helpLines])
  · rename_i entry found
    simp only [Option.some.injEq, Prod.mk.injEq] at taken
    obtain ⟨rfl, rfl⟩ := taken
    have lines : (d.helps.take i).map Env.helpLine ++ [Env.helpLine entry] = (d.helps.take (i + 1)).map Env.helpLine := by
      rw [List.take_add_one, found, List.map_append]
      rfl
    rw [List.cons_append, lines, ← todo]
    exact .printing (i + 1) rfl todo place

/-- Every step of a section takes it further. -/
theorem Stage.step (wants : l.wants = some ((), access)) (stage : Stage access l d past d₁ l₁)
    (taken : code.body access l₁ d₁ = some (events, d₂, l₂)) : Stage access l d (past ++ events) d₂ l₂ := by
  cases stage with
  | begins =>
    cases access with
    | shared =>
      obtain ⟨⟨emitted, next⟩, read, same⟩ := Option.map_eq_some_iff.mp taken
      cases same
      exact .first_shared wants read
    | exclusive => exact .first_exclusive wants taken
  | printing i shared todo place =>
    subst shared
    obtain ⟨⟨emitted, next⟩, read, same⟩ := Option.map_eq_some_iff.mp taken
    cases same
    exact .turn_printing todo place read
  | @erasing key front back call rest exclusive todo place erases split =>
    subst exclusive
    cases call with
    | removeHelp key =>
      cases erases
      simp only [Sections.body, code, write, todo, Option.some.injEq, Prod.mk.injEq] at taken
      obtain ⟨rfl, turned⟩ := taken
      rw [← todo] at turned
      exact .turn_erasing todo place rfl split (.ended rfl (by simp [effect, todo, place, finish])) turned
    | addHelp key desc =>
      cases erases
      simp only [Sections.body, code, write, todo, Option.some.injEq, Prod.mk.injEq] at taken
      obtain ⟨rfl, turned⟩ := taken
      rw [← todo] at turned
      exact .turn_erasing todo place rfl split (.ended rfl (by simp [effect, todo, place])) turned
    | add | has | del | get | printHelp => cases erases
  | ended left whole =>
    rw [body_over left] at taken
    cases taken

theorem stage_of_inside (wants : l.wants = some ((), access)) (ran : code.Inside access l d past d₁ l₁) :
    Stage access l d past d₁ l₁ :=
  ran.invariant (Stage access l d) (fun _ _ _ _ _ _ stage taken => stage.step wants taken) .begins

/-- A section of a call does what it does as a whole. -/
theorem meets : code.Meets effect := by
  intro k access l d events d' l' after wants ran left
  cases stage_of_inside wants ran with
  | begins =>
    -- a call at its begin cannot be over
    rcases exit_place left with place | ⟨result, place⟩
    · simp [code, EnvThread.wants, place] at wants
    · simp [code, EnvThread.wants, place] at wants
  | erasing | printing => cases left
  | ended left' whole =>
    cases left.symm.trans left'
    exact whole

/-- The step on the help entries that a whole section is. -/
def helpStep (t : I) (l : EnvThread) : List (HelpStep I) :=
  match l.todo, l.place with
  | .addHelp key desc :: _, .begins => [.enter t (.addHelp key desc)]
  | .removeHelp key :: _, .begins => [.enter t (.removeHelp key)]
  | .addHelp _ _ :: _, .appending => [.resume t]
  | _, _ => []

/-- The `addHelp` whose last section is still to come. -/
def adding (l : EnvThread) : Option (Text × Text) :=
  match l.todo, l.place with
  | .addHelp key desc :: _, .appending => some (key, desc)
  | _, _ => none

theorem adding_begins (place : l.place = .begins) : l.adding = none := by
  unfold adding
  split
  · rename_i here
    cases place.symm.trans here
  · rfl

/-- What a whole section does to the help entries. -/
theorem effect_helps {d' : Env} {l' : EnvThread} (t : I) (whole : effect access l d = some (events, d', l')) :
    (l.helpStep t = [] ∧ d'.helps = d.helps ∧ l'.adding = l.adding) ∨
    (∃ key call, l.helpStep t = [.enter t call] ∧ l.adding = none ∧ d'.helps = (d.removeHelp key).helps ∧
      (call = .removeHelp key ∧ l'.adding = none ∨ ∃ desc, call = .addHelp key desc ∧ l'.adding = some (key, desc))) ∨
    (∃ key desc, l.helpStep t = [.resume t] ∧ l.adding = some (key, desc) ∧ d'.helps = (d.pushHelp key desc).helps ∧
      l'.adding = none) := by
  simp only [effect] at whole
  split at whole
  case h_6 key rest todo place =>
    simp only [Option.some.injEq, Prod.mk.injEq] at whole
    obtain ⟨_, rfl, rfl⟩ := whole
    exact .inr (.inl ⟨key, _, by simp [helpStep, todo, place], adding_begins place, rfl, .inl ⟨rfl, adding_begins rfl⟩⟩)
  case h_7 key desc rest todo place =>
    simp only [Option.some.injEq, Prod.mk.injEq] at whole
    obtain ⟨_, rfl, rfl⟩ := whole
    exact .inr (.inl ⟨key, _, by simp [helpStep, todo, place], adding_begins place, rfl,
      .inr ⟨desc, rfl, by simp [adding, todo]⟩⟩)
  case h_8 key desc rest todo place =>
    simp only [Option.some.injEq, Prod.mk.injEq] at whole
    obtain ⟨_, rfl, rfl⟩ := whole
    exact .inr (.inr ⟨key, desc, by simp [helpStep, todo, place], by simp [adding, todo, place], rfl,
      adding_begins rfl⟩)
  case h_9 => cases whole
  all_goals
    rename_i todo place
    simp only [Option.some.injEq, Prod.mk.injEq] at whole
    obtain ⟨_, rfl, rfl⟩ := whole
    refine .inl ⟨by simp [helpStep, todo, place], rfl, ?_⟩
    rw [adding_begins place]
    exact adding_begins rfl

end EnvThread

/-- An `Env` and the threads that use it. -/
abbrev EnvThreads (I : Type u) := Contended I Unit Env EnvThread

namespace EnvThreads

variable {I : Type u}

def create (env : Env) (calls : I → List EnvCall) : EnvThreads I := .start (fun _ => env) fun t => .create (calls t)

variable [DecidableEq I]

abbrev step : EnvThreads I → Move I → Option (List (I × Text) × EnvThreads I) := Contended.step EnvThread.code

abbrev stepWhole : Atomic I Unit Env EnvThread → I → Option (List (I × Text) × Atomic I Unit Env EnvThread) :=
  Atomic.step EnvThread.code EnvThread.effect

/-- However the steps of the threads interleave, the members, what each call comes to and
what each thread prints are those of whole sections, one after the other in the order in
which the locks are given back. -/
theorem env_sections_whole (env : Env) (calls : I → List EnvCall) {moves : List (Move I)} {events : List (I × Text)}
    {s : EnvThreads I} (ran : run step moves (create env calls) = some (events, s)) (ended : ∀ t, s.inside t = none) :
    ∃ whole, run stepWhole (moves.filterMap Move.left) ⟨fun _ => env, fun t => .create (calls t)⟩ =
        some (whole, ⟨s.data, s.thread⟩) ∧ ∀ t, own t events = own t whole :=
  run_atomic EnvThread.meets ran ended

/-- Two threads add an entry with the same key, and one of them prints the entries. -/
def twoAdders : EnvThreads Bool :=
  create HelpThreads.blank fun t => if t then [.addHelp ['h'] ['a'], .printHelp] else [.addHelp ['h'] ['b']]

/-- Both have erased the key before either of them appends it. -/
def twoAddersMoves : List (Move Bool) :=
  [.enter true, .work true, .work true, .leave true, .enter false, .work false, .work false, .leave false,
    .enter true, .work true, .leave true, .enter false, .work false, .leave false,
    .enter true, .work true, .work true, .work true, .work true, .leave true]

theorem twoAdders_ran : ∃ events s, run step twoAddersMoves twoAdders = some (events, s) ∧
    own true events = [HelpThreads.blank.usage, Env.helpLine (['h'], ['a']), Env.helpLine (['h'], ['b'])] ∧
      ∀ t, s.inside t = none := by
  refine ⟨_, _, rfl, rfl, ?_⟩
  intro t
  cases t <;> rfl

theorem env_sections_whole_twoAdders :
    ∃ events s, run step twoAddersMoves twoAdders = some (events, s) ∧
      ∃ whole, run stepWhole (twoAddersMoves.filterMap Move.left) ⟨twoAdders.data, twoAdders.thread⟩ =
          some (whole, ⟨s.data, s.thread⟩) ∧ ∀ t, own t events = own t whole := by
  obtain ⟨events, s, ran, _, ended⟩ := twoAdders_ran
  exact ⟨events, s, ran, env_sections_whole _ _ ran ended⟩

/-- The sections on the help entries, as the steps of `HelpThreads`. -/
structure Follows (a : Atomic I Unit Env EnvThread) (h : HelpThreads I) : Prop where
  helps : h.env.helps = (a.data ()).helps
  adding : ∀ t, h.adding t = (a.thread t).adding

omit [DecidableEq I] in
theorem Follows.create (env : Env) (calls : I → List EnvCall) :
    Follows ⟨fun _ => env, fun t => .create (calls t)⟩ ⟨env, fun _ => none⟩ where
  helps := rfl
  adding _ := (EnvThread.adding_begins rfl).symm

variable {a next : Atomic I Unit Env EnvThread} {h : HelpThreads I} {events : List (I × Text)}

theorem stepWhole_cases {t : I} (taken : stepWhole a t = some (events, next)) :
    ∃ access lines d l, EnvThread.effect access (a.thread t) (a.data ()) = some (lines, d, l) ∧
      next = ⟨Function.update a.data () d, Function.update a.thread t l⟩ := by
  simp only [stepWhole, Atomic.step] at taken
  split at taken
  · rename_i k access wants
    split at taken
    · rename_i lines d l whole
      cases taken
      exact ⟨access, lines, d, l, whole, rfl⟩
    · cases taken
  · cases taken

/-- A whole section is a step on the help entries or leaves them alone. -/
theorem Follows.step (follows : Follows a h) {t : I} (taken : stepWhole a t = some (events, next)) :
    ∃ sections h', run HelpThreads.step ((a.thread t).helpStep t) h = some (sections, h') ∧ Follows next h' := by
  obtain ⟨access, lines, d, l, whole, rfl⟩ := stepWhole_cases taken
  have adding := follows.adding t
  -- what the threads are adding, given what `t` is
  have others {h' : HelpThreads I} (here : h'.adding = Function.update h.adding t l.adding) (u : I) :
      h'.adding u = (Function.update a.thread t l u).adding := by
    rw [here]
    by_cases self : u = t
    · subst self
      simp only [Function.update_self]
    · simp only [Function.update_of_ne self, follows.adding]
  rcases EnvThread.effect_helps t whole with ⟨still, helps, same⟩ | ⟨key, call, label, out, helps, after⟩ |
    ⟨key, desc, label, within, helps, after⟩
  · refine ⟨[], h, by rw [still, run_nil], follows.helps.trans helps.symm, others ?_⟩
    rw [same, ← adding, Function.update_eq_self]
  · rw [label]
    rw [out] at adding
    rcases after with ⟨rfl, after⟩ | ⟨desc, rfl, after⟩
    · refine ⟨_, _, by simp only [run, HelpThreads.step, adding]; rfl, ?_, others ?_⟩
      · simp only [Function.update_self, helps, Env.removeHelp, follows.helps]
      · rw [after, ← adding, Function.update_eq_self]
    · refine ⟨_, _, by simp only [run, HelpThreads.step, adding]; rfl, ?_, others ?_⟩
      · simp only [Function.update_self, helps, Env.removeHelp, follows.helps]
      · rw [after]
  · rw [label]
    rw [within] at adding
    refine ⟨_, _, by simp only [run, HelpThreads.step, adding]; rfl, ?_, others ?_⟩
    · simp only [Function.update_self, helps, Env.pushHelp, follows.helps]
    · rw [after]

theorem Follows.run {turns : List I} (follows : Follows a h) (ran : run stepWhole turns a = some (events, next)) :
    ∃ labels sections h', run HelpThreads.step labels h = some (sections, h') ∧ Follows next h' := by
  induction turns generalizing a h events with
  | nil =>
    cases ran
    exact ⟨[], [], h, rfl, follows⟩
  | cons t turns ih =>
    obtain ⟨first, middle, later, taken, rest, _⟩ := run_cons_eq_some.mp ran
    obtain ⟨front, middle', one, follows'⟩ := follows.step taken
    obtain ⟨labels, back, h', others, followsNext⟩ := ih follows' rest
    exact ⟨_, _, h', run_append_eq_some.mpr ⟨front, middle', back, one, others, rfl⟩, followsNext⟩

/-- Whenever no thread is inside, the help entries are those that the sections of
`addHelp` and `removeHelp` lead to as whole steps. -/
theorem helps_whole (env : Env) (calls : I → List EnvCall) {moves : List (Move I)} {events : List (I × Text)}
    {s : EnvThreads I} (ran : run step moves (create env calls) = some (events, s)) (ended : ∀ t, s.inside t = none) :
    ∃ labels sections h, run HelpThreads.step labels ⟨env, fun _ => none⟩ = some (sections, h) ∧
      h.env.helps = (s.data ()).helps ∧ ∀ t, h.adding t = (s.thread t).adding := by
  obtain ⟨whole, atomic, _⟩ := run_atomic EnvThread.meets ran ended
  obtain ⟨labels, sections, h, ranHelps, follows⟩ := (Follows.create env calls).run atomic
  exact ⟨labels, sections, h, ranHelps, follows.helps, follows.adding⟩

theorem helps_whole_twoAdders :
    ∃ events s, run step twoAddersMoves twoAdders = some (events, s) ∧
      ∃ labels sections h, run HelpThreads.step labels ⟨HelpThreads.blank, fun _ => none⟩ = some (sections, h) ∧
        h.env.helps = (s.data ()).helps ∧ ∀ t, h.adding t = (s.thread t).adding := by
  obtain ⟨events, s, ran, _, ended⟩ := twoAdders_ran
  exact ⟨events, s, ran, helps_whole _ _ ran ended⟩

end EnvThreads

end Sylar
