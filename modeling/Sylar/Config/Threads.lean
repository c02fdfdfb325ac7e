import Sylar.Config.Var
import Sylar.Library.Sections

/-! One variable used by many threads, step by step under its `RWMutex`: each turn of the
loop over the listeners is a step of its own, and between two steps of a section any
other thread may run. `fromString` converts without the lock and then calls `setValue`. -/
namespace Sylar

open Library

/-- The public calls that take the lock of the variable. -/
inductive VarCall (T : Type u) (W : Type v) where
  | getValue
  | toString
  | setValue (v : T)
  | addListener (cb : OnChange T W)
  | delListener (id : Nat)
  | getListener (id : Nat)
  | clearListener

/-- What a call comes to; after an exception the caller goes on with its next call. -/
inductive VarResult (T : Type u) (W : Type v) where
  | value (v : T)
  | text (text : Text)
  | id (id : Nat)
  | listener (cb : Option (OnChange T W))
  | nothing
  | threw (exn : Exn)

/-- Where the current call stands. -/
inductive VarPlace (T : Type u) (W : Type v) where
  /-- before its first section, or at the begin of it -/
  | begins
  /-- in the loop of `setValue`, with the listeners before `i` called -/
  | notifying (i : Nat)
  /-- between the sections of `setValue`, or at the begin of the second one -/
  | storing
  /-- at the end of the first section of `setValue` -/
  | compared
  /-- at the end of the last section -/
  | ended (result : VarResult T W)

/-- A thread: what its listeners act on, the calls it is in and after that, and what its
calls came to. -/
structure VarThread (T : Type u) (W : Type v) where
  world : W
  todo : List (VarCall T W)
  place : VarPlace T W
  done : List (VarResult T W)

/-- What the lock protects. The counter is that of the template instance, of which this is
the only variable. -/
structure VarData (T : Type u) (W : Type v) where
  var : ConfigVar T W
  funId : Nat

namespace VarThread

variable {T : Type u} {W : Type v}

def create (world : W) (calls : List (VarCall T W)) : VarThread T W := ⟨world, calls, .begins, []⟩

/-- The call is over. -/
def finish (result : VarResult T W) (l : VarThread T W) : VarThread T W :=
  { l with todo := l.todo.tail, place := .begins, done := l.done ++ [result] }

def wants (l : VarThread T W) : Option (Unit × Access) :=
  match l.todo, l.place with
  | .getValue :: _, .begins | .toString :: _, .begins | .setValue _ :: _, .begins | .getListener _ :: _, .begins =>
    some ((), .shared)
  | .addListener _ :: _, .begins | .delListener _ :: _, .begins | .clearListener :: _, .begins
  | .setValue _ :: _, .storing => some ((), .exclusive)
  | _, _ => none

/-- `toString`: standard exceptions of the conversion are caught. -/
def printed (toStr : T → Except Exn Text) (val : T) : VarResult T W :=
  match toStr val with
  | .ok text => .text text
  | .error .standard => .text []
  | .error .other => .threw .other

variable [BEq T]

/-- Under a `ReadLock`. A thread whose listener crashes does not go on. -/
def read (toStr : T → Except Exn Text) (l : VarThread T W) (d : VarData T W) :
    Option (List (Event T) × VarThread T W) :=
  match l.todo, l.place with
  | .getValue :: _, .begins => some ([], { l with place := .ended (.value d.var.getValue) })
  | .toString :: _, .begins => some ([], { l with place := .ended (printed toStr d.var.val) })
  | .getListener id :: _, .begins => some ([], { l with place := .ended (.listener (d.var.getListener id)) })
  | .setValue v :: _, .begins =>
    if v == d.var.val then some ([], { l with place := .ended .nothing })
    else some ([], { l with place := .notifying 0 })
  | .setValue v :: _, .notifying i =>
    match d.var.cbs.entries[i]? with
    | none => some ([], { l with place := .compared })
    | some (id, cb) =>
      match cb d.var.val v l.world with
      | .returns () world => some ([.notified id d.var.val v], { l with world := world, place := .notifying (i + 1) })
      | .throws exn world =>
        some ([.notified id d.var.val v], { l with world := world, place := .ended (.threw exn) })
      | .crashes => none
  | _, _ => none

omit [BEq T] in
/-- Under a `WriteLock`. -/
def write (l : VarThread T W) (d : VarData T W) : Option (List (Event T) × VarData T W × VarThread T W) :=
  match l.todo, l.place with
  | .setValue v :: _, .storing =>
    some ([.stored v], { d with var := d.var.store v }, { l with place := .ended .nothing })
  | .addListener cb :: _, .begins =>
    let (id, var) := d.var.addListener cb d.funId
    some ([], ⟨var, id⟩, { l with place := .ended (.id id) })
  | .delListener id :: _, .begins =>
    some ([], { d with var := d.var.delListener id }, { l with place := .ended .nothing })
  | .clearListener :: _, .begins =>
    some ([], { d with var := d.var.clearListener }, { l with place := .ended .nothing })
  | _, _ => none

omit [BEq T] in
/-- The guard goes out of scope. -/
def exit (l : VarThread T W) : Option (VarThread T W) :=
  match l.place with
  | .compared => some { l with place := .storing }
  | .ended result => some (l.finish result)
  | _ => none

def code (toStr : T → Except Exn Text) : Sections Unit (VarData T W) (VarThread T W) (Event T) where
  wants := wants
  read := read toStr
  write := write
  exit := exit

/-- What the section of a call does as a whole. -/
def effect (toStr : T → Except Exn Text) (access : Access) (l : VarThread T W) (d : VarData T W) :
    Option (List (Event T) × VarData T W × VarThread T W) :=
  match access, l.todo, l.place with
  | .shared, .getValue :: _, .begins => some ([], d, l.finish (.value d.var.getValue))
  | .shared, .toString :: _, .begins => some ([], d, l.finish (printed toStr d.var.val))
  | .shared, .getListener id :: _, .begins => some ([], d, l.finish (.listener (d.var.getListener id)))
  | .shared, .setValue v :: _, .begins =>
    match d.var.compareAndNotify v l.world with
    | (events, .returns false world) => some (events, d, { l with world := world }.finish .nothing)
    | (events, .returns true world) => some (events, d, { l with world := world, place := .storing })
    | (events, .throws exn world) => some (events, d, { l with world := world }.finish (.threw exn))
    | (_, .crashes) => none
  | .exclusive, .setValue v :: _, .storing => some ([.stored v], { d with var := d.var.store v }, l.finish .nothing)
  | .exclusive, .addListener cb :: _, .begins =>
    let (id, var) := d.var.addListener cb d.funId
    some ([], ⟨var, id⟩, l.finish (.id id))
  | .exclusive, .delListener id :: _, .begins =>
    some ([], { d with var := d.var.delListener id }, l.finish .nothing)
  | .exclusive, .clearListener :: _, .begins =>
    some ([], { d with var := d.var.clearListener }, l.finish .nothing)
  | _, _, _ => none

omit [BEq T] in
theorem exit_place {l after : VarThread T W} (ended : l.exit = some after) :
    l.place = .compared ∨ ∃ result, l.place = .ended result := by
  simp only [exit] at ended
  split at ended
  · rename_i place
    exact .inl place
  · rename_i result place
    exact .inr ⟨result, place⟩
  · cases ended

/-- A section that is over has no further step. -/
theorem body_over {toStr : T → Except Exn Text} {access : Access} {l after : VarThread T W} {d : VarData T W}
    (ended : l.exit = some after) : (code toStr).body access l d = none := by
  cases access with
  | shared =>
    rcases exit_place ended with place | ⟨result, place⟩
    · simp [Sections.body, code, read, place]
    · simp [Sections.body, code, read, place]
  | exclusive =>
    rcases exit_place ended with place | ⟨result, place⟩
    · simp [Sections.body, code, write, place]
    · simp [Sections.body, code, write, place]

/-- How far a section has come since it began with `l` and `d`. -/
inductive Stage (toStr : T → Except Exn Text) (access : Access) (l : VarThread T W) (d : VarData T W) :
    List (Event T) → VarData T W → VarThread T W → Prop
  | begins : Stage toStr access l d [] d l
  | notifying {v : T} {rest : List (VarCall T W)} {i : Nat} {past : List (Event T)} {world : W}
      (shared : access = .shared) (todo : l.todo = .setValue v :: rest) (place : l.place = .begins)
      (differs : (v == d.var.val) = false)
      (called : notify d.var.val v (d.var.cbs.entries.take i) l.world = (past, .returns () world)) :
      Stage toStr access l d past d { l with world := world, place := .notifying i }
  | ended {past : List (Event T)} {d' : VarData T W} {l' after : VarThread T W} (left : l'.exit = some after)
      (whole : effect toStr access l d = some (past, d', after)) : Stage toStr access l d past d' l'

variable {toStr : T → Except Exn Text} {l l₁ l₂ : VarThread T W} {d d₁ d₂ : VarData T W}
  {past events : List (Event T)}

/-- The first step of a section with shared access. -/
theorem Stage.first_shared {next : VarThread T W} (wants : l.wants = some ((), .shared))
    (taken : read toStr l d = some (events, next)) : Stage toStr .shared l d events d next := by
  simp only [VarThread.wants] at wants
  split at wants
  · rename_i rest todo place
    simp only [read, todo, place, Option.some.injEq, Prod.mk.injEq] at taken
    obtain ⟨rfl, rfl⟩ := taken
    exact .ended rfl (by simp [effect, todo, place, finish])
  · rename_i rest todo place
    simp only [read, todo, place, Option.some.injEq, Prod.mk.injEq] at taken
    obtain ⟨rfl, rfl⟩ := taken
    exact .ended rfl (by simp [effect, todo, place, finish])
  · rename_i v rest todo place
    simp only [read, todo, place] at taken
    split at taken
    · rename_i same
      simp only [Option.some.injEq, Prod.mk.injEq] at taken
      obtain ⟨rfl, rfl⟩ := taken
      exact .ended rfl (by simp [effect, todo, place, finish, ConfigVar.compareAndNotify, same])
    · rename_i different
      simp only [Option.some.injEq, Prod.mk.injEq] at taken
      obtain ⟨rfl, rfl⟩ := taken
      have called : notify d.var.val v (d.var.cbs.entries.take 0) l.world = ([], .returns () l.world) := rfl
      rw [← todo]
      exact .notifying rfl todo place (by simpa using different) called
  · rename_i id rest todo place
    simp only [read, todo, place, Option.some.injEq, Prod.mk.injEq] at taken
    obtain ⟨rfl, rfl⟩ := taken
    exact .ended rfl (by simp [effect, todo, place, finish])
  all_goals cases wants

/-- A section with exclusive access has one step. -/
theorem Stage.first_exclusive (taken : l.write d = some (events, d₂, l₂)) :
    Stage toStr .exclusive l d events d₂ l₂ := by
  simp only [write] at taken
  split at taken
  · rename_i v rest todo place
    simp only [Option.some.injEq, Prod.mk.injEq] at taken
    obtain ⟨rfl, rfl, rfl⟩ := taken
    exact .ended rfl (by simp [effect, todo, place, finish])
  · rename_i cb rest todo place
    simp only [Option.some.injEq, Prod.mk.injEq] at taken
    obtain ⟨rfl, rfl, rfl⟩ := taken
    exact .ended rfl (by simp [effect, todo, place, finish])
  · rename_i id rest todo place
    simp only [Option.some.injEq, Prod.mk.injEq] at taken
    obtain ⟨rfl, rfl, rfl⟩ := taken
    exact .ended rfl (by simp [effect, todo, place, finish])
  · rename_i rest todo place
    simp only [Option.some.injEq, Prod.mk.injEq] at taken
    obtain ⟨rfl, rfl, rfl⟩ := taken
    exact .ended rfl (by simp [effect, todo, place, finish])
  · cases taken

omit [BEq T] in
/-- A loop goes on behind listeners that returned. -/
theorem notify_append {old new : T} {front : List (Nat × OnChange T W)} (back : List (Nat × OnChange T W))
    {before after : W} {events : List (Event T)} (returned : notify old new front before = (events, .returns () after)) :
    notify old new (front ++ back) before =
      (events ++ (notify old new back after).1, (notify old new back after).2) := by
  induction front generalizing before events with
  | nil =>
    cases returned
    rfl
  | cons entry front ih =>
    obtain ⟨id, cb⟩ := entry
    cases called : cb old new before with
    | returns value between =>
      simp only [notify, called, Prod.mk.injEq] at returned
      obtain ⟨rfl, outcome⟩ := returned
      have later := ih (Prod.ext rfl outcome)
      simp only [List.cons_append, notify, called, later]
    | throws | crashes =>
      simp only [notify, called] at returned
      cases returned

omit [BEq T] in
/-- The loop up to one more listener. -/
theorem notify_take_succ {old new : T} {entries : List (Nat × OnChange T W)} {i id : Nat} {cb : OnChange T W}
    {before after : W} {events : List (Event T)}
    (returned : notify old new (entries.take i) before = (events, .returns () after))
    (found : entries[i]? = some (id, cb)) :
    notify old new (entries.take (i + 1)) before =
      (events ++ [.notified id old new], cb old new after) := by
  rw [List.take_add_one, found, notify_append _ returned]
  cases called : cb old new after <;> simp [notify, called]

omit [BEq T] in
/-- A listener that throws ends the whole loop. -/
theorem notify_throws_at {old new : T} {entries : List (Nat × OnChange T W)} {i id : Nat} {cb : OnChange T W}
    {before between after : W} {events : List (Event T)} {exn : Exn}
    (returned : notify old new (entries.take i) before = (events, .returns () between))
    (found : entries[i]? = some (id, cb)) (threw : cb old new between = .throws exn after) :
    notify old new entries before = (events ++ [.notified id old new], .throws exn after) := by
  obtain ⟨inside, same⟩ := List.getElem?_eq_some_iff.mp found
  rw [← List.take_append_drop i entries, notify_append _ returned, List.drop_eq_getElem_cons inside, same]
  simp [notify, threw]

/-- One more turn of the loop, or its end. -/
theorem Stage.turn {v : T} {rest : List (VarCall T W)} {i : Nat} {world : W} {next : VarThread T W}
    (todo : l.todo = .setValue v :: rest) (place : l.place = .begins) (differs : (v == d.var.val) = false)
    (called : notify d.var.val v (d.var.cbs.entries.take i) l.world = (past, .returns () world))
    (taken : read toStr { l with world := world, place := .notifying i } d = some (events, next)) :
    Stage toStr .shared l d (past ++ events) d next := by
  simp only [read, todo] at taken
  split at taken
  · rename_i behind
    simp only [Option.some.injEq, Prod.mk.injEq] at taken
    obtain ⟨rfl, rfl⟩ := taken
    rw [List.getElem?_eq_none_iff] at behind
    rw [List.take_of_length_le behind] at called
    rw [List.append_nil]
    exact .ended rfl (by simp [effect, todo, place, ConfigVar.compareAndNotify, differs, called])
  · rename_i id cb found
    split at taken
    · rename_i after returned
      simp only [Option.some.injEq, Prod.mk.injEq] at taken
      obtain ⟨rfl, rfl⟩ := taken
      have further := notify_take_succ called found
      rw [returned] at further
      rw [← todo]
      exact .notifying rfl todo place differs further
    · rename_i exn after threw
      simp only [Option.some.injEq, Prod.mk.injEq] at taken
      obtain ⟨rfl, rfl⟩ := taken
      have whole := notify_throws_at called found threw
      exact .ended rfl (by simp [effect, todo, place, finish, ConfigVar.compareAndNotify, differs, whole])
    · cases taken

/-- Every step of a section takes it further. -/
theorem Stage.step {access : Access} (wants : l.wants = some ((), access))
    (stage : Stage toStr access l d past d₁ l₁) (taken : (code toStr).body access l₁ d₁ = some (events, d₂, l₂)) :
    Stage toStr access l d (past ++ events) d₂ l₂ := by
  cases stage with
  | begins =>
    cases access with
    | shared =>
      obtain ⟨⟨emitted, next⟩, read, same⟩ := Option.map_eq_some_iff.mp taken
      cases same
      exact .first_shared wants read
    | exclusive => exact .first_exclusive taken
  | notifying shared todo place differs called =>
    subst shared
    obtain ⟨⟨emitted, next⟩, read, same⟩ := Option.map_eq_some_iff.mp taken
    cases same
    exact .turn todo place differs called read
  | ended left whole =>
    rw [body_over left] at taken
    cases taken

/-- A section in the loop has told the first listeners, and nothing else has changed. -/
theorem Stage.loop {access : Access} (wants : l.wants = some ((), access))
    (stage : Stage toStr access l d past d₁ l₁) {i : Nat} (place : l₁.place = .notifying i) :
    d₁ = d ∧ ∃ v rest, l₁.todo = .setValue v :: rest ∧ (v == d.var.val) = false ∧
      past = (d.var.cbs.entries.take i).map (notice d.var.val v) := by
  cases stage with
  | begins => simp [VarThread.wants, place] at wants
  | notifying shared todo begins differs called =>
    cases place
    exact ⟨rfl, _, _, todo, differs, (notify_returns called).1⟩
  | ended left whole =>
    rcases exit_place left with compared | ⟨result, ended⟩
    · cases place.symm.trans compared
    · cases place.symm.trans ended

theorem stage_of_inside {access : Access} (wants : l.wants = some ((), access))
    (ran : (code toStr).Inside access l d past d₁ l₁) : Stage toStr access l d past d₁ l₁ :=
  ran.invariant (Stage toStr access l d) (fun _ _ _ _ _ _ stage taken => stage.step wants taken) .begins

/-- A section of a call does what it does as a whole. -/
theorem meets (toStr : T → Except Exn Text) : (code (T := T) (W := W) toStr).Meets (effect toStr) := by
  intro k access l d events d' l' after wants ran left
  cases stage_of_inside wants ran with
  | begins =>
    -- a call at its begin cannot be over
    rcases exit_place left with place | ⟨result, place⟩
    · simp [code, VarThread.wants, place] at wants
    · simp [code, VarThread.wants, place] at wants
  | notifying => cases left
  | ended left' whole =>
    cases left.symm.trans left'
    exact whole

end VarThread

/-- One variable and the threads that use it. -/
abbrev VarThreads (I : Type w) (T : Type u) (W : Type v) := Contended I Unit (VarData T W) (VarThread T W)

namespace VarThreads

variable {I : Type w} [DecidableEq I] {T : Type u} {W : Type v} [BEq T]

/-- Every thread with its calls, and nobody inside. -/
def create (data : VarData T W) (worlds : I → W) (calls : I → List (VarCall T W)) : VarThreads I T W :=
  .start (fun _ => data) fun t => .create (worlds t) (calls t)

/-- A move of a thread: into a section, a step inside, or out of it. -/
abbrev step (toStr : T → Except Exn Text) : VarThreads I T W → Move I → Option (List (I × Event T) × VarThreads I T W) :=
  Contended.step (VarThread.code toStr)

/-- The threads again, with each section as one step. -/
abbrev stepWhole (toStr : T → Except Exn Text) :
    Atomic I Unit (VarData T W) (VarThread T W) → I →
      Option (List (I × Event T) × Atomic I Unit (VarData T W) (VarThread T W)) :=
  Atomic.step (VarThread.code toStr) (VarThread.effect toStr)

/-- However the steps of the threads interleave, the variable, what each call comes to and
what each thread tells the listeners are those of whole sections, one after the other in
the order in which the locks are given back. -/
theorem sections_whole (toStr : T → Except Exn Text) (data : VarData T W) (worlds : I → W)
    (calls : I → List (VarCall T W)) {moves : List (Move I)} {events : List (I × Event T)} {s : VarThreads I T W}
    (ran : run (step toStr) moves (create data worlds calls) = some (events, s)) (ended : ∀ t, s.inside t = none) :
    ∃ whole, run (stepWhole toStr) (moves.filterMap Move.left)
        ⟨fun _ => data, fun t => .create (worlds t) (calls t)⟩ = some (whole, ⟨s.data, s.thread⟩) ∧
      ∀ t, own t events = own t whole :=
  run_atomic (VarThread.meets toStr) ran ended

/-- One thread sets the value while another one reads it. -/
def setAndGet : VarThreads Bool Nat Unit :=
  create ⟨⟨['n'], 0, Table.empty.put (1, fun _ _ world => .returns () world)⟩, 1⟩ (fun _ => ())
    fun t => if t then [.setValue 7] else [.getValue]

/-- The reader is inside together with the loop over the listeners. -/
def setAndGetMoves : List (Move Bool) :=
  [.enter true, .work true, .enter false, .work true, .work false, .work true, .leave false, .leave true,
    .enter true, .work true, .leave true]

theorem sections_whole_setAndGet :
    ∃ events s, run (step fun _ => .ok []) setAndGetMoves setAndGet = some (events, s) ∧
      own true events = [.notified 1 0 7, .stored 7] ∧
      ∃ whole, run (stepWhole fun _ => .ok []) (setAndGetMoves.filterMap Move.left)
          ⟨setAndGet.data, setAndGet.thread⟩ = some (whole, ⟨s.data, s.thread⟩) ∧
        ∀ t, own t events = own t whole := by
  have ran : ∃ events s, run (step fun _ => .ok []) setAndGetMoves setAndGet = some (events, s) ∧
      own true events = [.notified 1 0 7, .stored 7] ∧ ∀ t, s.inside t = none := by
    refine ⟨_, _, rfl, rfl, ?_⟩
    intro t
    cases t
    · rfl
    · rfl
  obtain ⟨events, s, ran, told, ended⟩ := ran
  exact ⟨events, s, ran, told, sections_whole _ _ _ _ ran ended⟩

/-- Outside its sections a thread is before a call or between the sections of one. -/
def Between (s : VarThreads I T W) : Prop :=
  ∀ t, s.inside t = none → (s.thread t).place = .begins ∨ (s.thread t).place = .storing

theorem between_step {toStr : T → Except Exn Text} {s next : VarThreads I T W} {move : Move I}
    {events : List (I × Event T)} (between : s.Between) (taken : step toStr s move = some (events, next)) :
    next.Between := by
  rcases Contended.step_cases taken with ⟨t, k, access, lock, _, _, _, _, _, rfl⟩ |
    ⟨t, k, access, emitted, d, l, _, inside, _, _, rfl⟩ | ⟨t, k, access, l, _, _, ended, _, rfl⟩
  · intro u out
    by_cases self : u = t
    · subst self
      simp at out
    · exact between u (by simpa only [Function.update_of_ne self] using out)
  · intro u out
    have apart : u ≠ t := by
      rintro rfl
      cases inside.symm.trans out
    simpa only [Function.update_of_ne apart] using between u out
  · intro u out
    by_cases self : u = t
    · subst self
      simp only [Function.update_self]
      simp only [VarThread.code, VarThread.exit] at ended
      split at ended
      · cases ended
        exact .inr rfl
      · cases ended
        exact .inl rfl
      · cases ended
    · simp only [Function.update_of_ne self] at out ⊢
      exact between u out

/-- While a thread is in the loop over the listeners no other thread changes the variable:
the listeners it has called are the first of those registered now, each told of the value
stored now, and the value still differs from the one to come. -/
theorem loop_undisturbed (toStr : T → Except Exn Text) (data : VarData T W) (worlds : I → W)
    (calls : I → List (VarCall T W)) {moves : List (Move I)} {events : List (I × Event T)} {s : VarThreads I T W}
    (ran : run (step toStr) moves (create data worlds calls) = some (events, s)) {t : I} {v : T}
    {rest : List (VarCall T W)} {i : Nat} (todo : (s.thread t).todo = .setValue v :: rest)
    (place : (s.thread t).place = .notifying i) :
    (v == (s.data ()).var.val) = false ∧
    ∃ past, own t events =
      past ++ ((s.data ()).var.cbs.entries.take i).map (notice (s.data ()).var.val v) := by
  obtain ⟨a, pending, whole, _, refines, emitted⟩ :=
    (refines_start (VarThread.code toStr) (fun _ => data) fun t => VarThread.create (worlds t) (calls t)).run
      (VarThread.meets toStr) ran
  have between : s.Between :=
    run_invariant Between (fun _ _ _ _ between taken => between_step between taken) ran fun _ _ => .inl rfl
  cases inside : s.inside t with
  | none =>
    rcases between t inside with begins | storing
    · cases place.symm.trans begins
    · cases place.symm.trans storing
  | some section_ =>
    obtain ⟨k, access⟩ := section_
    obtain ⟨wants, within⟩ := refines.inside t k access inside
    have stage := VarThread.stage_of_inside wants within
    obtain ⟨same, w, rest', todo', differs, told⟩ := stage.loop wants place
    cases todo.symm.trans todo'
    have here : s.data () = a.data () := same
    refine ⟨by rwa [here], own t whole, ?_⟩
    have all : own t events = own t whole ++ pending t := emitted t
    rw [all, told, here]

theorem loop_undisturbed_setAndGet :
    ∃ events s, run (step fun _ => .ok []) (setAndGetMoves.take 4) setAndGet = some (events, s) ∧
      (s.thread true).place = .notifying 1 ∧ (7 == (s.data ()).var.val) = false ∧
      ∃ past, own true events =
        past ++ ((s.data ()).var.cbs.entries.take 1).map (notice (s.data ()).var.val 7) := by
  have ran : ∃ events s, run (step fun _ => .ok []) (setAndGetMoves.take 4) setAndGet = some (events, s) ∧
      (s.thread true).todo = [.setValue 7] ∧ (s.thread true).place = .notifying 1 :=
    ⟨_, _, rfl, rfl, rfl⟩
  obtain ⟨events, s, ran, todo, place⟩ := ran
  exact ⟨events, s, ran, place, loop_undisturbed _ _ _ _ ran todo place⟩

end VarThreads

end Sylar
