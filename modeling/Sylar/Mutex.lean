import Mathlib.Logic.Function.Basic
import Sylar.Library.Machine
import Sylar.Library.ReadWrite

/-! The scoped locks: objects on the stacks of threads that lock a mutex and unlock it
again, at the latest in their destructors. -/
namespace Sylar

open Library

/-- `ScopedLockImpl`, `ReadScopedLockImpl` and `WriteScopedLockImpl` -/
inductive ScopeKind where
  | scoped
  | read
  | write
  deriving DecidableEq, Repr

/-- `lock`, `rdlock` and `wrlock` of the mutex. -/
def ScopeKind.access : ScopeKind → Access
  | .scoped => .exclusive
  | .read => .shared
  | .write => .exclusive

structure ScopedLockImpl (T : Type u) (M : Type v) where
  mutex : M
  kind : ScopeKind
  locked : Bool
  /-- on whose stack it is -/
  thread : T

/-- The calls on such objects, constructors and destructors included. -/
inductive ScopeCall (T : Type u) (M : Type v) (G : Type w) where
  | construct (g : G) (t : T) (m : M) (kind : ScopeKind)
  | lock (g : G)
  | unlock (g : G)
  | destruct (g : G)

structure Scopes (T : Type u) (M : Type v) (G : Type w) where
  mutex : M → RWLock T
  scope : G → Option (ScopedLockImpl T M)

namespace Scopes

variable {T : Type u} {M : Type v} {G : Type w}

def create : Scopes T M G := ⟨fun _ => .free, fun _ => none⟩

section Calls

variable [DecidableEq T] [DecidableEq M] [DecidableEq G] (answers : M → Bool)

/-- The call of the system that locks a mutex; `none` while it waits. A writer that asks
once more waits for itself, or it is answered with an error, as by readers-writer locks of
some systems; the scoped locks do not look at errors. -/
def request (s : Scopes T M G) (t : T) (m : M) (access : Access) : Option (RWLock T) :=
  match (s.mutex m).take t access with
  | some lock => some lock
  | none => if answers m = true ∧ s.mutex m = .writing t then some (s.mutex m) else none

/-- The events of calls are the objects that unlocked a mutex which their thread did not hold. -/
def lock (s : Scopes T M G) (g : G) : Option (List G × Scopes T M G) :=
  match s.scope g with
  | none => none
  | some guard =>
    if guard.locked then some ([], s)
    else
      match s.request answers guard.thread guard.mutex guard.kind.access with
      | none => none
      | some lock => some ([], {
          mutex := Function.update s.mutex guard.mutex lock
          scope := Function.update s.scope g (some { guard with locked := true }) })

def unlock (s : Scopes T M G) (g : G) : Option (List G × Scopes T M G) :=
  match s.scope g with
  | none => none
  | some guard =>
    if guard.locked then
      some (if (s.mutex guard.mutex).heldBy guard.thread then [] else [g], {
        mutex := Function.update s.mutex guard.mutex ((s.mutex guard.mutex).release guard.thread)
        scope := Function.update s.scope g (some { guard with locked := false }) })
    else some ([], s)

/-- A constructor locks what is not locked yet. -/
def construct (s : Scopes T M G) (g : G) (t : T) (m : M) (kind : ScopeKind) : Option (List G × Scopes T M G) :=
  match s.scope g with
  | some _ => none
  | none => lock answers { s with scope := Function.update s.scope g (some ⟨m, kind, false, t⟩) } g

def destruct (s : Scopes T M G) (g : G) : Option (List G × Scopes T M G) :=
  match s.unlock g with
  | none => none
  | some (events, next) => some (events, { next with scope := Function.update next.scope g none })

def step (s : Scopes T M G) : ScopeCall T M G → Option (List G × Scopes T M G)
  | .construct g t m kind => s.construct answers g t m kind
  | .lock g => s.lock answers g
  | .unlock g => s.unlock g
  | .destruct g => s.destruct g

end Calls

/-- An object that is locked, as it sees itself. -/
def Locks (s : Scopes T M G) (g : G) (m : M) (access : Access) : Prop :=
  ∃ guard, s.scope g = some guard ∧ guard.mutex = m ∧ guard.kind.access = access ∧ guard.locked = true

/-- A writer's object is the only one that is locked on its mutex. -/
def Exclusive (s : Scopes T M G) : Prop :=
  ∀ m g h access, s.Locks g m .exclusive → s.Locks h m access → h = g

/-- Which thread asks for which mutex. -/
def asks (s : Scopes T M G) : ScopeCall T M G → Option (T × M)
  | .construct _ t m _ => some (t, m)
  | .lock g =>
    match s.scope g with
    | some guard => if guard.locked then none else some (guard.thread, guard.mutex)
    | none => none
  | _ => none

/-- No thread that has a mutex for writing is answered when it asks for it again. -/
def Unnested (answers : M → Bool) (s : Scopes T M G) (call : ScopeCall T M G) : Prop :=
  ∀ t m, s.asks call = some (t, m) → answers m = true → s.mutex m ≠ .writing t

def owner (s : Scopes T M G) (g : G) : Option T := (s.scope g).map fun guard => guard.thread

/-- The mutexes as the objects see them: what is locked there is locked by an object. -/
structure Views (s : Scopes T M G) (fine : M → RWLock G) : Prop where
  holders : ∀ m g access, (fine m).Holds g access ↔ s.Locks g m access
  single : ∀ m, (fine m).Single
  shows : ∀ m, (fine m).Shows s.owner (s.mutex m)

theorem create_views : (create : Scopes T M G).Views fun _ => .free where
  holders m g access := by
    refine iff_of_false (RWLock.free_holds g access) ?_
    rintro ⟨guard, here, _⟩
    cases here
  single m := List.nodup_nil
  shows m := List.Perm.nil

section Views

variable {s next : Scopes T M G} {fine : M → RWLock G} {g : G} {guard : ScopedLockImpl T M}

theorem Locks.of_scope (here : s.scope g = some guard) (locked : guard.locked = true) :
    s.Locks g guard.mutex guard.kind.access :=
  ⟨guard, here, rfl, rfl, locked⟩

theorem Locks.not_of_none {m : M} {access : Access} (fresh : s.scope g = none) : ¬ s.Locks g m access := by
  rintro ⟨guard, here, _⟩
  cases fresh.symm.trans here

theorem Locks.not_of_unlocked {m : M} {access : Access} (here : s.scope g = some guard)
    (unlocked : guard.locked = false) : ¬ s.Locks g m access := by
  rintro ⟨guard', here', _, _, locked⟩
  cases here.symm.trans here'
  cases unlocked.symm.trans locked

theorem owner_of_scope (here : s.scope g = some guard) : s.owner g = some guard.thread := by
  rw [owner, here, Option.map_some]

/-- What the objects see keeps writers apart. -/
theorem Views.exclusive (views : s.Views fine) : s.Exclusive := by
  intro m g h access writes locks
  exact (((views.holders m g .exclusive).mpr writes).alone ((views.holders m h access).mpr locks)).1

theorem Views.free_iff (views : s.Views fine) (m : M) :
    s.mutex m = .free ↔ ∀ g access, ¬ s.Locks g m access := by
  have shows := views.shows m
  constructor
  · intro free g access locks
    have holds := (views.holders m g access).mpr locks
    obtain ⟨guard, here, _⟩ := locks
    have held := shows.holds (owner_of_scope here) holds
    rw [free] at held
    exact RWLock.free_holds guard.thread access held
  · intro unlocked
    have none_left : fine m = .free := RWLock.not_taken.mp fun ⟨g, access, holds⟩ =>
      unlocked g access ((views.holders m g access).mp holds)
    rw [none_left] at shows
    exact shows.free

variable [DecidableEq G]

theorem locks_other {h : G} (other : h ≠ g) {mutex : M → RWLock T} {x : Option (ScopedLockImpl T M)} {m : M}
    {access : Access} :
    Locks ⟨mutex, Function.update s.scope g x⟩ h m access ↔ s.Locks h m access := by
  simp only [Locks, Function.update_of_ne other]

theorem locks_self {mutex : M → RWLock T} {m : M} {access : Access} :
    Locks ⟨mutex, Function.update s.scope g (some guard)⟩ g m access ↔
      guard.mutex = m ∧ guard.kind.access = access ∧ guard.locked = true := by
  constructor
  · rintro ⟨guard', here, locks⟩
    simp only [Function.update_self, Option.some.injEq] at here
    subst here
    exact locks
  · intro locks
    exact ⟨guard, Function.update_self .., locks⟩

theorem owner_keep (here : s.scope g = some guard) (mutex : M → RWLock T) (locked : Bool) (h : G) :
    s.owner h = owner ⟨mutex, Function.update s.scope g (some { guard with locked := locked })⟩ h := by
  by_cases same : h = g
  · subst same
    simp only [owner, here, Function.update_self, Option.map_some]
  · simp only [owner, Function.update_of_ne same]

/-- An object that is not locked comes, goes or changes. -/
theorem Views.idle (views : s.Views fine) {x : Option (ScopedLockImpl T M)} (before : ∀ m access, ¬ s.Locks g m access)
    (after : ∀ guard, x = some guard → guard.locked = false) :
    Views { s with scope := Function.update s.scope g x } fine := by
  refine ⟨?_, views.single, ?_⟩
  · intro m h access
    by_cases same : h = g
    · subst same
      refine iff_of_false (fun holds => before m access ((views.holders m h access).mp holds)) ?_
      rintro ⟨guard, here, _, _, locked⟩
      simp only [Function.update_self] at here
      cases (after guard here).symm.trans locked
    · rw [views.holders, locks_other same]
  · intro m
    refine (views.shows m).congr ?_
    intro h access holds
    have other : h ≠ g := by
      rintro rfl
      exact before m access ((views.holders m h access).mp holds)
    simp only [owner, Function.update_of_ne other]

variable [DecidableEq M]

/-- An object gets its mutex. -/
theorem Views.lock (views : s.Views fine) {lock : RWLock T} (here : s.scope g = some guard)
    (unlocked : guard.locked = false)
    (given : (s.mutex guard.mutex).take guard.thread guard.kind.access = some lock) :
    ∃ fine', Views {
      mutex := Function.update s.mutex guard.mutex lock
      scope := Function.update s.scope g (some { guard with locked := true }) } fine' := by
  obtain ⟨taken, taking, shows⟩ := (views.shows guard.mutex).take (owner_of_scope here) given
  have outside (access : Access) : ¬ (fine guard.mutex).Holds g access := fun holds =>
    Locks.not_of_unlocked here unlocked ((views.holders _ _ _).mp holds)
  refine ⟨Function.update fine guard.mutex taken, ?_, ?_, ?_⟩
  · intro m h access
    by_cases same : h = g
    · subst same
      rw [locks_self]
      by_cases there : m = guard.mutex
      · subst there
        simp only [Function.update_self, RWLock.take_holds taking, outside, false_or, true_and, and_true]
        exact eq_comm
      · simp only [Function.update_of_ne there, views.holders]
        exact iff_of_false (Locks.not_of_unlocked here unlocked) fun locks => there locks.1.symm
    · rw [locks_other same, ← views.holders]
      by_cases there : m = guard.mutex
      · subst there
        simp only [Function.update_self, RWLock.take_holds taking, same, false_and, or_false]
      · simp only [Function.update_of_ne there]
  · intro m
    by_cases there : m = guard.mutex
    · subst there
      simp only [Function.update_self]
      exact RWLock.take_single taking (views.single _) outside
    · simp only [Function.update_of_ne there]
      exact views.single m
  · intro m
    by_cases there : m = guard.mutex
    · subst there
      simp only [Function.update_self]
      exact shows.congr fun h _ _ => owner_keep here _ _ h
    · simp only [Function.update_of_ne there]
      exact (views.shows m).congr fun h _ _ => owner_keep here _ _ h

variable [DecidableEq T]

/-- An object gives its mutex back, which its thread has. -/
theorem Views.unlock (views : s.Views fine) (here : s.scope g = some guard) (locked : guard.locked = true) :
    (s.mutex guard.mutex).heldBy guard.thread = true ∧ ∃ fine', Views {
      mutex := Function.update s.mutex guard.mutex ((s.mutex guard.mutex).release guard.thread)
      scope := Function.update s.scope g (some { guard with locked := false }) } fine' := by
  have holds := (views.holders _ _ _).mpr (Locks.of_scope here locked)
  have shows := views.shows guard.mutex
  refine ⟨RWLock.heldBy_iff.mpr ⟨_, shows.holds (owner_of_scope here) holds⟩,
    Function.update fine guard.mutex ((fine guard.mutex).release g), ?_, ?_, ?_⟩
  · intro m h access
    by_cases same : h = g
    · subst same
      rw [locks_self]
      refine iff_of_false ?_ fun locks => by cases locks.2.2
      by_cases there : m = guard.mutex
      · subst there
        simp [RWLock.release_holds holds (views.single _)]
      · simp only [Function.update_of_ne there, views.holders]
        rintro ⟨guard', here', rfl, _⟩
        cases here.symm.trans here'
        exact there rfl
    · rw [locks_other same, ← views.holders]
      by_cases there : m = guard.mutex
      · subst there
        simp only [Function.update_self, RWLock.release_holds holds (views.single _), ne_eq, same,
          not_false_eq_true, and_true]
      · simp only [Function.update_of_ne there]
  · intro m
    by_cases there : m = guard.mutex
    · subst there
      simp only [Function.update_self]
      exact RWLock.release_single (views.single _)
    · simp only [Function.update_of_ne there]
      exact views.single m
  · intro m
    by_cases there : m = guard.mutex
    · subst there
      simp only [Function.update_self]
      exact (shows.release (owner_of_scope here) holds).congr fun h _ _ => owner_keep here _ _ h
    · simp only [Function.update_of_ne there]
      exact (views.shows m).congr fun h _ _ => owner_keep here _ _ h

end Views

section Run

variable [DecidableEq T] [DecidableEq M] [DecidableEq G] {answers : M → Bool}
variable {s next : Scopes T M G} {fine : M → RWLock G} {g : G} {events : List G}

omit [DecidableEq M] [DecidableEq G] in
/-- A thread that is not answered waits for the mutex. -/
theorem request_take {t : T} {m : M} {access : Access} {lock : RWLock T}
    (unnested : answers m = true → s.mutex m ≠ .writing t)
    (given : s.request answers t m access = some lock) : (s.mutex m).take t access = some lock := by
  simp only [request] at given
  split at given
  · rename_i taken
    exact taken.trans given
  · split at given
    · rename_i answered
      exact absurd answered.2 (unnested answered.1)
    · cases given

theorem lock_cases (called : s.lock answers g = some (events, next)) :
    events = [] ∧ ∃ guard, s.scope g = some guard ∧ (guard.locked = true ∧ next = s ∨
      guard.locked = false ∧ ∃ lock, s.request answers guard.thread guard.mutex guard.kind.access = some lock ∧
        next = {
          mutex := Function.update s.mutex guard.mutex lock
          scope := Function.update s.scope g (some { guard with locked := true }) }) := by
  simp only [Scopes.lock] at called
  split at called
  · cases called
  · rename_i guard here
    split at called
    · rename_i locked
      cases called
      exact ⟨rfl, guard, here, .inl ⟨locked, rfl⟩⟩
    · rename_i unlocked
      split at called
      · cases called
      · rename_i lock given
        cases called
        exact ⟨rfl, guard, here, .inr ⟨Bool.eq_false_iff.mpr unlocked, lock, given, rfl⟩⟩

theorem Views.locked (views : s.Views fine) (unnested : s.Unnested answers (.lock g))
    (called : s.lock answers g = some (events, next)) : events = [] ∧ ∃ fine', next.Views fine' := by
  obtain ⟨silent, guard, here, ⟨_, rfl⟩ | ⟨unlocked, lock, given, rfl⟩⟩ := lock_cases called
  · exact ⟨silent, fine, views⟩
  · have asked : s.asks (.lock g : ScopeCall T M G) = some (guard.thread, guard.mutex) := by
      simp only [asks, here, unlocked, Bool.false_eq_true, if_false]
    exact ⟨silent, views.lock here unlocked (request_take (unnested _ _ asked) given)⟩

theorem Views.unlocked (views : s.Views fine) (called : s.unlock g = some (events, next)) :
    events = [] ∧ (∃ fine', next.Views fine') ∧ ∀ m access, ¬ next.Locks g m access := by
  simp only [Scopes.unlock] at called
  split at called
  · cases called
  · rename_i guard here
    split at called
    · rename_i locked
      cases called
      obtain ⟨held, kept⟩ := views.unlock here locked
      refine ⟨by rw [held, if_pos rfl], kept, fun m access locks => ?_⟩
      cases (locks_self.mp locks).2.2
    · rename_i unlocked
      cases called
      exact ⟨rfl, ⟨fine, views⟩, fun m access => Locks.not_of_unlocked here (Bool.eq_false_iff.mpr unlocked)⟩

omit [DecidableEq T] [DecidableEq M] in
/-- A constructor is the `lock` of an object that is there and not locked. -/
theorem Views.constructed (views : s.Views fine) (fresh : s.scope g = none) (t : T) (m : M) (kind : ScopeKind) :
    Views { s with scope := Function.update s.scope g (some ⟨m, kind, false, t⟩) } fine := by
  refine views.idle (fun m access => Locks.not_of_none fresh) ?_
  rintro guard ⟨⟩
  rfl

/-- A call that asks for nothing that its thread has unlocks only what the thread has,
and objects and mutexes agree after it. -/
theorem Views.step {call : ScopeCall T M G} (views : s.Views fine) (unnested : s.Unnested answers call)
    (taken : s.step answers call = some (events, next)) : events = [] ∧ ∃ fine', next.Views fine' := by
  cases call with
  | construct g t m kind =>
    simp only [Scopes.step, Scopes.construct] at taken
    split at taken
    · cases taken
    · rename_i fresh
      refine (views.constructed fresh t m kind).locked ?_ taken
      intro t' m' asked
      simp only [asks, Function.update_self, Bool.false_eq_true, if_false] at asked
      exact unnested t' m' asked
  | lock g => exact views.locked unnested taken
  | unlock g => exact ⟨(views.unlocked taken).1, (views.unlocked taken).2.1⟩
  | destruct g =>
    simp only [Scopes.step, Scopes.destruct] at taken
    split at taken
    · cases taken
    · rename_i events' middle called
      cases taken
      obtain ⟨silent, ⟨fine', kept⟩, gone⟩ := views.unlocked called
      exact ⟨silent, fine', kept.idle gone fun guard none => by cases none⟩

/-- Where a writer is answered, two objects are locked on what is the writer's alone. -/
theorem Views.locked_nested (views : s.Views fine) {guard : ScopedLockImpl T M} (here : s.scope g = some guard)
    (unlocked : guard.locked = false) (writes : s.mutex guard.mutex = .writing guard.thread)
    (called : s.lock answers g = some (events, next)) : ¬ next.Exclusive := by
  obtain ⟨_, guard', here', after⟩ := lock_cases called
  cases here.symm.trans here'
  obtain ⟨locked, _⟩ | ⟨_, lock, _, rfl⟩ := after
  · cases unlocked.symm.trans locked
  · obtain ⟨h, writer⟩ : ∃ h, s.Locks h guard.mutex .exclusive := by
      have shows := views.shows guard.mutex
      rw [writes] at shows
      cases seen : fine guard.mutex with
      | reading holders =>
        rw [seen] at shows
        exact shows.elim
      | writing h =>
        exact ⟨h, (views.holders _ _ _).mp seen⟩
    have other : h ≠ g := by
      rintro rfl
      exact Locks.not_of_unlocked here unlocked writer
    intro exclusive
    exact other (exclusive guard.mutex h g guard.kind.access ((locks_other other).mpr writer)
      (locks_self.mpr ⟨rfl, rfl, rfl⟩)).symm

theorem Views.nested {call : ScopeCall T M G} (views : s.Views fine) (nested : ¬ s.Unnested answers call)
    (taken : s.step answers call = some (events, next)) : ¬ next.Exclusive := by
  obtain ⟨t, m, asked, _, writes⟩ : ∃ t m, s.asks call = some (t, m) ∧ answers m = true ∧ s.mutex m = .writing t := by
    by_contra unnested
    exact nested fun t m asked answered writes => unnested ⟨t, m, asked, answered, writes⟩
  cases call with
  | construct g t' m' kind =>
    cases asked
    simp only [Scopes.step, Scopes.construct] at taken
    split at taken
    · cases taken
    · rename_i fresh
      exact (views.constructed fresh t m kind).locked_nested (Function.update_self ..) rfl writes taken
  | lock g =>
    simp only [asks] at asked
    split at asked
    · rename_i guard here
      split at asked
      · cases asked
      · rename_i unlocked
        cases asked
        exact views.locked_nested here (Bool.eq_false_iff.mpr unlocked) writes taken
    · cases asked
  | unlock g => cases asked
  | destruct g => cases asked

theorem Views.run {calls : List (ScopeCall T M G)}
    (ran : run (Scopes.step answers) calls create = some (events, s))
    (unnested : Throughout (Scopes.step answers) (Unnested answers) calls create) :
    events = [] ∧ ∃ fine, s.Views fine := by
  have extended (s : Scopes T M G) (call : ScopeCall T M G) (past events : List G) (next : Scopes T M G)
      (unnested : s.Unnested answers call) (before : past = [] ∧ ∃ fine, s.Views fine)
      (taken : s.step answers call = some (events, next)) : past ++ events = [] ∧ ∃ fine, next.Views fine := by
    obtain ⟨rfl, fine, views⟩ := before
    exact views.step unnested taken
  have start : ([] : List G) = [] ∧ ∃ fine, (create : Scopes T M G).Views fine := ⟨rfl, _, create_views⟩
  exact run_history_throughout (Unnested answers) (fun s events => events = [] ∧ ∃ fine, s.Views fine) extended ran
    unnested start

/-- An object waits for its mutex only if another one is locked on it and one of the two
is a writer. -/
theorem Views.waits (views : s.Views fine) (fresh : s.scope g = none) {t : T} {m : M} {kind : ScopeKind}
    (waits : s.step answers (.construct g t m kind) = none) :
    ∃ h access, s.Locks h m access ∧ (kind.access = .exclusive ∨ access = .exclusive) := by
  simp only [Scopes.step, Scopes.construct, fresh, Scopes.lock, Function.update_self, Bool.false_eq_true, if_false,
    request] at waits
  split at waits
  · rename_i unanswered
    split at unanswered
    · cases unanswered
    · rename_i refused
      obtain ⟨h, access, holds, conflict⟩ := (views.shows m).refused refused
      exact ⟨h, access, (views.holders m h access).mp holds, conflict⟩
  · cases waits

/-- However the calls of threads on their scoped locks interleave, the objects keep
writers apart at every point exactly if no thread is answered when it asks for what it
has for writing. Then no object unlocks what its thread does not have, the mutexes
without a locked object are free, and only conflicting objects make others wait. -/
theorem scopes_exclude_iff (answers : M → Bool) {calls : List (ScopeCall T M G)}
    (ran : run (step answers) calls create = some (events, s)) :
    (Always (step answers) (fun s _ => s.Exclusive) calls create ↔
      Throughout (step answers) (Unnested answers) calls create) ∧
    (Throughout (step answers) (Unnested answers) calls create →
      events = [] ∧ (∀ m, s.mutex m = .free ↔ ∀ g access, ¬ s.Locks g m access) ∧
        ∀ g t m kind, s.scope g = none → s.step answers (.construct g t m kind) = none →
          ∃ h access, s.Locks h m access ∧ (kind.access = .exclusive ∨ access = .exclusive)) := by
  refine ⟨⟨?_, ?_⟩, ?_⟩
  · intro always
    rcases throughout_or_first (Unnested answers) ran with unnested |
      ⟨front, call, back, middle, first, split, ranFront, unnested, nested⟩
    · exact unnested
    · obtain ⟨_, fine, views⟩ := Views.run ranFront unnested
      rw [split] at ran
      obtain ⟨_, middle', _, ranFront', rest, _⟩ := run_append_eq_some.mp ran
      cases ranFront.symm.trans ranFront'
      obtain ⟨emitted, next, _, taken, _, _⟩ := run_cons_eq_some.mp rest
      refine absurd (always (front ++ [call]) back ?_ (first ++ emitted) next ?_) (views.nested nested taken)
      · rw [split, List.append_assoc, List.singleton_append]
      · exact run_append_eq_some.mpr ⟨first, middle, emitted, ranFront,
          run_cons_eq_some.mpr ⟨emitted, next, [], taken, rfl, (List.append_nil _).symm⟩, rfl⟩
  · intro unnested front back split events middle ranFront
    rw [split] at unnested
    obtain ⟨_, fine, views⟩ := Views.run ranFront (throughout_append_left unnested)
    exact views.exclusive
  · intro unnested
    obtain ⟨silent, fine, views⟩ := Views.run ran unnested
    exact ⟨silent, views.free_iff, fun g t m kind fresh waits => views.waits fresh waits⟩

end Run

/-- Two threads read a mutex; when both are done one of them writes. -/
def readersThenWriter : List (ScopeCall Bool Unit (Fin 3)) :=
  [.construct 0 true () .read, .construct 1 false () .read, .unlock 0, .destruct 1, .construct 2 false () .write,
    .destruct 0, .destruct 2]

theorem scopes_exclude_iff_readers :
    ∃ s, run (step fun _ => true) readersThenWriter create = some ([], s) ∧ s.mutex () = .free ∧
      Always (step fun _ => true) (fun s _ => s.Exclusive) readersThenWriter create := by
  have unnested : Throughout (step fun _ => true) (Unnested fun _ => true) readersThenWriter create := by
    refine (throughout_cons rfl).mpr ⟨?_, (throughout_cons rfl).mpr ⟨?_, (throughout_cons rfl).mpr ⟨?_,
      (throughout_cons rfl).mpr ⟨?_, (throughout_cons rfl).mpr ⟨?_, (throughout_cons rfl).mpr ⟨?_,
      (throughout_cons rfl).mpr ⟨?_, trivial⟩⟩⟩⟩⟩⟩⟩
    all_goals
      rintro t m asked _ writes
      first | cases asked; done | cases writes
  exact ⟨_, rfl, rfl, (scopes_exclude_iff (fun _ => true) rfl).1.mpr unnested⟩

/-- A reader's object inside a writer's: when it goes the mutex is free, and the writer's
object is still locked. -/
example : ∃ s, run (step fun _ => true) [.construct 0 true () .write, .construct 1 true () .read, .destruct 1]
    (create : Scopes Bool Unit (Fin 2)) = some ([], s) ∧ s.mutex () = .free ∧ s.Locks 0 () .exclusive :=
  ⟨_, rfl, rfl, _, rfl, rfl, rfl, rfl⟩

end Scopes

end Sylar
