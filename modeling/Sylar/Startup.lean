import Sylar.Library.Machine
import Sylar.Library.Text

/-! How a `Thread` starts: the steps of the thread that constructed the object and the
steps of `Thread::run` in the new thread, in any order. -/
namespace Sylar

open Library

/-- The members of a `Thread`; `thread` is whether `m_thread` is not 0. -/
structure ThreadObject (F : Type u) where
  id : Int
  thread : Bool
  cb : Option F
  name : Text

/-- The members after `pthread_create`. -/
def ThreadObject.create (cb : F) (name : Text) : ThreadObject F :=
  ⟨-1, true, some cb, if name.isEmpty then "UNKONW".toList else name⟩

/-- What `Thread::run` does next. It is `undefined` once it has used a destroyed object. -/
inductive RunPoint where
  | setThis
  | readName
  | writeId
  | setName
  | swap
  | invoke
  | return
  | done
  | undefined
  deriving DecidableEq, Repr

namespace RunPoint

/-- The id has been written. -/
def written : RunPoint → Bool
  | .setName | .swap | .invoke | .return | .done => true
  | _ => false

/-- The callback has been taken out, after which the object is not used again. -/
def released : RunPoint → Bool
  | .invoke | .return | .done => true
  | _ => false

theorem written_of_released {point : RunPoint} (released : point.released = true) : point.written = true := by
  cases point with
  | invoke | «return» | done => rfl
  | setThis | readName | writeId | setName | swap | undefined => cases released

theorem not_ended {point : RunPoint} (early : point.released = false) :
    ¬ (point = .return ∨ point = .done) := by
  rintro (rfl | rfl)
  · cases early
  · cases early

end RunPoint

/-- The object until it is destroyed, whether its constructor has returned, and the new
thread: its point in `run`, `t_thread_name`, its name for the system and the local `cb`. -/
structure Startup (F : Type u) where
  object : Option (ThreadObject F)
  returned : Bool
  point : RunPoint
  threadName : Text
  systemName : Text
  cb : Option F

inductive StartupEvent (F : Type u) where
  | gotId (id : Int)
  | detached
  | dangling
  | invoked (cb : F)

/-- Whose step is next: one of the creating thread, or the next one of `run`. -/
inductive StartupStep where
  | returns
  | getId
  | join
  | destroy
  | run
  deriving DecidableEq, Repr

namespace Startup

variable {F : Type u}

/-- `Thread::Thread(cb, name)` when `pthread_create` has made the thread. -/
def create (cb : F) (name : Text) : Startup F :=
  ⟨some (.create cb name), false, .setThis, "UNKONW".toList, [], none⟩

/-- `run` uses the object. -/
def access (s : Startup F) (use : ThreadObject F → Startup F) :
    Option (List (StartupEvent F) × Startup F) :=
  match s.object with
  | some object => some ([], use object)
  | none => some ([.dangling], { s with point := .undefined })

/-- `Thread::run`; `tid` is what `GetThreadId` returns in the new thread. -/
def runStep (tid : Nat) (s : Startup F) : Option (List (StartupEvent F) × Startup F) :=
  match s.point with
  | .setThis => some ([], { s with point := .readName })
  | .readName => s.access fun object => { s with threadName := object.name, point := .writeId }
  | .writeId => s.access fun object => { s with object := some { object with id := tid }, point := .setName }
  | .setName => s.access fun object => { s with systemName := object.name.take 15, point := .swap }
  | .swap => s.access fun object =>
    { s with object := some { object with cb := s.cb }, cb := object.cb, point := .invoke }
  | .invoke =>
    match s.cb with
    | some cb => some ([.invoked cb], { s with point := .return })
    | none => none
  | .return => some ([], { s with point := .done })
  | .done | .undefined => none

/-- The object, for the thread whose constructor call has returned. -/
def owned (s : Startup F) : Option (ThreadObject F) := if s.returned then s.object else none

def step (tid : Nat) (s : Startup F) : StartupStep → Option (List (StartupEvent F) × Startup F)
  | .returns => if s.returned then none else some ([], { s with returned := true })
  | .getId => s.owned.map fun object => ([.gotId object.id], s)
  | .join =>
    match s.owned with
    | none => none
    | some object =>
      if object.thread then
        -- `pthread_join` waits for `run`
        if s.point = .done then some ([], { s with object := some { object with thread := false } })
        else none
      else some ([], s)
  | .destroy => s.owned.map fun object =>
    (if object.thread then [.detached] else [], { s with object := none })
  | .run => s.runStep tid

/-- The callbacks invoked, in order. -/
def invocations (events : List (StartupEvent F)) : List F :=
  events.filterMap fun
    | .invoked cb => some cb
    | _ => none

theorem access_cases {s next : Startup F} {use : ThreadObject F → Startup F}
    {events : List (StartupEvent F)} (taken : s.access use = some (events, next)) :
    (∃ object, s.object = some object ∧ events = [] ∧ next = use object) ∨
    (s.object = none ∧ events = [.dangling] ∧ next = { s with point := .undefined }) := by
  unfold access at taken
  split at taken
  · rename_i object alive
    cases taken
    exact .inl ⟨object, alive, rfl, rfl⟩
  · rename_i gone
    cases taken
    exact .inr ⟨gone, rfl, rfl⟩

/-- All that a step of the creating thread can do. -/
structure Outside (s : Startup F) (label : StartupStep) (events : List (StartupEvent F))
    (next : Startup F) : Prop where
  point : next.point = s.point
  cb : next.cb = s.cb
  events : ∀ event ∈ events, event = .detached ∨
    ∃ object, label = .getId ∧ s.object = some object ∧ event = .gotId object.id
  object : ∀ object, next.object = some object →
    ∃ old, s.object = some old ∧ object.id = old.id ∧ object.cb = old.cb
  gone : next.object = none → s.object = none ∨ label = .destroy

theorem Outside.same {s next : Startup F} {label : StartupStep} (point : next.point = s.point)
    (cb : next.cb = s.cb) (object : next.object = s.object) : Outside s label [] next := by
  constructor
  · exact point
  · exact cb
  · intro event member
    cases member
  · intro here alive
    exact ⟨here, object ▸ alive, rfl, rfl⟩
  · intro gone
    exact .inl (object ▸ gone)

theorem owned_eq_some {s : Startup F} {object : ThreadObject F} (owned : s.owned = some object) :
    s.object = some object := by
  unfold Startup.owned at owned
  split at owned
  · exact owned
  · cases owned

theorem outside_step {tid : Nat} {s next : Startup F} {label : StartupStep} (other : label ≠ .run)
    {events : List (StartupEvent F)} (taken : step tid s label = some (events, next)) :
    Outside s label events next := by
  cases label with
  | run => exact absurd rfl other
  | returns =>
    simp only [step] at taken
    split at taken
    · cases taken
    · cases taken
      exact .same rfl rfl rfl
  | getId =>
    obtain ⟨object, owned, done⟩ := Option.map_eq_some_iff.mp taken
    cases done
    constructor
    · rfl
    · rfl
    · intro event member
      exact .inr ⟨object, rfl, owned_eq_some owned, List.mem_singleton.mp member⟩
    · intro here alive
      exact ⟨here, alive, rfl, rfl⟩
    · exact .inl
  | destroy =>
    obtain ⟨object, _, done⟩ := Option.map_eq_some_iff.mp taken
    cases done
    constructor
    · rfl
    · rfl
    · intro event member
      split at member
      · exact .inl (List.mem_singleton.mp member)
      · cases member
    · intro here alive
      cases alive
    · intro _
      exact .inr rfl
  | join =>
    simp only [step] at taken
    split at taken
    · cases taken
    · rename_i object owned
      split at taken
      · split at taken
        · cases taken
          constructor
          · rfl
          · rfl
          · intro event member
            cases member
          · intro here alive
            cases alive
            exact ⟨object, owned_eq_some owned, rfl, rfl⟩
          · intro gone
            cases gone
        · cases taken
      · cases taken
        exact .same rfl rfl rfl

/-- All that a step of `run` can do to the object and to the order of things: it uses a
destroyed object, or it goes on. -/
theorem run_cases {tid : Nat} {s next : Startup F} {events : List (StartupEvent F)}
    (taken : s.runStep tid = some (events, next)) :
    (events = [.dangling] ∧ s.object = none ∧ s.point.released = false) ∨
    ((∀ event ∈ events, ∃ cb, event = .invoked cb) ∧ (next.object = none → s.object = none) ∧
      (s.object = none → next.object = none ∧ next.point.released = s.point.released ∧
        next.point ≠ .undefined)) := by
  have used {use : ThreadObject F → Startup F} (access : s.access use = some (events, next))
      (early : s.point.released = false)
      (kept : ∀ object, s.object = some object → (use object).object ≠ none) :
      (events = [.dangling] ∧ s.object = none ∧ s.point.released = false) ∨
      ((∀ event ∈ events, ∃ cb, event = .invoked cb) ∧ (next.object = none → s.object = none) ∧
        (s.object = none → next.object = none ∧ next.point.released = s.point.released ∧
          next.point ≠ .undefined)) := by
    rcases access_cases access with ⟨object, alive, rfl, rfl⟩ | ⟨gone, rfl, _⟩
    · refine .inr ⟨?_, ?_, ?_⟩
      · intro event member
        cases member
      · intro gone
        exact absurd gone (kept object alive)
      · intro gone
        cases gone.symm.trans alive
    · exact .inl ⟨rfl, gone, early⟩
  cases point : s.point with
  | setThis =>
    simp only [runStep, point] at taken
    cases taken
    refine .inr ⟨?_, id, fun gone => ⟨gone, rfl, by simp⟩⟩
    intro event member
    cases member
  | readName | setName =>
    simp only [runStep, point] at taken
    rw [← point]
    apply used taken (by rw [point]; rfl)
    intro object alive gone
    cases gone.symm.trans alive
  | writeId | swap =>
    simp only [runStep, point] at taken
    rw [← point]
    apply used taken (by rw [point]; rfl)
    intro object alive gone
    cases gone
  | invoke =>
    simp only [runStep, point] at taken
    split at taken
    · rename_i cb _
      cases taken
      refine .inr ⟨?_, id, fun gone => ⟨gone, rfl, by simp⟩⟩
      intro event member
      exact ⟨cb, List.mem_singleton.mp member⟩
    · cases taken
  | «return» =>
    simp only [runStep, point] at taken
    cases taken
    refine .inr ⟨?_, id, fun gone => ⟨gone, rfl, by simp⟩⟩
    intro event member
    cases member
  | done | undefined =>
    simp only [runStep, point] at taken
    cases taken

/-- What holds in every run, whenever the object is destroyed: the id and the callback in
the object follow the point of `run`, and the callback is invoked once. -/
structure Kept (tid : Nat) (cb : F) (s : Startup F) (past : List (StartupEvent F)) : Prop where
  id : ∀ object, s.object = some object → object.id = if s.point.written then (tid : Int) else -1
  held : ∀ object, s.object = some object → s.point.released = false → object.cb = some cb
  swapped : s.point = .invoke → s.cb = some cb
  once : invocations past = if s.point = .return ∨ s.point = .done then [cb] else []
  lost : s.point = .undefined → .dangling ∈ past

theorem kept_create (tid : Nat) (cb : F) (name : Text) : Kept tid cb (create cb name) [] where
  id object alive := by
    cases alive
    rfl
  held object alive _ := by
    cases alive
    rfl
  swapped here := by cases here
  once := rfl
  lost here := by cases here

theorem invocations_append (front back : List (StartupEvent F)) :
    invocations (front ++ back) = invocations front ++ invocations back :=
  List.filterMap_append

/-- A step before the callback is taken out. -/
theorem Kept.early {tid : Nat} {cb : F} {s next : Startup F} {past : List (StartupEvent F)}
    (kept : Kept tid cb s past) (early : s.point.released = false) (still : next.point.released = false)
    (defined : next.point ≠ .undefined)
    (id : ∀ object, next.object = some object → object.id = if next.point.written then (tid : Int) else -1)
    (held : ∀ object, next.object = some object → object.cb = some cb) : Kept tid cb next past := by
  constructor
  · exact id
  · intro object alive _
    exact held object alive
  · intro here
    rw [here] at still
    cases still
  · rw [kept.once, if_neg (RunPoint.not_ended early), if_neg (RunPoint.not_ended still)]
  · intro here
    exact absurd here defined

/-- One that leaves the object as it is. -/
theorem Kept.advance {tid : Nat} {cb : F} {s next : Startup F} {past : List (StartupEvent F)}
    (kept : Kept tid cb s past) (same : next.object = s.object)
    (written : next.point.written = s.point.written) (early : s.point.released = false)
    (still : next.point.released = false) (defined : next.point ≠ .undefined) :
    Kept tid cb next past := by
  apply kept.early early still defined
  · intro object alive
    rw [written]
    exact kept.id object (same ▸ alive)
  · intro object alive
    exact kept.held object (same ▸ alive) early

/-- A step from where the callback is taken out. -/
theorem Kept.late {tid : Nat} {cb : F} {s next : Startup F} {past events : List (StartupEvent F)}
    (kept : Kept tid cb s past) (written : s.point.written = true) (released : next.point.released = true)
    (id : ∀ object, next.object = some object → ∃ old, s.object = some old ∧ object.id = old.id)
    (swapped : next.point = .invoke → next.cb = some cb)
    (once : invocations (past ++ events) = if next.point = .return ∨ next.point = .done then [cb] else []) :
    Kept tid cb next (past ++ events) := by
  have writtenNext := RunPoint.written_of_released released
  constructor
  · intro object alive
    obtain ⟨old, before, same⟩ := id object alive
    rw [same, kept.id old before, written, writtenNext]
  · intro object _ early
    cases early.symm.trans released
  · exact swapped
  · exact once
  · intro here
    rw [here] at released
    cases released

/-- A step that uses the object before the callback is taken out. -/
theorem Kept.used {tid : Nat} {cb : F} {s next : Startup F} {past events : List (StartupEvent F)}
    {use : ThreadObject F → Startup F} (kept : Kept tid cb s past)
    (access : s.access use = some (events, next)) (early : s.point.released = false)
    (alive : ∀ object, s.object = some object → Kept tid cb (use object) past) :
    Kept tid cb next (past ++ events) := by
  rcases access_cases access with ⟨object, here, rfl, rfl⟩ | ⟨gone, rfl, rfl⟩
  · rw [List.append_nil]
    exact alive object here
  · constructor
    · intro object here
      cases gone.symm.trans here
    · intro object here
      cases gone.symm.trans here
    · intro here
      cases here
    · rw [invocations_append, kept.once, if_neg (RunPoint.not_ended early)]
      rfl
    · intro _
      exact List.mem_append_right _ List.mem_cons_self

theorem kept_run {tid : Nat} {cb : F} {s next : Startup F} {past events : List (StartupEvent F)}
    (kept : Kept tid cb s past) (taken : s.runStep tid = some (events, next)) :
    Kept tid cb next (past ++ events) := by
  cases point : s.point with
  | setThis =>
    simp only [runStep, point] at taken
    cases taken
    rw [List.append_nil]
    exact kept.advance rfl (by rw [point]; rfl) (by rw [point]; rfl) rfl (by simp)
  | readName =>
    simp only [runStep, point] at taken
    apply kept.used taken (by rw [point]; rfl)
    intro object _
    exact kept.advance rfl (by rw [point]; rfl) (by rw [point]; rfl) rfl (by simp)
  | writeId =>
    simp only [runStep, point] at taken
    have early : s.point.released = false := by rw [point]; rfl
    apply kept.used taken early
    intro object alive
    apply kept.early early rfl (by simp)
    · intro _ here
      cases here
      rfl
    · intro _ here
      cases here
      exact kept.held object alive early
  | setName =>
    simp only [runStep, point] at taken
    apply kept.used taken (by rw [point]; rfl)
    intro object _
    exact kept.advance rfl (by rw [point]; rfl) (by rw [point]; rfl) rfl (by simp)
  | swap =>
    simp only [runStep, point] at taken
    have early : s.point.released = false := by rw [point]; rfl
    apply kept.used taken early
    intro object alive
    rw [← List.append_nil past]
    apply kept.late (by rw [point]; rfl) rfl
    · intro _ here
      cases here
      exact ⟨object, alive, rfl⟩
    · intro _
      exact kept.held object alive early
    · rw [List.append_nil, kept.once, if_neg (RunPoint.not_ended early)]
      rfl
  | invoke =>
    simp only [runStep, point, kept.swapped point] at taken
    cases taken
    apply kept.late (by rw [point]; rfl) rfl
    · intro object alive
      exact ⟨object, alive, rfl⟩
    · intro here
      cases here
    · rw [invocations_append, kept.once, if_neg (by simp [point])]
      rfl
  | «return» =>
    simp only [runStep, point] at taken
    cases taken
    apply kept.late (by rw [point]; rfl) rfl
    · intro object alive
      exact ⟨object, alive, rfl⟩
    · intro here
      cases here
    · rw [List.append_nil, kept.once, if_pos (.inl point)]
      rfl
  | done =>
    simp only [runStep, point] at taken
    cases taken
  | undefined =>
    simp only [runStep, point] at taken
    cases taken

theorem kept_step {tid : Nat} {cb : F} {s next : Startup F} {label : StartupStep}
    {past events : List (StartupEvent F)} (kept : Kept tid cb s past)
    (taken : step tid s label = some (events, next)) : Kept tid cb next (past ++ events) := by
  by_cases other : label = .run
  · subst other
    exact kept_run kept taken
  · have outside := outside_step other taken
    have none : invocations events = [] := by
      apply List.filterMap_eq_nil_iff.mpr
      intro event member
      rcases outside.events event member with rfl | ⟨object, _, _, rfl⟩
      · rfl
      · rfl
    constructor
    · intro object here
      obtain ⟨old, before, id, _⟩ := outside.object object here
      rw [id, outside.point]
      exact kept.id old before
    · intro object here early
      obtain ⟨old, before, _, held⟩ := outside.object object here
      rw [held]
      exact kept.held old before (outside.point ▸ early)
    · intro here
      rw [outside.cb]
      exact kept.swapped (outside.point ▸ here)
    · rw [invocations_append, none, List.append_nil, outside.point]
      exact kept.once
    · intro here
      exact List.mem_append_left _ (kept.lost (outside.point ▸ here))

theorem kept_reached {tid : Nat} {cb : F} {name : Text} {labels : List StartupStep} {s : Startup F}
    {events : List (StartupEvent F)} (ran : run (step tid) labels (create cb name) = some (events, s)) :
    Kept tid cb s events := by
  have held := run_history (Kept tid cb) (fun _ _ _ _ _ kept taken => kept_step kept taken) ran
    (kept_create tid cb name)
  rwa [List.nil_append] at held

/-- Every id that was got is the new thread's, `run` has not used a destroyed object, and
once `run` has returned, the callback has been invoked exactly once. -/
structure Handshake (tid : Nat) (cb : F) (s : Startup F) (past : List (StartupEvent F)) : Prop where
  ids : ∀ id : Int, .gotId id ∈ past → id = tid
  alive : .dangling ∉ past
  once : s.point = .done → invocations past = [cb]

/-- The id is got after `run` has written it, and the object is destroyed after `run` has
taken the callback out. -/
def Ordered (s : Startup F) : StartupStep → Prop
  | .getId => s.point.written = true
  | .destroy => s.point.released = true
  | _ => True

/-- `run` has no use for a destroyed object any more. -/
def Spared (s : Startup F) : Prop := s.object = none → s.point.released = true

theorem handshake_step {tid : Nat} {cb : F} {s next : Startup F} {label : StartupStep}
    {past events : List (StartupEvent F)} (ordered : Ordered s label) (kept : Kept tid cb s past)
    (spared : s.Spared) (handshake : Handshake tid cb s past)
    (taken : step tid s label = some (events, next)) :
    next.Spared ∧ Handshake tid cb next (past ++ events) := by
  have after := kept_step kept taken
  have once (ended : next.point = .done) : invocations (past ++ events) = [cb] := by
    rw [after.once, if_pos (.inr ended)]
  -- what the events of this step may be
  have extend (harmless : ∀ event ∈ events, event ≠ .dangling ∧ ∀ id : Int, event = .gotId id → id = tid) :
      Handshake tid cb next (past ++ events) := by
    refine ⟨?_, ?_, once⟩
    · intro id member
      rcases List.mem_append.mp member with old | new
      · exact handshake.ids id old
      · exact (harmless _ new).2 id rfl
    · intro member
      rcases List.mem_append.mp member with old | new
      · exact handshake.alive old
      · exact (harmless _ new).1 rfl
  by_cases other : label = .run
  · subst other
    rcases run_cases taken with ⟨_, gone, early⟩ | ⟨harmless, reverse, further⟩
    · cases early.symm.trans (spared gone)
    · constructor
      · intro gone
        have goneBefore := reverse gone
        rw [(further goneBefore).2.1]
        exact spared goneBefore
      · apply extend
        intro event member
        obtain ⟨cb', rfl⟩ := harmless event member
        exact ⟨by simp, by simp⟩
  · have outside := outside_step other taken
    constructor
    · intro gone
      rw [outside.point]
      rcases outside.gone gone with goneBefore | rfl
      · exact spared goneBefore
      · exact ordered
    · apply extend
      intro event member
      rcases outside.events event member with rfl | ⟨object, rfl, alive, rfl⟩
      · exact ⟨by simp, by simp⟩
      · refine ⟨by simp, ?_⟩
        rintro id ⟨⟩
        have written : s.point.written = true := ordered
        rw [kept.id object alive, if_pos written]

/-- In a run that keeps to the order the handshake works in every state. -/
theorem handshake_reached {tid : Nat} {cb : F} {name : Text} {labels : List StartupStep}
    {final : Startup F} {events : List (StartupEvent F)}
    (ran : run (step tid) labels (create cb name) = some (events, final))
    (ordered : Throughout (step tid) Ordered labels (create cb name)) :
    final.Spared ∧ Handshake tid cb final events := by
  have start : Kept tid cb (create cb name) [] ∧ (create cb name).Spared ∧
      Handshake tid cb (create cb name) [] := by
    refine ⟨kept_create tid cb name, ?_, ?_, ?_, ?_⟩
    · intro gone
      cases gone
    · intro id member
      cases member
    · intro member
      cases member
    · intro ended
      cases ended
  have held := run_history_throughout Ordered
    (fun s past => Kept tid cb s past ∧ s.Spared ∧ Handshake tid cb s past) ?_ ran ordered start
  · exact held.2
  · rintro s label past events next ordered ⟨kept, spared, handshake⟩ taken
    exact ⟨kept_step kept taken, handshake_step ordered kept spared handshake taken⟩

/-- `run` still needs the object that is destroyed, or it has used it already. -/
def Doomed (s : Startup F) (past : List (StartupEvent F)) : Prop :=
  (s.object = none ∧ s.point.released = false ∧ s.point ≠ .undefined) ∨ .dangling ∈ past

theorem doomed_step {tid : Nat} {s next : Startup F} {label : StartupStep}
    {past events : List (StartupEvent F)} (doomed : Doomed s past)
    (taken : step tid s label = some (events, next)) : Doomed next (past ++ events) := by
  rcases doomed with ⟨gone, early, defined⟩ | used
  · by_cases other : label = .run
    · subst other
      rcases run_cases taken with ⟨rfl, _⟩ | ⟨_, _, further⟩
      · exact .inr (List.mem_append_right _ List.mem_cons_self)
      · obtain ⟨goneNext, released, definedNext⟩ := further gone
        exact .inl ⟨goneNext, released.trans early, definedNext⟩
    · have outside := outside_step other taken
      have goneNext : next.object = none := by
        cases alive : next.object with
        | none => rfl
        | some object =>
          obtain ⟨old, before, _⟩ := outside.object object alive
          cases gone.symm.trans before
      exact .inl ⟨goneNext, by rw [outside.point, early], by rwa [outside.point]⟩
  · exact .inr (List.mem_append_left _ used)

/-- An order that is broken shows once `run` has come to its end. -/
theorem ordered_of_handshake {tid : Nat} {cb : F} {name : Text} {labels : List StartupStep}
    {final : Startup F} {events : List (StartupEvent F)}
    (ran : run (step tid) labels (create cb name) = some (events, final))
    (ended : final.point = .done ∨ final.point = .undefined)
    (handshake : Always (step tid) (Handshake tid cb) labels (create cb name)) :
    Throughout (step tid) Ordered labels (create cb name) := by
  rcases throughout_or_first Ordered ran with
    ordered | ⟨front, label, back, middle, past, split, ranFront, _, broken⟩
  · exact ordered
  · have kept := kept_reached ranFront
    obtain ⟨first, _, later, ranFront', ranBack, rfl⟩ := run_append_eq_some.mp (split ▸ ran)
    cases ranFront.symm.trans ranFront'
    obtain ⟨new, next, rest, taken, ranRest, rfl⟩ := run_cons_eq_some.mp ranBack
    have all := handshake labels [] (List.append_nil _).symm _ final ran
    cases label with
    | returns | join | run => exact absurd trivial broken
    | getId =>
      obtain ⟨object, owned, done⟩ := Option.map_eq_some_iff.mp taken
      cases done
      have unwritten : ¬ middle.point.written = true := broken
      have got := all.ids object.id (by simp)
      rw [kept.id object (owned_eq_some owned), if_neg unwritten] at got
      omega
    | destroy =>
      obtain ⟨object, owned, done⟩ := Option.map_eq_some_iff.mp taken
      cases done
      have early : middle.point.released = false := by
        cases released : middle.point.released with
        | false => rfl
        | true => exact absurd released broken
      have doomed : Doomed { middle with object := none } (past ++ if object.thread then [.detached] else []) := by
        by_cases lost : middle.point = .undefined
        · exact .inr (List.mem_append_left _ (kept.lost lost))
        · exact .inl ⟨rfl, early, lost⟩
      have doomedFinal := run_history Doomed (fun _ _ _ _ _ doomed taken => doomed_step doomed taken)
        ranRest doomed
      have used : .dangling ∈ past ++ (if object.thread then [.detached] else []) ++ rest := by
        rcases doomedFinal with ⟨_, earlyFinal, definedFinal⟩ | used
        · rcases ended with done | lost
          · rw [done] at earlyFinal
            cases earlyFinal
          · exact absurd lost definedFinal
        · exact used
      rw [List.append_assoc] at used
      exact absurd used all.alive

/-- The handshake works in every state of a run that keeps to the order, and of the runs
in which `run` comes to its end it works in these only. -/
theorem handshake_iff_ordered (tid : Nat) (cb : F) (name : Text) {labels : List StartupStep}
    {final : Startup F} {events : List (StartupEvent F)}
    (ran : run (step tid) labels (create cb name) = some (events, final)) :
    (Throughout (step tid) Ordered labels (create cb name) →
      Always (step tid) (Handshake tid cb) labels (create cb name)) ∧
    (final.point = .done ∨ final.point = .undefined →
      Always (step tid) (Handshake tid cb) labels (create cb name) →
      Throughout (step tid) Ordered labels (create cb name)) := by
  constructor
  · rintro ordered front back rfl past middle ranFront
    exact (handshake_reached ranFront (throughout_append_left ordered)).2
  · intro ended handshake
    exact ordered_of_handshake ran ended handshake

/-- The creating thread gets the id and joins when `run` is through. -/
def patient : List StartupStep :=
  [.run, .returns, .run, .run, .getId, .run, .run, .run, .run, .getId, .join, .destroy]

theorem handshake_iff_ordered_patient :
    ∃ events final, run (step 7) patient (create 'f' ['t']) = some (events, final) ∧
      (Throughout (step 7) Ordered patient (create 'f' ['t']) →
        Always (step 7) (Handshake 7 'f') patient (create 'f' ['t'])) ∧
      (final.point = .done ∨ final.point = .undefined →
        Always (step 7) (Handshake 7 'f') patient (create 'f' ['t']) →
        Throughout (step 7) Ordered patient (create 'f' ['t'])) :=
  ⟨_, _, rfl, handshake_iff_ordered 7 'f' ['t'] rfl⟩

/-- The id is got before `run` has written it, and `run` uses an object that its owner,
who did not join, has destroyed. -/
theorem handshake_fails :
    (∃ final, run (step 7) [.returns, .getId] (create 'f' ['t']) = some ([.gotId (-1)], final)) ∧
    ¬ Always (step 7) (Handshake 7 'f') [.returns, .getId] (create 'f' ['t']) ∧
    (∃ final, run (step 7) [.returns, .destroy, .run, .run] (create 'f' ['t']) =
      some ([.detached, .dangling], final)) ∧
    ¬ Always (step 7) (Handshake 7 'f') [.returns, .destroy, .run, .run] (create 'f' ['t']) := by
  refine ⟨⟨_, rfl⟩, ?_, ⟨_, rfl⟩, ?_⟩
  · intro handshake
    have got := (handshake _ [] (List.append_nil _).symm _ _ rfl).ids (-1) List.mem_cons_self
    cases got
  · intro handshake
    have alive := (handshake _ [] (List.append_nil _).symm _ _ rfl).alive
    exact alive (List.mem_cons_of_mem _ List.mem_cons_self)

end Startup

end Sylar
