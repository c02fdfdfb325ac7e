import Sylar.Library.Alone
import Sylar.Log.Threads

/-! A call by a thread that works alone: its critical sections together have the effect
that the call has as one step on the objects. -/
namespace Sylar

open Library LockSystem

namespace LogObjects

/-- No logger points outside the heap. -/
def Allocated (s : LogObjects) : Prop :=
  ∀ object ∈ s.loggers, ∀ p ∈ object.appenders, p < s.heap.length

theorem Allocated.update {s : LogObjects} {l : Nat} {updated : LoggerObject} {heap : List LogAppender}
    (allocated : s.Allocated) (length : heap.length = s.heap.length)
    (pointers : ∀ p ∈ updated.appenders, p < s.heap.length) :
    Allocated { s with loggers := s.loggers.set l updated, heap := heap } := by
  intro object member p inside
  rw [length]
  rcases List.mem_or_eq_of_mem_set member with old | rfl
  · exact allocated object old p inside
  · exact pointers p inside

theorem step_allocated {s next : LogObjects} {call : LogCall} {events : List Got} (allocated : s.Allocated)
    (taken : s.step call = some (events, next)) : next.Allocated := by
  have own {l : Nat} {logger : LoggerObject} (found : s.loggers[l]? = some logger) :
      ∀ p ∈ logger.appenders, p < s.heap.length := allocated logger (List.mem_of_getElem? found)
  cases step_change taken with
  | same => exact allocated
  | newLogger object table _ empty =>
    intro other member p inside
    rcases List.mem_append.mp member with old | new
    · exact allocated other old p inside
    · rw [List.mem_singleton.mp new, empty] at inside
      cases inside
  | newAppender sink =>
    intro object member p inside
    have before := allocated object member p inside
    rw [List.length_append]
    omega
  | attach l p logger _ found inside =>
    apply allocated.update (List.length_modify _ _ _)
    intro q member
    rcases List.mem_append.mp member with old | new
    · exact own found q old
    · rw [List.mem_singleton.mp new]
      exact inside
  | shrink l logger updated _ found _ fewer =>
    apply allocated.update rfl
    exact fun q member => own found q (fewer q member)
  | setFormatter l val logger _ _ found =>
    apply allocated.update (length_modifyAll _ _ _)
    exact fun q member => own found q member
  | setOwn p val =>
    intro object member q inside
    rw [List.length_modify]
    exact allocated object member q inside

end LogObjects

section Code

variable (T : Type) [DecidableEq T] {s next : LogObjects}

theorem guarded_finishes {held : List Lock} {lock : Lock} {action : LogAction} {events : List OwnSet}
    (free : lock ∉ held) (performed : s.perform action = some (events, next, [])) :
    Finishes T LogObjects.perform held (guarded lock action) held s next events := by
  have inside : Finishes T LogObjects.perform (lock :: held) [.act action] (lock :: held) s next (events ++ []) :=
    .act performed .nil
  rw [List.append_nil] at inside
  exact .locked free inside

/-- The loop of `Logger::setFormatter` over the appenders, under the logger's lock. -/
theorem inherit_finishes (l : Nat) (val : Option LogFormatter) (s : LogObjects) {pointers : List Nat}
    (inside : ∀ p ∈ pointers, p < s.heap.length) :
    Finishes T LogObjects.perform [.logger l] (pointers.flatMap fun p => guarded (.appender p) (.inherit p val))
      [.logger l] s { s with heap := modifyAll (Logger.inherit val) pointers s.heap } [] := by
  induction pointers generalizing s with
  | nil => exact .nil
  | cons p rest ih =>
    obtain ⟨first, others⟩ := List.forall_mem_cons.mp inside
    have one : s.perform (.inherit p val) =
        some ([], { s with heap := s.heap.modify p (Logger.inherit val) }, []) := by
      simp only [LogObjects.perform, first, if_true]
    have later := ih { s with heap := s.heap.modify p (Logger.inherit val) } (by simpa using others)
    exact (guarded_finishes T (by simp) one).append later

theorem setFormatter_finishes {l : Nat} {val : Option LogFormatter} {events : List Got}
    (allocated : s.Allocated) (taken : s.step (.setFormatter l val) = some (events, next)) :
    Finishes T LogObjects.perform [] (guarded (.logger l) (.setFormatter l val)) [] s next [] := by
  simp only [LogObjects.step] at taken
  obtain ⟨object, found, _, rfl⟩ := LogObjects.onLogger_some taken
  have performed : s.perform (.setFormatter l val) =
      some ([], { s with loggers := s.loggers.set l ⟨{ object.toLogger with formatter := val }, object.parent⟩ },
        object.appenders.flatMap fun p => guarded (.appender p) (.inherit p val)) := by
    simp only [LogObjects.perform, LogObjects.onLogger, LogObjects.eachAppender, found]
  have inside := inherit_finishes T l val
    { s with loggers := s.loggers.set l ⟨{ object.toLogger with formatter := val }, object.parent⟩ }
    (allocated object (List.mem_of_getElem? found))
  exact .locked (by simp) (.act performed inside)

/-- `addAppender` tests the formatter in one section and writes it in another one. -/
theorem addAppender_finishes {l p : Nat} {events : List Got}
    (taken : s.step (.addAppender l p) = some (events, next)) :
    Finishes T LogObjects.perform [] (LogCall.addAppender l p).code [] s next [] := by
  simp only [LogObjects.step] at taken
  split_ifs at taken with inside
  obtain ⟨object, found, _, rfl⟩ := LogObjects.onLogger_some taken
  obtain ⟨a, there⟩ : ∃ a, s.heap[p]? = some a := ⟨_, List.getElem?_eq_getElem inside⟩
  -- the objects once the appender has a formatter
  set adopted : LogObjects := { s with heap := s.heap.modify p object.toLogger.adopt } with isAdopted
  have adopts : Finishes T LogObjects.perform [.logger l]
      (if a.getFormatter.isNone then guarded (.appender p) (.adopt l p) else []) [.logger l] s adopted [] := by
    split
    · rename_i null
      have same : s.heap.modify p object.toLogger.adopt =
          s.heap.modify p fun a => { a with formatter := object.formatter } :=
        modify_congr there (by simp only [Logger.adopt, null, if_true])
      refine guarded_finishes T (by simp) ?_
      simp only [LogObjects.perform, found, inside, if_true, isAdopted, same]
    · rename_i given
      have same : s.heap.modify p object.toLogger.adopt = s.heap := by
        rw [modify_congr there (g := id) (by simp [Logger.adopt, given]), List.modify_id]
      rw [isAdopted, same]
      exact .nil
  have pushed : adopted.perform (.push l p) = some ([], { adopted with
      loggers := s.loggers.set l
        ⟨{ object.toLogger with appenders := object.appenders ++ [p] }, object.parent⟩ }, []) := by
    simp only [LogObjects.perform, LogObjects.onLogger, isAdopted, found]
  have checked : s.perform (.check l p) = some ([], s, .release (.appender p) ::
      ((if a.getFormatter.isNone then guarded (.appender p) (.adopt l p) else []) ++ [.act (.push l p)])) := by
    simp only [LogObjects.perform, there]
  have pushes := adopts.append (.act pushed .nil)
  have release : Finishes T LogObjects.perform [.appender p, .logger l] [.release (.appender p)] [.logger l] s s [] :=
    .release (by simp)
  have sections := (Finishes.acquire (by simp)).append (.act checked (release.append pushes))
  exact .locked (by simp) sections

/-- Whatever a call does as a whole its sections do one after the other. -/
theorem code_finishes {call : LogCall} {events : List Got} (allocated : s.Allocated)
    (taken : s.step call = some (events, next)) :
    Finishes T LogObjects.perform [] call.code [] s next call.reported := by
  have whole (single : call.single = true) :
      s.perform (.whole call single) = some (call.reported, next, []) := by
    simp only [LogObjects.perform, taken]
  cases call with
  | getLogger name | delAppender l p | clearAppenders l | setOwn p val =>
    exact guarded_finishes T (by simp) (whole rfl)
  | newLogger name | newAppender sink | setLevel l val => exact .act (whole rfl) .nil
  | addAppender l p => exact addAppender_finishes T taken
  | setFormatter l val => exact setFormatter_finishes T allocated taken
  | setFormatterText l val =>
    simp only [LogCall.code]
    split
    · rename_i error
      simp only [LogObjects.step] at taken
      obtain ⟨object, found, _, rfl⟩ := LogObjects.onLogger_some taken
      obtain ⟨inside, same⟩ := List.getElem?_eq_some_iff.mp found
      simp only [Logger.setFormatterText, error, if_true]
      rw [← same, List.set_getElem_self inside]
      exact .nil
    · rename_i parsed
      have same : s.step (.setFormatter l (some (LogFormatter.create val))) = some (events, next) := by
        rw [← taken]
        simp only [LogObjects.step, LogObjects.onLogger, Logger.setFormatterText, parsed]
        rfl
      exact setFormatter_finishes T allocated same

end Code

namespace LogThreads

variable {T : Type} [DecidableEq T]

/-- A thread at rest makes a call while no lock is taken, and nobody else moves. -/
theorem call_alone {s : LogThreads T} {t : T} {call : LogCall} {next : LogObjects} {events : List Got}
    (idle : s.thread t = ⟨[], []⟩) (free : ∀ k, s.owner k = none) (allocated : s.data.Allocated)
    (taken : s.data.step call = some (events, next)) :
    ∃ turns, run step turns s = some (call.reported, { s with data := next }) := by
  have finishes : Finishes T LogObjects.perform [] (PublicCall.change call).code [] s.data next call.reported :=
    code_finishes T allocated taken
  exact finishes.call idle free

/-- What calls one after the other do to the objects, a thread that makes them alone does. -/
theorem run_alone (t : T) {calls : List LogCall} {events : List Got} {next : LogObjects}
    (ran : run LogObjects.step calls LogObjects.create = some (events, next)) :
    ∃ turns, run step turns (create : LogThreads T) =
      some (calls.flatMap LogCall.reported, { (create : LogThreads T) with data := next }) := by
  have allocated : LogObjects.create.Allocated := by
    intro object member p inside
    rw [List.mem_singleton.mp member] at inside
    simpa [LogObjects.create, LoggerManager.rootLogger, Logger.addAppender, Logger.create] using inside
  have goesOn (calls : List LogCall) : ∀ (s : LogThreads T) (events : List Got), s.thread t = ⟨[], []⟩ →
      (∀ k, s.owner k = none) → s.data.Allocated → run LogObjects.step calls s.data = some (events, next) →
      ∃ turns, run step turns s = some (calls.flatMap LogCall.reported, { s with data := next }) := by
    induction calls with
    | nil =>
      intro s events _ _ _ ran
      cases ran
      exact ⟨[], rfl⟩
    | cons call calls ih =>
      intro s events idle free allocated ran
      obtain ⟨first, middle, later, taken, rest, _⟩ := run_cons_eq_some.mp ran
      obtain ⟨turns, one⟩ := call_alone idle free allocated taken
      obtain ⟨more, others⟩ := ih { s with data := middle } later idle free
        (LogObjects.step_allocated allocated taken) rest
      exact ⟨turns ++ more, run_append_eq_some.mpr ⟨_, _, _, one, others, rfl⟩⟩
  exact goesOn calls create events rfl (fun _ => rfl) allocated ran

theorem run_alone_setLevel :
    ∃ events next turns, run LogObjects.step [.getLogger ['a'], .setLevel 1 .warn] LogObjects.create =
        some (events, next) ∧
      run step turns (create : LogThreads Unit) =
        some ([LogCall.getLogger ['a'], .setLevel 1 .warn].flatMap LogCall.reported,
          { (create : LogThreads Unit) with data := next }) := by
  have ran : ∃ events next, run LogObjects.step [.getLogger ['a'], .setLevel 1 .warn] LogObjects.create =
      some (events, next) := ⟨_, _, rfl⟩
  obtain ⟨events, next, ran⟩ := ran
  obtain ⟨turns, alone⟩ := run_alone () ran
  exact ⟨events, next, turns, ran, alone⟩

end LogThreads

end Sylar
