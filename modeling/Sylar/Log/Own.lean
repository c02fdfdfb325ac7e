import Sylar.Log.Threads

/-! An appender's own formatter. `addAppender` reads the appender's formatter in one
critical section and writes it in another, and what happens in between may undo the test. -/
namespace Sylar

open Library

/-- The formatter that was set last on an appender. -/
def lastSet (p : Nat) (past : List OwnSet) : Option (Option LogFormatter) :=
  past.foldl (fun last set => if set.appender = p then some set.val else last) none

theorem lastSet_append (p : Nat) (past : List OwnSet) (set : OwnSet) :
    lastSet p (past ++ [set]) = if set.appender = p then some set.val else lastSet p past := by
  simp [lastSet]

/-- An appender that has a formatter of its own has the one that was set last. -/
def Owned (heap : List LogAppender) (past : List OwnSet) : Prop :=
  ∀ p a, heap[p]? = some a → a.hasFormatter = true → lastSet p past = some a.formatter

/-- When `addAppender` writes, the appender has no formatter of its own, or it has the
one that is written. -/
def Rechecks [DecidableEq T] (s : LogThreads T) : Turn T PublicCall → Prop
  | .call _ _ => True
  | .step t => ∀ l p rest, (s.thread t).code = .act (.adopt l p) :: rest →
    ∀ (logger : LoggerObject) (a : LogAppender), s.data.loggers[l]? = some logger → s.data.heap[p]? = some a →
      a.hasFormatter = true → a.formatter = logger.formatter

namespace Owned

variable {heap : List LogAppender} {past : List OwnSet}

/-- An update that leaves alone every appender that has a formatter of its own. -/
theorem modify (owned : Owned heap past) {f : LogAppender → LogAppender} (p : Nat)
    (kept : ∀ a, heap[p]? = some a → (f a).hasFormatter = true →
      a.hasFormatter = true ∧ (f a).formatter = a.formatter) : Owned (heap.modify p f) past := by
  intro q b there own
  by_cases same : p = q
  · subst same
    obtain ⟨a, found, rfl⟩ : ∃ a, heap[p]? = some a ∧ f a = b := by
      simpa [List.getElem?_modify] using there
    obtain ⟨before, formatter⟩ := kept a found own
    rw [formatter]
    exact owned p a found before
  · rw [List.getElem?_modify_ne _ _ same] at there
    exact owned q b there own

/-- A formatter that is set is the one set last. -/
theorem setOwn (owned : Owned heap past) (p : Nat) (val : Option LogFormatter) :
    Owned (heap.modify p (LogAppender.setFormatter val)) (past ++ [⟨p, val⟩]) := by
  intro q b there own
  rw [lastSet_append]
  by_cases same : p = q
  · subst same
    obtain ⟨a, _, rfl⟩ : ∃ a, heap[p]? = some a ∧ a.setFormatter val = b := by
      simpa [List.getElem?_modify] using there
    simp [LogAppender.setFormatter]
  · rw [List.getElem?_modify_ne _ _ same] at there
    simpa [same] using owned q b there own

theorem allocate (owned : Owned heap past) (sink : Sink) : Owned (heap ++ [LogAppender.create sink]) past := by
  intro p a there own
  rcases getElem?_allocated.mp there with old | ⟨_, rfl⟩
  · exact owned p a old own
  · cases own

/-- The write of `addAppender` keeps an appender's own formatter exactly if it is the
one written. -/
theorem adopt_iff (owned : Owned heap past) {p : Nat} {a : LogAppender} (there : heap[p]? = some a)
    (formatter : Option LogFormatter) :
    Owned (heap.modify p fun a => { a with formatter := formatter }) past ↔
      (a.hasFormatter = true → a.formatter = formatter) := by
  constructor
  · intro after own
    have written := after p { a with formatter := formatter } (by simp [there]) own
    exact Option.some.inj ((owned p a there own).symm.trans written)
  · intro same
    apply owned.modify
    intro b found own
    cases there.symm.trans found
    exact ⟨own, (same own).symm⟩

end Owned

/-- A call in one section sets a formatter, or changes none. -/
theorem whole_owned {s next : LogObjects} {past : List OwnSet} {call : LogCall} {events : List Got}
    (owned : Owned s.heap past) (single : call.single = true) (taken : s.step call = some (events, next)) :
    Owned next.heap (past ++ call.reported) := by
  cases call with
  | getLogger name =>
    cases taken
    simp only [LogCall.reported, List.append_nil]
    unfold LogObjects.getLogger
    split
    · exact owned
    · exact owned
  | newLogger name =>
    cases taken
    simpa [LogCall.reported] using owned
  | newAppender sink =>
    cases taken
    simpa [LogCall.reported] using owned.allocate sink
  | addAppender | setFormatter | setFormatterText => cases single
  | delAppender | clearAppenders | setLevel =>
    simp only [LogObjects.step] at taken
    obtain ⟨_, _, _, rfl⟩ := LogObjects.onLogger_some taken
    simpa [LogCall.reported] using owned
  | setOwn p val =>
    simp only [LogObjects.step] at taken
    split_ifs at taken
    cases taken
    exact owned.setOwn p val

/-- Of all actions only the write of `addAppender` can replace an own formatter. -/
theorem perform_owned_iff {s next : LogObjects} {past events : List OwnSet} {action : LogAction} {code : LogCode}
    (owned : Owned s.heap past) (done : s.perform action = some (events, next, code)) :
    Owned next.heap (past ++ events) ↔
      ∀ l p, action = .adopt l p → ∀ (logger : LoggerObject) (a : LogAppender), s.loggers[l]? = some logger →
        s.heap[p]? = some a → a.hasFormatter = true → a.formatter = logger.formatter := by
  cases action with
  | whole call single =>
    simp only [LogObjects.perform] at done
    split at done
    · cases done
    · rename_i taken
      cases done
      exact iff_of_true (whole_owned owned single taken) (by simp)
  | adopt l p =>
    simp only [LogObjects.perform] at done
    split at done
    · cases done
    · rename_i logger found
      split_ifs at done with inside
      cases done
      have there : s.heap[p]? = some s.heap[p] := List.getElem?_eq_getElem inside
      rw [List.append_nil, owned.adopt_iff there]
      constructor
      · intro same l' p' here other a found' there' own
        cases here
        cases found.symm.trans found'
        cases there.symm.trans there'
        exact same own
      · intro same
        exact same l p rfl logger _ found there
  | inherit p val =>
    simp only [LogObjects.perform] at done
    split_ifs at done
    cases done
    refine iff_of_true ?_ (by simp)
    rw [List.append_nil]
    apply owned.modify
    intro a _ own
    unfold Logger.inherit at own ⊢
    split_ifs at own ⊢ with before
    · exact ⟨before, rfl⟩
    · exact absurd own before
  | setFormatter l val =>
    simp only [LogObjects.perform] at done
    split at done
    · cases done
    · rename_i changed
      split at done
      · cases done
      · cases done
        obtain ⟨_, _, _, rfl⟩ := LogObjects.onLogger_some changed
        exact iff_of_true (by simpa using owned) (by simp)
  | push l p =>
    simp only [LogObjects.perform] at done
    split at done
    · cases done
    · rename_i changed
      cases done
      obtain ⟨_, _, _, rfl⟩ := LogObjects.onLogger_some changed
      exact iff_of_true (by simpa using owned) (by simp)
  | log | route | append | check | printLogger =>
    simp only [LogObjects.perform] at done
    split at done
    · cases done
    · cases done
      exact iff_of_true (by simpa using owned) (by simp)
  | printAll | read =>
    cases done
    exact iff_of_true (by simpa using owned) (by simp)

theorem step_owned_iff [DecidableEq T] {s next : LogThreads T} {turn : Turn T PublicCall}
    {past events : List OwnSet} (owned : Owned s.data.heap past) (taken : s.step turn = some (events, next)) :
    Owned next.data.heap (past ++ events) ↔ Rechecks s turn := by
  rcases LockSystem.step_cases taken with ⟨t, c, held, rfl, thread, rfl, rfl⟩ |
    ⟨t, k, rest, held, rfl, thread, _, rfl, rfl⟩ | ⟨t, k, rest, held, rfl, thread, rfl, rfl⟩ |
    ⟨t, a, rest, held, data, more, rfl, thread, performed, rfl⟩
  · exact iff_of_true (by simpa using owned) trivial
  · exact iff_of_true (by simpa using owned) (by simp [Rechecks, thread])
  · exact iff_of_true (by simpa using owned) (by simp [Rechecks, thread])
  · refine (perform_owned_iff owned performed).trans ?_
    simp only [Rechecks, thread, List.cons.injEq, LockInstr.act.injEq]
    constructor
    · rintro same l p _ ⟨rfl, _⟩
      exact same l p rfl
    · rintro same l p rfl
      exact same l p rest ⟨rfl, rfl⟩

/-- At every point of every interleaving appenders have the formatters set on them,
exactly when each write of `addAppender` finds none, or the one that it writes. -/
theorem owned_iff [DecidableEq T] {turns : List (Turn T PublicCall)} {events : List OwnSet} {s : LogThreads T}
    (ran : run LogThreads.step turns .create = some (events, s)) :
    Always LogThreads.step (fun s past => Owned s.data.heap past) turns .create ↔
      Throughout LogThreads.step Rechecks turns .create := by
  have exactly : ∀ (s : LogThreads T) turn past events next, True → True → Owned s.data.heap past →
      s.step turn = some (events, next) → (Owned next.data.heap (past ++ events) ↔ Rechecks s turn) :=
    fun _ _ _ _ _ _ _ => step_owned_iff
  have start : Owned (LogThreads.create (T := T)).data.heap [] := by
    intro p a there own
    rw [List.mem_singleton.mp (List.mem_of_getElem? there)] at own
    cases own
  exact always_iff_throughout (fun _ _ _ _ _ _ _ => trivial) exactly ran
    (throughout_of_forall (fun _ _ => trivial) turns _) trivial start

def messageFormatter : LogFormatter := LogFormatter.create ['%', 'm']

/-- A formatter set on the root logger's appender. -/
theorem owned_iff_set :
    Always LogThreads.step (fun s past => Owned s.data.heap past)
      [.call 0 (.change (.setOwn 0 (some messageFormatter))), .step 0, .step 0, .step 0]
      (.create : LogThreads Nat) := by
  refine (owned_iff rfl).mpr ?_
  have other {s : LogThreads Nat} (apart : ∀ l p rest, (s.thread 0).code ≠ .act (.adopt l p) :: rest) :
      Rechecks s (.step 0) := fun l p rest ahead => absurd ahead (apart l p rest)
  exact (throughout_cons rfl).mpr ⟨trivial, (throughout_cons rfl).mpr ⟨other (by rintro _ _ _ ⟨⟩),
    (throughout_cons rfl).mpr ⟨other (by rintro _ _ _ ⟨⟩),
      (throughout_cons rfl).mpr ⟨other (by rintro _ _ _ ⟨⟩), trivial⟩⟩⟩⟩

/-- A formatter is set between the two sections of `addAppender` on the same appender. -/
def overtaken : List (Turn Nat PublicCall) :=
  [.call 0 (.change (.newAppender .stdout)), .step 0, .call 0 (.change (.addAppender 0 1)),
    .step 0, .step 0, .step 0, .step 0,
    .call 1 (.change (.setOwn 1 (some messageFormatter))), .step 1, .step 1, .step 1,
    .step 0, .step 0]

theorem owned_fails :
    ∃ events s, run LogThreads.step overtaken .create = some (events, s) ∧ ¬ Owned s.data.heap events := by
  refine ⟨_, _, rfl, ?_⟩
  intro owned
  have same := owned 1 _ rfl rfl
  exact absurd (congrArg (Option.map (Option.map LogFormatter.getPattern)) same) (by decide)

end Sylar
