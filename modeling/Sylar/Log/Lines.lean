import Sylar.Library.Sections
import Sylar.Log.File

/-! What many threads write through appenders, operation by operation. The items of a line
are given to the stream one at a time, under the appender's spinlock; between two of them
any other thread may run. -/
namespace Sylar

open Library

/-- The critical sections on one appender: its public calls, and those that
`Logger::setFormatter` and `Logger::addAppender` have on it. -/
inductive AppenderCall where
  | log (p : Nat) (level : LogLevel) (event : LogEvent)
  | setFormatter (p : Nat) (val : Option LogFormatter)
  | getFormatter (p : Nat)
  | reopen (p : Nat) (opened : Bool)
  | inherit (p : Nat) (val : Option LogFormatter)
  | assign (p : Nat) (val : Option LogFormatter)

def AppenderCall.appender : AppenderCall → Nat
  | .log p _ _ | .setFormatter p _ | .getFormatter p | .reopen p _ | .inherit p _ | .assign p _ => p

/-- What becomes of the members of the appender. -/
def AppenderCall.change : AppenderCall → LogAppender → LogAppender
  | .setFormatter _ val, appender => appender.setFormatter val
  | .inherit _ val, appender => Logger.inherit val appender
  | .assign _ val, appender => { appender with formatter := val }
  | .log _ _ _, appender | .getFormatter _, appender | .reopen _ _, appender => appender

/-- What the lock of an appender protects: its members, and all that its stream was given. -/
structure AppenderData where
  appender : LogAppender
  ops : List FileOp

/-- A section, with what it found at its begin. -/
structure Served where
  call : AppenderCall
  found : LogAppender
  failed : Bool

/-- What a section gives to the stream: a whole line, a close and an open, or nothing. -/
def Served.ops (clock : Clock) (served : Served) : List FileOp :=
  match served.call, served.found.formatter, served.found.sink with
  | .log p level event, some formatter, _ => formatter.formatTo p clock level event
  | .reopen p opened, _, .file filename => (if served.failed then [] else [.close p]) ++ [.open p filename opened]
  | _, _, _ => []

/-- A null formatter is dereferenced; only a file can be opened again. -/
def Served.sound (served : Served) : Bool :=
  match served.call with
  | .log _ _ _ => served.found.formatter.isSome
  | .reopen _ _ => served.found.sink ≠ .stdout
  | _ => true

/-- The begin of a section; the stream has an error if its own operations say so. -/
def AppenderData.serve (d : AppenderData) (call : AppenderCall) : Served :=
  ⟨call, d.appender, ((LogFiles.after d.ops (Files.initial fun _ => [])).stream call.appender).failed⟩

/-- A thread: the calls it is in and after that, the operations of the current section that
are still to come, and the calls it has made. -/
structure AppenderThread where
  todo : List AppenderCall
  writing : Option (List FileOp)
  done : List AppenderCall

namespace AppenderThread

/-- `level >= m_level` is looked at before the lock. -/
def admitted (levels : Nat → LogLevel) : AppenderCall → Bool
  | .log p level _ => levels p ≤ level
  | _ => true

def create (levels : Nat → LogLevel) (calls : List AppenderCall) : AppenderThread :=
  ⟨calls.filter (admitted levels), none, []⟩

def wants (l : AppenderThread) : Option (Nat × Access) :=
  match l.todo, l.writing with
  | call :: _, none => some (call.appender, .exclusive)
  | _, _ => none

def write (clock : Clock) (l : AppenderThread) (d : AppenderData) :
    Option (List Served × AppenderData × AppenderThread) :=
  match l.todo, l.writing with
  | call :: _, none =>
    if (d.serve call).sound then
      some ([d.serve call], { d with appender := call.change d.appender },
        { l with writing := some ((d.serve call).ops clock) })
    else none
  | _, some (op :: rest) => some ([], { d with ops := d.ops ++ [op] }, { l with writing := some rest })
  | _, _ => none

def exit (l : AppenderThread) : Option AppenderThread :=
  match l.todo, l.writing with
  | call :: rest, some [] => some ⟨rest, none, l.done ++ [call]⟩
  | _, _ => none

/-- The locks of appenders are spinlocks. -/
def code (clock : Clock) : Sections Nat AppenderData AppenderThread Served where
  wants := wants
  read _ _ := none
  write := write clock
  exit := exit

/-- What a section does as a whole. -/
def effect (clock : Clock) (_ : Access) (l : AppenderThread) (d : AppenderData) :
    Option (List Served × AppenderData × AppenderThread) :=
  match l.todo, l.writing with
  | call :: rest, none =>
    if (d.serve call).sound then
      some ([d.serve call], ⟨call.change d.appender, d.ops ++ (d.serve call).ops clock⟩,
        ⟨rest, none, l.done ++ [call]⟩)
    else none
  | _, _ => none

variable {clock : Clock} {l l₁ l₂ : AppenderThread} {d d₁ d₂ : AppenderData} {past events : List Served}
  {p : Nat} {access : Access}

theorem wants_cases (wants : l.wants = some (p, access)) :
    ∃ call rest, l.todo = call :: rest ∧ l.writing = none ∧ call.appender = p ∧ access = .exclusive := by
  simp only [AppenderThread.wants] at wants
  split at wants
  · rename_i call rest todo outside
    cases wants
    exact ⟨call, rest, todo, outside, rfl, rfl⟩
  · cases wants

/-- How far a section has come since it began with `l` and `d`. -/
inductive Stage (clock : Clock) (l : AppenderThread) (d : AppenderData) :
    List Served → AppenderData → AppenderThread → Prop
  | begins : Stage clock l d [] d l
  | writing {call : AppenderCall} {rest : List AppenderCall} {front back : List FileOp} (todo : l.todo = call :: rest)
      (outside : l.writing = none) (sound : (d.serve call).sound = true)
      (split : (d.serve call).ops clock = front ++ back) :
      Stage clock l d [d.serve call] ⟨call.change d.appender, d.ops ++ front⟩ { l with writing := some back }

theorem Stage.step (wants : l.wants = some (p, access)) (stage : Stage clock l d past d₁ l₁)
    (taken : write clock l₁ d₁ = some (events, d₂, l₂)) : Stage clock l d (past ++ events) d₂ l₂ := by
  cases stage with
  | begins =>
    obtain ⟨call, rest, todo, outside, _⟩ := wants_cases wants
    simp only [write, todo, outside] at taken
    split at taken
    · rename_i sound
      simp only [Option.some.injEq, Prod.mk.injEq] at taken
      obtain ⟨rfl, rfl, rfl⟩ := taken
      have stage : Stage clock l d [d.serve call] ⟨call.change d.appender, d.ops ++ []⟩
          { l with writing := some ((d.serve call).ops clock) } := .writing todo outside sound rfl
      rw [todo, List.append_nil] at stage
      exact stage
    · cases taken
  | @writing call rest front back todo outside sound split =>
    cases back with
    | nil => simp [write, todo] at taken
    | cons op back =>
      simp only [write, todo, Option.some.injEq, Prod.mk.injEq] at taken
      obtain ⟨rfl, rfl, rfl⟩ := taken
      have stage : Stage clock l d [d.serve call] ⟨call.change d.appender, d.ops ++ (front ++ [op])⟩
          { l with writing := some back } := .writing todo outside sound (by simpa using split)
      rw [todo] at stage
      simpa using stage

theorem stage_of_inside (wants : l.wants = some (p, access)) (ran : (code clock).Inside access l d past d₁ l₁) :
    Stage clock l d past d₁ l₁ := by
  refine ran.invariant (Stage clock l d) (fun past d₁ l₁ events d₂ l₂ stage taken => ?_) .begins
  cases access with
  | shared => simp [Sections.body, code] at taken
  | exclusive => exact stage.step wants taken

/-- The stream was given a part of what the section gives it. -/
theorem Stage.part (stage : Stage clock l d past d₁ l₁) :
    d₁.ops = d.ops ∨
      ∃ served part rest, past = [served] ∧ served.ops clock = part ++ rest ∧ d₁.ops = d.ops ++ part := by
  cases stage with
  | begins => exact .inl rfl
  | writing todo outside sound split => exact .inr ⟨_, _, _, rfl, split, rfl⟩

theorem Stage.calls (stage : Stage clock l d past d₁ l₁) : l₁.todo = l.todo ∧ l₁.done = l.done := by
  cases stage with
  | begins | writing => exact ⟨rfl, rfl⟩

/-- A section on an appender does what it does as a whole. -/
theorem meets (clock : Clock) : (code clock).Meets (effect clock) := by
  intro p access l d events d' l' after wants ran left
  cases stage_of_inside wants ran with
  | begins =>
    obtain ⟨call, rest, todo, outside, _⟩ := wants_cases wants
    simp [code, exit, todo, outside] at left
  | @writing call rest front back todo outside sound split =>
    cases back with
    | cons op back => simp [code, exit, todo] at left
    | nil =>
      simp only [code, exit, todo, Option.some.injEq] at left
      subst left
      rw [List.append_nil] at split
      simp [effect, todo, outside, sound, split]

end AppenderThread

/-- The appenders and the threads that use them. -/
abbrev AppenderThreads (I : Type) := Contended I Nat AppenderData AppenderThread

namespace AppenderThreads

variable {I : Type}

def create (data : Nat → AppenderData) (calls : I → List AppenderCall) : AppenderThreads I :=
  .start data fun t => .create (fun p => (data p).appender.level) (calls t)

/-- What a section gives to the stream of the appender `p`. -/
def writtenTo (clock : Clock) (p : Nat) (event : I × Served) : List FileOp :=
  if event.2.call.appender = p then event.2.ops clock else []

/-- The members of the appender `p` after some sections. -/
def membersAfter (p : Nat) (order : List (I × Served)) (initial : LogAppender) : LogAppender :=
  order.foldl (fun appender event => if event.2.call.appender = p then event.2.call.change appender else appender)
    initial

theorem membersAfter_concat (p : Nat) (order : List (I × Served)) (event : I × Served) (initial : LogAppender) :
    membersAfter p (order ++ [event]) initial =
      if event.2.call.appender = p then event.2.call.change (membersAfter p order initial)
      else membersAfter p order initial := by
  simp [membersAfter]

variable [DecidableEq I]

abbrev step (clock : Clock) : AppenderThreads I → Move I → Option (List (I × Served) × AppenderThreads I) :=
  Contended.step (AppenderThread.code clock)

/-- What whole sections, one after the other, have done. -/
structure Ordered (clock : Clock) (data : Nat → AppenderData) (calls : I → List AppenderCall)
    (a : Atomic I Nat AppenderData AppenderThread) (order : List (I × Served)) : Prop where
  ops : ∀ p, (a.data p).ops = (data p).ops ++ order.flatMap (writtenTo clock p)
  members : ∀ p, (a.data p).appender = membersAfter p order (data p).appender
  found : ∀ front t served back, order = front ++ (t, served) :: back →
    served.found = membersAfter served.call.appender front (data served.call.appender).appender
  served : ∀ t, (own t order).map Served.call = (a.thread t).done
  made : ∀ t, (a.thread t).done ++ (a.thread t).todo =
    (calls t).filter (AppenderThread.admitted fun p => (data p).appender.level)

variable {clock : Clock} {data : Nat → AppenderData} {calls : I → List AppenderCall}
  {a next : Atomic I Nat AppenderData AppenderThread} {order events : List (I × Served)}

/-- A whole section serves the first call of its thread. -/
theorem stepWhole_cases {t : I}
    (taken : a.step (AppenderThread.code clock) (AppenderThread.effect clock) t = some (events, next)) :
    ∃ call rest, (a.thread t).todo = call :: rest ∧ events = [(t, (a.data call.appender).serve call)] ∧
      next = ⟨Function.update a.data call.appender ⟨call.change (a.data call.appender).appender,
          (a.data call.appender).ops ++ ((a.data call.appender).serve call).ops clock⟩,
        Function.update a.thread t ⟨rest, none, (a.thread t).done ++ [call]⟩⟩ := by
  simp only [Atomic.step] at taken
  split at taken
  · rename_i p access wants
    obtain ⟨call, rest, todo, outside, rfl, _⟩ := AppenderThread.wants_cases wants
    simp only [AppenderThread.effect, todo, outside] at taken
    split at taken
    · rename_i whole
      split at whole
      · simp only [Option.some.injEq, Prod.mk.injEq] at whole taken
        obtain ⟨rfl, rfl, rfl⟩ := whole
        obtain ⟨rfl, rfl⟩ := taken
        exact ⟨call, rest, todo, rfl, rfl⟩
      · cases whole
    · cases taken
  · cases taken

theorem Ordered.step (ordered : Ordered clock data calls a order) {t : I}
    (taken : a.step (AppenderThread.code clock) (AppenderThread.effect clock) t = some (events, next)) :
    Ordered clock data calls next (order ++ events) := by
  obtain ⟨call, rest, todo, rfl, rfl⟩ := stepWhole_cases taken
  refine ⟨?_, ?_, ?_, ?_, ?_⟩
  · intro p
    by_cases here : call.appender = p
    · subst here
      simp [ordered.ops, writtenTo, AppenderData.serve]
    · simp [ordered.ops, writtenTo, AppenderData.serve, Function.update_of_ne (Ne.symm here), here]
  · intro p
    rw [membersAfter_concat]
    by_cases here : call.appender = p
    · subst here
      simp [ordered.members, AppenderData.serve]
    · simp [ordered.members, AppenderData.serve, Function.update_of_ne (Ne.symm here), here]
  · intro front u served back split
    rcases List.eq_nil_or_concat back with rfl | ⟨before, last, rfl⟩
    · have ends := List.append_inj' split rfl
      obtain ⟨rfl, same⟩ := ends
      cases same
      exact ordered.members call.appender
    · have ends : order = front ++ (u, served) :: before := by
        have whole : order ++ [(t, (a.data call.appender).serve call)] = (front ++ (u, served) :: before) ++ [last] := by
          simpa using split
        exact (List.append_inj' whole rfl).1
      exact ordered.found front u served before ends
  · intro u
    by_cases self : u = t
    · subst self
      simp [ordered.served, AppenderData.serve]
    · simp [ordered.served, Function.update_of_ne self, Ne.symm self]
  · intro u
    by_cases self : u = t
    · subst self
      simp [← ordered.made, todo]
    · simp [ordered.made, Function.update_of_ne self]

theorem Ordered.run {turns : List I}
    (ran : run (Atomic.step (AppenderThread.code clock) (AppenderThread.effect clock)) turns
      ⟨data, fun t => .create (fun p => (data p).appender.level) (calls t)⟩ = some (events, a)) :
    Ordered clock data calls a events := by
  have start : Ordered clock data calls
      ⟨data, fun t => .create (fun p => (data p).appender.level) (calls t)⟩ [] :=
    ⟨fun p => by simp, fun p => rfl, fun front t served back split => by simp at split, fun t => rfl, fun t => rfl⟩
  exact run_history (Ordered clock data calls) (fun _ _ _ _ _ ordered taken => ordered.step taken) ran start

/-- A run is one whole section after the other, and at each appender a first part of one
more. -/
theorem run_ordered {moves : List (Move I)} {events : List (I × Served)} {s : AppenderThreads I}
    (ran : Library.run (step clock) moves (create data calls) = some (events, s)) :
    ∃ a order, Ordered clock data calls a order ∧
      (∀ p, (s.data p).ops = (a.data p).ops ∨
        ∃ t served part rest, s.inside t = some (p, .exclusive) ∧ own t events = own t order ++ [served] ∧
          served.ops clock = part ++ rest ∧ (s.data p).ops = (a.data p).ops ++ part) ∧
      ∀ t, (s.thread t).todo = (a.thread t).todo ∧ (s.thread t).done = (a.thread t).done := by
  obtain ⟨a, pending, order, atomic, refines, emitted⟩ :=
    (refines_start (AppenderThread.code clock) data
      fun t => .create (fun p => (data p).appender.level) (calls t)).run (AppenderThread.meets clock) ran
  refine ⟨a, order, .run atomic, ?_, ?_⟩
  · intro p
    by_cases free : ∀ t, s.inside t ≠ some (p, .exclusive)
    · exact .inl (congrArg AppenderData.ops (refines.data p free))
    · obtain ⟨t, inside⟩ := not_forall_not.mp free
      obtain ⟨wants, within⟩ := refines.inside t p .exclusive inside
      rcases (AppenderThread.stage_of_inside wants within).part with same | ⟨served, part, rest, now, split, same⟩
      · exact .inl same
      · refine .inr ⟨t, served, part, rest, inside, ?_, split, same⟩
        rw [← now]
        exact emitted t
  · intro t
    -- a section leaves the lists of calls alone until it is over
    cases inside : s.inside t with
    | none =>
      rw [(refines.outside t inside).1]
      exact ⟨rfl, rfl⟩
    | some within =>
      obtain ⟨wants, ran⟩ := refines.inside t within.1 within.2 inside
      exact (AppenderThread.stage_of_inside wants ran).calls

/-- Two threads log a line each through one file appender. -/
def twoWriters : AppenderThreads Bool :=
  create (fun _ => ⟨⟨.file ['f'], .debug, true, some (LogFormatter.create ['%', 'm', '%', 'n'])⟩, []⟩)
    fun t => [.log 0 .info (FileSystem.message (if t then ['a'] else ['b']))]

/-- The first line is complete, and the second one has its text but not its end. -/
def twoWritersMoves : List (Move Bool) :=
  [.enter true, .work true, .work true, .work true, .work true, .leave true, .enter false, .work false, .work false]

end AppenderThreads

end Sylar
