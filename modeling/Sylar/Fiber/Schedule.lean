import Sylar.Fiber.Machine
import Sylar.Library.Heap
import Sylar.Library.Reach

/-! Schedules of the main fiber over children whose bodies are segments separated by
yields. What such a schedule is to do says an abstract machine that only counts the
calls on each child; the thread simulates it, and no `SYLAR_ASSERT` fails. -/
namespace Sylar

open Library

inductive Yield where
  | hold
  | ready
  deriving DecidableEq, Repr

def Yield.state : Yield → FiberState
  | .hold => .hold
  | .ready => .ready

def Yield.instr : Yield → Instr α F
  | .hold => .yieldToHold
  | .ready => .yieldToReady

/-- A body: segments that end in a yield, and a last one that ends the body. -/
structure Script (α : Type u) where
  yields : List (List α × Yield)
  last : List α
  ending : Ending

namespace Script

variable {α : Type u} {F : Type v}

def instrs (script : Script α) : List (Instr α F) :=
  script.yields.flatMap (fun segment => segment.1.map .act ++ [segment.2.instr]) ++
    script.last.map .act

def callback (script : Script α) : Callback α F := ⟨script.instrs, script.ending⟩

/-- The work of each segment and the state in which it leaves the fiber. -/
def segments (script : Script α) : List (List α × FiberState) :=
  script.yields.map (fun segment => (segment.1, segment.2.state)) ++
    [(script.last, script.ending.state)]

def drop (k : Nat) (script : Script α) : Script α :=
  { script with yields := script.yields.drop k }

/-- The state of a fiber that has run `k` segments. -/
def state (script : Script α) : Nat → FiberState
  | 0 => .init
  | k + 1 =>
    match script.segments[k]? with
    | some segment => segment.2
    | none => .term

/-- The code at which that fiber goes on. -/
def code (script : Script α) (f : Nat) : Nat → Code α F
  | 0 => .entry
  | k + 1 =>
    if k < script.yields.length then .callback f (script.drop (k + 1)).instrs script.ending
    else .neverReach

end Script

/-- A child: its callback, and how often it was called since it was constructed or
last reset. -/
structure Task (F : Type v) where
  cb : F
  swaps : Nat
  deriving DecidableEq, Repr

section Abstract

variable {α : Type u} {F : Type v} (scripts : F → Script α)

def Task.state (task : Task F) : FiberState := (scripts task.cb).state task.swaps

/-- What the main fiber's instructions are to do. `none` marks a call that no schedule
contains. -/
def schedule (tasks : List (Task F)) : Instr α F → Option (List (Option Nat × α) × List (Task F))
  | .act a => some ([(none, a)], tasks)
  | .create cb => some ([], tasks ++ [⟨cb, 0⟩])
  | .swapIn (g + 1) =>
    match tasks[g]? with
    | none => none
    | some task =>
      if task.state scripts = .init ∨ task.state scripts = .hold ∨ task.state scripts = .ready then
        match (scripts task.cb).segments[task.swaps]? with
        | none => none
        | some (work, _) => some (work.map (some (g + 1), ·), tasks.set g ⟨task.cb, task.swaps + 1⟩)
      else none
  | .reset (g + 1) cb =>
    match tasks[g]? with
    | none => none
    | some task =>
      if task.state scripts = .init ∨ task.state scripts = .term ∨ task.state scripts = .except then
        some ([], tasks.set g ⟨cb, 0⟩)
      else none
  | _ => none

/-- The fiber at position `f` that stands for a task. -/
def Task.fiber (f : Nat) (task : Task F) : Fiber α F where
  state := task.state scripts
  ctx := ⟨some f, (scripts task.cb).code f task.swaps⟩
  hasStack := true
  cb := if task.state scripts = .term then none else some task.cb

end Abstract

namespace Script

variable {α : Type u} {F : Type v} {script : Script α}

/-- What is left before a segment that ends in a yield. -/
theorem instrs_drop_yield {k : Nat} {work : List α} {kind : Yield}
    (found : script.yields[k]? = some (work, kind)) :
    (script.drop k).instrs (F := F) =
      work.map .act ++ kind.instr :: (script.drop (k + 1)).instrs := by
  obtain ⟨inside, segment⟩ := List.getElem?_eq_some_iff.mp found
  simp [drop, instrs, List.drop_eq_getElem_cons inside, segment]

/-- What is left before the last segment. -/
theorem instrs_drop_last : (script.drop script.yields.length).instrs (F := F) =
    script.last.map .act := by
  simp [drop, instrs]

theorem segments_yield {k : Nat} {work : List α} {kind : Yield}
    (found : script.yields[k]? = some (work, kind)) :
    script.segments[k]? = some (work, kind.state) := by
  obtain ⟨inside, segment⟩ := List.getElem?_eq_some_iff.mp found
  rw [segments, List.getElem?_append_left (by simpa using inside)]
  simp [found]

theorem segments_last (script : Script α) : script.segments[script.yields.length]? =
    some (script.last, script.ending.state) := by
  simp [segments]

theorem segments_past {k : Nat} (past : script.yields.length < k) : script.segments[k]? = none := by
  simp only [segments, List.getElem?_eq_none_iff, List.length_append, List.length_map,
    List.length_singleton]
  omega

/-- A position in a body: before a segment that ends in a yield, before the last
segment, or behind it. -/
theorem segments_cases (script : Script α) (k : Nat) :
    (∃ work kind, script.yields[k]? = some (work, kind)) ∨ k = script.yields.length ∨
      script.yields.length < k := by
  rcases Nat.lt_trichotomy k script.yields.length with inside | last | past
  · exact .inl ⟨_, _, List.getElem?_eq_getElem inside⟩
  · exact .inr (.inl last)
  · exact .inr (.inr past)

theorem state_succ {k : Nat} {work : List α} {stop : FiberState}
    (found : script.segments[k]? = some (work, stop)) : script.state (k + 1) = stop := by
  simp [state, found]

theorem state_past {k : Nat} (past : script.yields.length < k) : script.state (k + 1) = .term := by
  simp [state, segments_past past]

/-- A fiber that waits has a segment left to run. -/
theorem le_of_waiting {k : Nat}
    (waiting : script.state k = .init ∨ script.state k = .hold ∨ script.state k = .ready) :
    k ≤ script.yields.length := by
  cases k with
  | zero => omega
  | succ k =>
    rcases script.segments_cases k with ⟨work, kind, found⟩ | rfl | past
    · obtain ⟨inside, _⟩ := List.getElem?_eq_some_iff.mp found
      omega
    · rw [state_succ script.segments_last] at waiting
      cases ending : script.ending <;> simp [ending, Ending.state] at waiting
    · simp [state_past past] at waiting

theorem segment_of_waiting (script : Script α) {k : Nat}
    (waiting : script.state k = .init ∨ script.state k = .hold ∨ script.state k = .ready) :
    ∃ work stop, script.segments[k]? = some (work, stop) := by
  have within := le_of_waiting waiting
  rcases script.segments_cases k with ⟨work, kind, found⟩ | rfl | past
  · exact ⟨work, kind.state, segments_yield found⟩
  · exact ⟨_, _, script.segments_last⟩
  · omega

theorem state_ne_exec (script : Script α) (k : Nat) : script.state k ≠ .exec := by
  cases k with
  | zero => simp [state]
  | succ k =>
    rcases script.segments_cases k with ⟨work, kind, found⟩ | rfl | past
    · rw [state_succ (segments_yield found)]
      cases kind <;> simp [Yield.state]
    · rw [state_succ script.segments_last]
      cases script.ending <;> simp [Ending.state]
    · simp [state_past past]

end Script

namespace Thread

variable {α : Type u} {F : Type v} {program : F → Callback α F} {s : Thread α F}
  {main : Fiber α F} {children : List (Fiber α F)}

/-- A run in which no `SYLAR_ASSERT` fails. -/
abbrev Sound (program : F → Callback α F) :=
  Reaches (step program) fun s : Thread α F => s.code ≠ .aborted

theorem Sound.one {next : Thread α F} {events : List (Option Nat × α)}
    (taken : s.step program = some (events, next)) : Sound program s events next := by
  refine Reaches.single ?_ taken
  intro aborted
  simp [step, aborted] at taken

theorem Sound.silent {middle next : Thread α F} {events : List (Option Nat × α)}
    (ran : Sound program s events middle) (taken : middle.step program = some ([], next)) :
    Sound program s events next := by
  have longer := ran.trans (Sound.one taken)
  rwa [List.append_nil] at longer

/-- The child at `g` executes; `rest` is what the main fiber goes on with. -/
structure Inside (main : Fiber α F) (children : List (Fiber α F)) (g : Nat)
    (rest : List (Instr α F)) (s : Thread α F) : Prop where
  fibers : s.fibers = main :: children
  tFiber : s.tFiber = some (g + 1)
  threadFiber : s.tThreadFiber = some 0
  stack : s.stack = some (g + 1)
  saved : main.ctx = ⟨none, .main rest⟩

theorem Inside.goOn {g : Nat} {rest : List (Instr α F)} (inside : Inside main children g rest s)
    (code : Code α F) : Inside main children g rest { s with code := code } :=
  ⟨inside.fibers, inside.tFiber, inside.threadFiber, inside.stack, inside.saved⟩

/-- A child that runs the work of a segment. -/
theorem Inside.works {g cur : Nat} {rest tail : List (Instr α F)} {ending : Ending}
    (inside : Inside main children g rest s) (work : List α)
    (code : s.code = .callback cur (work.map .act ++ tail) ending) :
    Sound program s (work.map (some (g + 1), ·)) { s with code := .callback cur tail ending } := by
  induction work generalizing s with
  | nil =>
    have same : { s with code := .callback cur tail ending } = s := by
      cases s
      cases code
      rfl
    rw [same]
    exact .refl s
  | cons a work ih =>
    have acts : s.step program = some ([(some (g + 1), a)],
        { s with code := .callback cur (work.map .act ++ tail) ending }) := by
      rw [step_callback code, ← inside.stack]
      rfl
    exact (Sound.one acts).trans (ih (inside.goOn _) rfl)

/-- What the thread looks like when a child has left to the main fiber. -/
def left (main : Fiber α F) (children : List (Fiber α F)) (g : Nat) (rest : List (Instr α F))
    (change : Fiber α F → Fiber α F) (s : Thread α F) : Thread α F :=
  { s with
    fibers := main :: children.modify g change
    tFiber := some 0
    stack := none
    code := .main rest }

/-- `swapOut` after a change of the child that executes. -/
theorem Inside.swapOut {g : Nat} {rest : List (Instr α F)} (inside : Inside main children g rest s)
    (change : Fiber α F → Fiber α F) (after : Code α F) :
    { s with fibers := s.fibers.modify (g + 1) change }.swapOut (g + 1) after =
      some (s.left main children g rest fun fiber =>
        { change fiber with ctx := ⟨some (g + 1), after⟩ }) := by
  have fibers : s.fibers.modify (g + 1) change = main :: children.modify g change := by
    rw [inside.fibers, List.modify_succ_cons]
  have out := swapOut_child (s := { s with fibers := s.fibers.modify (g + 1) change }) fibers
    inside.threadFiber g after
  refine out.trans ?_
  simp [left, inside.saved, inside.stack, List.modify_modify_eq, Function.comp_def]

theorem Inside.yieldTo {g : Nat} {rest : List (Instr α F)} (inside : Inside main children g rest s)
    {fiber : Fiber α F} (found : children[g]? = some fiber) (exec : fiber.state = .exec)
    (state : FiberState) (after : Code α F) :
    s.yieldTo state after = some (s.left main children g rest fun fiber =>
      { fiber with state := state, ctx := ⟨some (g + 1), after⟩ }) := by
  have present : s.fibers[g + 1]? = some fiber := by simpa [inside.fibers] using found
  simp only [Thread.yieldTo, getThis_current inside.tFiber, present, exec, if_true]
  exact inside.swapOut _ after

theorem Inside.yields {g : Nat} {rest : List (Instr α F)} (inside : Inside main children g rest s)
    {fiber : Fiber α F} (found : children[g]? = some fiber) (exec : fiber.state = .exec)
    {kind : Yield} {tail : List (Instr α F)} {ending : Ending}
    (code : s.code = .callback (g + 1) (kind.instr :: tail) ending) :
    s.step program = some ([], s.left main children g rest fun fiber =>
      { fiber with state := kind.state, ctx := ⟨some (g + 1), .callback (g + 1) tail ending⟩ }) := by
  have yielded := inside.yieldTo found exec kind.state (.callback (g + 1) tail ending)
  rw [step_callback code]
  cases kind with
  | hold => exact Option.map_eq_some_iff.mpr ⟨_, yielded, rfl⟩
  | ready => exact Option.map_eq_some_iff.mpr ⟨_, yielded, rfl⟩

theorem Inside.finishes {g : Nat} {rest : List (Instr α F)} (inside : Inside main children g rest s)
    {ending : Ending} (code : s.code = .callback (g + 1) [] ending) :
    s.step program = some ([], s.left main children g rest fun fiber =>
      { ended ending fiber with ctx := ⟨some (g + 1), .neverReach⟩ }) := by
  rw [step_finish code]
  cases ending with
  | returns => exact Option.map_eq_some_iff.mpr ⟨_, inside.swapOut _ _, rfl⟩
  | throws => exact Option.map_eq_some_iff.mpr ⟨_, inside.swapOut _ _, rfl⟩

variable {scripts : F → Script α}

/-- The children that stand for a list of tasks. -/
def childrenOf (scripts : F → Script α) (tasks : List (Task F)) : List (Fiber α F) :=
  tasks.mapIdx fun g task => task.fiber scripts (g + 1)

/-- The main fiber executes, with `rest` before it. -/
structure AtMain (scripts : F → Script α) (tasks : List (Task F)) (rest : List (Instr α F))
    (main : Fiber α F) (s : Thread α F) : Prop where
  fibers : s.fibers = main :: childrenOf scripts tasks
  mainExec : main.state = .exec
  tFiber : s.tFiber = some 0
  threadFiber : s.tThreadFiber = some 0
  stack : s.stack = none
  code : s.code = .main rest

theorem getElem?_childrenOf (tasks : List (Task F)) (g : Nat) :
    (childrenOf scripts tasks)[g]? = tasks[g]?.map (Task.fiber scripts (g + 1)) := by
  simp [childrenOf]

theorem childrenOf_found {tasks : List (Task F)} {g : Nat} {task : Task F}
    (found : tasks[g]? = some task) :
    (childrenOf scripts tasks)[g]? = some (task.fiber scripts (g + 1)) := by
  rw [getElem?_childrenOf, found]
  rfl

theorem childrenOf_create (tasks : List (Task F)) (cb : F) :
    childrenOf scripts (tasks ++ [⟨cb, 0⟩]) = childrenOf scripts tasks ++
      [⟨.init, ⟨some (tasks.length + 1), .entry⟩, true, some cb⟩] := by
  simp only [childrenOf, List.mapIdx_concat]
  rfl

/-- A child that changes with its task. -/
theorem childrenOf_set {tasks : List (Task F)} {g : Nat} {task task' : Task F}
    (found : tasks[g]? = some task) {change : Fiber α F → Fiber α F}
    (follows : change (task.fiber scripts (g + 1)) = task'.fiber scripts (g + 1)) :
    childrenOf scripts (tasks.set g task') = (childrenOf scripts tasks).modify g change := by
  apply List.ext_getElem?
  intro i
  rw [List.getElem?_modify, getElem?_childrenOf, getElem?_childrenOf]
  by_cases same : g = i
  · subst same
    obtain ⟨inside, _⟩ := List.getElem?_eq_some_iff.mp found
    simp [List.getElem?_set_self inside, found, ← follows]
  · rw [List.getElem?_set_ne same]
    simp [same]

/-- The first call enters `MainFunc` and its callback; a later one is inside it. -/
theorem Inside.resumes {g k : Nat} {rest : List (Instr α F)} (inside : Inside main children g rest s)
    {fiber : Fiber α F} {cb : F} (found : children[g]? = some fiber) (callback : fiber.cb = some cb)
    (code : s.code = (scripts cb).code (g + 1) k) (within : k ≤ (scripts cb).yields.length) :
    Sound (fun cb => (scripts cb).callback) s []
      { s with code := .callback (g + 1) ((scripts cb).drop k).instrs (scripts cb).ending } := by
  cases k with
  | zero =>
    have present : s.fibers[g + 1]? = some fiber := by simpa [inside.fibers] using found
    refine Sound.one ?_
    rw [step_entry code]
    simp only [enter, getThis_current inside.tFiber, present, callback]
    rfl
  | succ k =>
    have here : s.code = .callback (g + 1) ((scripts cb).drop (k + 1)).instrs (scripts cb).ending := by
      rw [code, Script.code, if_pos (by omega)]
    rw [← here]
    exact .refl s

/-- One segment: the work, then the yield or the end. The child is left as its task is
after one more call. -/
theorem Inside.segment (scripts : F → Script α) {g k : Nat} {rest : List (Instr α F)}
    (inside : Inside main children g rest s) {fiber : Fiber α F} {cb : F}
    (found : children[g]? = some fiber) (exec : fiber.state = .exec)
    (callback : fiber.cb = some cb) (hasStack : fiber.hasStack = true)
    (code : s.code = .callback (g + 1) ((scripts cb).drop k).instrs (scripts cb).ending)
    {work : List α} {stop : FiberState} (segment : (scripts cb).segments[k]? = some (work, stop)) :
    ∃ change, change fiber = Task.fiber scripts (g + 1) ⟨cb, k + 1⟩ ∧
      Sound program s (work.map (some (g + 1), ·)) (s.left main children g rest change) := by
  have state : (scripts cb).state (k + 1) = stop := Script.state_succ segment
  obtain ⟨_, ctx, _, _⟩ := fiber
  cases exec
  cases callback
  cases hasStack
  rcases (scripts cb).segments_cases k with ⟨work', kind, yield⟩ | rfl | past
  · -- a segment that ends in a yield
    cases segment.symm.trans (Script.segments_yield yield)
    rw [Script.instrs_drop_yield yield] at code
    obtain ⟨bound, _⟩ := List.getElem?_eq_some_iff.mp yield
    refine ⟨_, ?_, (inside.works work code).silent ((inside.goOn _).yields found rfl rfl)⟩
    have running : kind.state ≠ .term := by cases kind <;> simp [Yield.state]
    simp [Task.fiber, Task.state, state, Script.code, bound, running]
  · -- the last segment
    cases segment.symm.trans (scripts cb).segments_last
    rw [Script.instrs_drop_last, ← List.append_nil (List.map _ _)] at code
    refine ⟨_, ?_, (inside.works _ code).silent ((inside.goOn _).finishes rfl)⟩
    cases ending : (scripts cb).ending <;>
      simp [Task.fiber, Task.state, state, Script.code, ended, ending, Ending.state]
  · rw [Script.segments_past past] at segment
    cases segment

section Simulation

variable {tasks tasks' : List (Task F)} {task : Task F} {rest : List (Instr α F)} {g : Nat}
  {events : List (Option Nat × α)}

theorem create_atMain (instrs : List (Instr α F)) :
    ∃ main, AtMain scripts [] instrs main (create instrs) :=
  ⟨⟨.exec, ⟨none, .constructed⟩, false, none⟩, rfl, rfl, rfl, rfl, rfl, rfl⟩

/-- A call on a waiting child runs its next segment and comes back. -/
theorem AtMain.call (atMain : AtMain scripts tasks (.swapIn (g + 1) :: rest) main s)
    (found : tasks[g]? = some task)
    (waiting : task.state scripts = .init ∨ task.state scripts = .hold ∨ task.state scripts = .ready)
    {work : List α} {stop : FiberState}
    (segment : (scripts task.cb).segments[task.swaps]? = some (work, stop)) :
    ∃ main' after, Sound (fun cb => (scripts cb).callback) s (work.map (some (g + 1), ·)) after ∧
      AtMain scripts (tasks.set g ⟨task.cb, task.swaps + 1⟩) rest main' after := by
  have present : (childrenOf scripts tasks)[g]? = some _ := childrenOf_found found
  have notExec : (task.fiber scripts (g + 1)).state ≠ .exec :=
    (scripts task.cb).state_ne_exec task.swaps
  have notTerm : task.state scripts ≠ .term := by
    rcases waiting with state | state | state <;> simp [state]
  have callback : (task.fiber scripts (g + 1)).cb = some task.cb := if_neg notTerm
  -- the call saves where the main fiber goes on, and the child's leaving comes back there
  set saved : Fiber α F := { main with ctx := ⟨s.stack, .main rest⟩ }
  set busy := (childrenOf scripts tasks).modify g fun fiber => { fiber with state := .exec }
  set entered : Thread α F := { s with
    fibers := saved :: busy
    tFiber := some (g + 1)
    stack := some (g + 1)
    code := (scripts task.cb).code (g + 1) task.swaps } with isEntered
  have enters : s.step (fun cb => (scripts cb).callback) = some ([], entered) := by
    rw [step_main atMain.code, Thread.exec,
      swapIn_child atMain.fibers atMain.threadFiber present notExec (.main rest)]
    rfl
  have inside : Inside saved busy g rest entered :=
    ⟨rfl, rfl, atMain.threadFiber, rfl, by rw [← atMain.stack]⟩
  have running : busy[g]? = some { task.fiber scripts (g + 1) with state := .exec } := by
    simp [busy, present]
  have resumed := inside.resumes running callback rfl (Script.le_of_waiting waiting)
  obtain ⟨change, follows, ran⟩ :=
    (inside.goOn _).segment scripts running rfl callback rfl rfl segment
  have after : childrenOf scripts (tasks.set g ⟨task.cb, task.swaps + 1⟩) = busy.modify g change := by
    rw [List.modify_modify_eq]
    exact childrenOf_set found follows
  refine ⟨saved, _, (Sound.one enters).trans (resumed.trans ran), ?_, atMain.mainExec, rfl,
    atMain.threadFiber, rfl, rfl⟩
  rw [after]
  rfl

/-- A reset puts the child back before the first segment of its new body. -/
theorem AtMain.reset {cb : F} (atMain : AtMain scripts tasks (.reset (g + 1) cb :: rest) main s)
    (found : tasks[g]? = some task)
    (stopped : task.state scripts = .init ∨ task.state scripts = .term ∨ task.state scripts = .except) :
    ∃ next, s.step (fun cb => (scripts cb).callback) = some ([], next) ∧
      AtMain scripts (tasks.set g ⟨cb, 0⟩) rest main next := by
  have present : s.fibers[g + 1]? = some (task.fiber scripts (g + 1)) := by
    rw [atMain.fibers, List.getElem?_cons_succ]
    exact childrenOf_found found
  have allowed : (task.fiber scripts (g + 1)).hasStack ∧
      ((task.fiber scripts (g + 1)).state = .term ∨ (task.fiber scripts (g + 1)).state = .except ∨
        (task.fiber scripts (g + 1)).state = .init) := by
    refine ⟨rfl, ?_⟩
    rcases stopped with state | state | state
    · exact .inr (.inr state)
    · exact .inl state
    · exact .inr (.inl state)
  set renewed : Fiber α F → Fiber α F := fun fiber =>
    { fiber with state := .init, cb := some cb, ctx := ⟨some (g + 1), .entry⟩ }
  have after : childrenOf scripts (tasks.set g ⟨cb, 0⟩) = (childrenOf scripts tasks).modify g renewed :=
    childrenOf_set found rfl
  refine ⟨{ s with fibers := s.fibers.modify (g + 1) renewed, code := .main rest }, ?_, ?_,
    atMain.mainExec, atMain.tFiber, atMain.threadFiber, atMain.stack, rfl⟩
  · rw [step_main atMain.code]
    simp only [Thread.exec, Thread.reset, present, if_pos allowed, Option.map_some]
    rfl
  · rw [after, atMain.fibers]
    rfl

/-- The thread simulates one instruction of a schedule. -/
theorem AtMain.matched {instr : Instr α F} (atMain : AtMain scripts tasks (instr :: rest) main s)
    (scheduled : schedule scripts tasks instr = some (events, tasks')) :
    ∃ main' after, Sound (fun cb => (scripts cb).callback) s events after ∧
      AtMain scripts tasks' rest main' after := by
  unfold schedule at scheduled
  split at scheduled
  · rename_i a
    cases scheduled
    have acts : s.step (fun cb => (scripts cb).callback) =
        some ([(none, a)], { s with code := .main rest }) := by
      rw [step_main atMain.code, ← atMain.stack]
      rfl
    exact ⟨main, _, Sound.one acts, atMain.fibers, atMain.mainExec, atMain.tFiber, atMain.threadFiber,
      atMain.stack, rfl⟩
  · rename_i cb
    cases scheduled
    have makes : s.step (fun cb => (scripts cb).callback) = some ([], s.construct cb (.main rest)) := by
      rw [step_main atMain.code]
      rfl
    refine ⟨main, _, Sound.one makes, ?_, atMain.mainExec, atMain.tFiber, atMain.threadFiber,
      atMain.stack, rfl⟩
    rw [childrenOf_create]
    simp [construct, atMain.fibers, childrenOf]
  · split at scheduled
    · cases scheduled
    · rename_i task found
      split at scheduled
      · rename_i waiting
        split at scheduled
        · cases scheduled
        · rename_i segment
          cases scheduled
          exact atMain.call found waiting segment
      · cases scheduled
  · split at scheduled
    · cases scheduled
    · rename_i task found
      split at scheduled
      · rename_i stopped
        cases scheduled
        obtain ⟨next, resets, still⟩ := atMain.reset found stopped
        exact ⟨main, next, Sound.one resets, still⟩
      · cases scheduled
  · cases scheduled

theorem AtMain.states (atMain : AtMain scripts tasks rest main s) :
    ∃ children, s.fibers = main :: children ∧ children = childrenOf scripts tasks ∧
      children.map Fiber.state = tasks.map (Task.state scripts) := by
  refine ⟨_, atMain.fibers, rfl, ?_⟩
  apply List.ext_getElem?
  intro i
  rw [List.getElem?_map, getElem?_childrenOf, List.getElem?_map, Option.map_map]
  rfl

/-- The relation of the simulation: the schedule's tasks and the rest of its calls. -/
def Stands (scripts : F → Script α) (tasks : List (Task F)) (rest : List (Instr α F))
    (s : Thread α F) : Prop :=
  ∃ main, AtMain scripts tasks rest main s

theorem Stands.matched {instr : Instr α F} (stands : Stands scripts tasks (instr :: rest) s)
    (scheduled : schedule scripts tasks instr = some (events, tasks')) :
    ∃ after, Sound (fun cb => (scripts cb).callback) s events after ∧ Stands scripts tasks' rest after := by
  obtain ⟨main, atMain⟩ := stands
  obtain ⟨main', after, ran, still⟩ := atMain.matched scheduled
  exact ⟨after, ran, main', still⟩

/-- A whole schedule: the thread gets to its end. -/
theorem simulates_schedule (scripts : F → Script α) (front rest : List (Instr α F))
    (scheduled : run (schedule scripts) front [] = some (events, tasks)) :
    ∃ s, Sound (fun cb => (scripts cb).callback) (create (front ++ rest)) events s ∧
      Stands scripts tasks rest s :=
  Reaches.simulate (fun _ _ _ _ _ _ stands scheduled => stands.matched scheduled)
    (create_atMain (front ++ rest)) scheduled

/-- Before every call on a waiting child the thread is at that call, and no child has a
state other than its task's. The call runs exactly the next segment of the child's
body and comes back to the main fiber, with only that child changed. -/
theorem fiber_schedule (scripts : F → Script α) (front rest : List (Instr α F))
    (scheduled : run (schedule scripts) front [] = some (events, tasks))
    (found : tasks[g]? = some task)
    (waiting : task.state scripts = .init ∨ task.state scripts = .hold ∨ task.state scripts = .ready) :
    ∃ before after main main' children children' work stop,
      Sound (fun cb => (scripts cb).callback) (create (front ++ .swapIn (g + 1) :: rest)) events before ∧
      before.code = .main (.swapIn (g + 1) :: rest) ∧ before.stack = none ∧
      before.fibers = main :: children ∧
      children.map Fiber.state = tasks.map (Task.state scripts) ∧
      (scripts task.cb).segments[task.swaps]? = some (work, stop) ∧
      Sound (fun cb => (scripts cb).callback) before (work.map (some (g + 1), ·)) after ∧
      after.code = .main rest ∧ after.stack = none ∧ after.tFiber = some 0 ∧
      after.tThreadFiber = some 0 ∧ after.fibers = main' :: children' ∧ main'.state = .exec ∧
      (∀ child ∈ children', child.state ≠ .exec) ∧
      (∃ child, children'[g]? = some child ∧ child.state = stop) ∧
      ∀ i, i ≠ g → children'[i]? = children[i]? := by
  obtain ⟨before, reached, main, atCall⟩ :=
    simulates_schedule scripts front (.swapIn (g + 1) :: rest) scheduled
  obtain ⟨work, stop, segment⟩ := (scripts task.cb).segment_of_waiting waiting
  obtain ⟨main', after, ran, atAfter⟩ := atCall.call found waiting segment
  obtain ⟨children, fibers, same, states⟩ := atCall.states
  obtain ⟨children', fibers', same', _⟩ := atAfter.states
  obtain ⟨inside, _⟩ := List.getElem?_eq_some_iff.mp found
  refine ⟨before, after, main, main', children, children', work, stop, reached, atCall.code,
    atCall.stack, fibers, states, segment, ran, atAfter.code, atAfter.stack, atAfter.tFiber,
    atAfter.threadFiber, fibers', atAfter.mainExec, ?_, ?_, ?_⟩
  · intro child member
    obtain ⟨i, at_i⟩ := List.mem_iff_getElem?.mp member
    rw [same', getElem?_childrenOf] at at_i
    obtain ⟨task, _, rfl⟩ := Option.map_eq_some_iff.mp at_i
    exact (scripts task.cb).state_ne_exec task.swaps
  · refine ⟨_, by rw [same', childrenOf_found (List.getElem?_set_self inside)], ?_⟩
    exact Script.state_succ segment
  · intro i other
    rw [same, same', getElem?_childrenOf, getElem?_childrenOf, List.getElem?_set_ne (Ne.symm other)]

/-- A body with one yield. -/
def onceYielding : Unit → Script Nat := fun _ => ⟨[([1], .hold)], [2, 3], .returns⟩

/-- The second call runs the second segment. -/
theorem fiber_schedule_once :
    ∃ before after children', Sound (fun cb => (onceYielding cb).callback)
        (create [.create (), .swapIn 1, .swapIn 1, .act 0]) [(some 1, 1)] before ∧
      Sound (fun cb => (onceYielding cb).callback) before [(some 1, 2), (some 1, 3)] after ∧
      after.code = .main [.act 0] ∧ (∃ main, after.fibers = main :: children') ∧
      ∃ child, children'[0]? = some child ∧ child.state = .term := by
  have scheduled : run (schedule onceYielding) [.create (), .swapIn 1] [] =
      some ([(some 1, 1)], [⟨(), 1⟩]) := rfl
  have found : ([⟨(), 1⟩] : List (Task Unit))[0]? = some ⟨(), 1⟩ := rfl
  obtain ⟨before, after, _, main', _, children', work, stop, reached, _, _, _, _, segment, ran, code, _,
    _, _, fibers, _, _, child, _⟩ :=
    fiber_schedule onceYielding [.create (), .swapIn 1] [.act 0] scheduled found (.inr (.inl rfl))
  cases segment
  exact ⟨before, after, children', reached, ran, code, ⟨main', fibers⟩, child⟩

end Simulation

end Thread

end Sylar
