import Mathlib.Data.List.Basic

/-! `Fiber` on one thread, as a machine whose state holds the thread-local pointers,
the fibers with their saved contexts, and what executes: a stack and the code left on
it. A context is the stack and the code that `swapcontext` found. One step is one
instruction of a callback or of the thread's own function, with all that `Fiber` does
for it. Fibers are never destroyed here, and a pointer to one is its position. -/
namespace Sylar

/-- `Fiber::State` -/
inductive FiberState where
  | init
  | hold
  | exec
  | term
  | ready
  | except
  deriving DecidableEq, Repr

/-- What code does: its own work `act`, and calls on fibers. `F` names callbacks;
`swapOut` is called on the current fiber. -/
inductive Instr (α : Type u) (F : Type v) where
  | act (a : α)
  | yieldToHold
  | yieldToReady
  | swapOut
  | swapIn (f : Nat)
  | reset (f : Nat) (cb : F)
  | create (cb : F)
  deriving DecidableEq, Repr

inductive Ending where
  | returns
  | throws
  deriving DecidableEq, Repr

def Ending.state : Ending → FiberState
  | .returns => .term
  | .throws => .except

/-- The callable behind a `std::function<void()>`. -/
structure Callback (α : Type u) (F : Type v) where
  instrs : List (Instr α F)
  ending : Ending

/-- The code left on a stack. `callback` stands inside `cur->m_cb()` in `MainFunc`,
`neverReach` behind its last `swapOut`. -/
inductive Code (α : Type u) (F : Type v) where
  | main (rest : List (Instr α F))
  | constructed
  | entry
  | callback (cur : Nat) (rest : List (Instr α F)) (ending : Ending)
  | neverReach
  | aborted
  deriving DecidableEq, Repr

/-- `ucontext_t`: `none` is the thread's own stack, `some f` the `m_stack` of a fiber. -/
structure Context (α : Type u) (F : Type v) where
  stack : Option Nat
  code : Code α F
  deriving DecidableEq, Repr

structure Fiber (α : Type u) (F : Type v) where
  state : FiberState
  ctx : Context α F
  hasStack : Bool
  cb : Option F
  deriving DecidableEq, Repr

structure Thread (α : Type u) (F : Type v) where
  fibers : List (Fiber α F)
  tFiber : Option Nat
  tThreadFiber : Option Nat
  stack : Option Nat
  code : Code α F
  deriving DecidableEq, Repr

namespace Thread

variable {α : Type u} {F : Type v}

/-- A failed `SYLAR_ASSERT`. -/
def abort (s : Thread α F) : Thread α F := { s with code := .aborted }

def setState (f : Nat) (state : FiberState) (s : Thread α F) : Thread α F :=
  { s with fibers := s.fibers.modify f fun fiber => { fiber with state := state } }

/-- `GetThis`: without a current fiber it constructs the main fiber. -/
def getThis (s : Thread α F) : Nat × Thread α F :=
  match s.tFiber with
  | some f => (f, s)
  | none =>
    let f := s.fibers.length
    (f, { s with
      fibers := s.fibers ++ [⟨.exec, ⟨s.stack, .constructed⟩, false, none⟩]
      tFiber := some f
      tThreadFiber := some f })

/-- `swapcontext(&oucp->m_ctx, &ucp->m_ctx)`: saves, then loads. -/
def swapContext (oucp ucp : Nat) (after : Code α F) (s : Thread α F) : Option (Thread α F) :=
  let saved := { s with
    fibers := s.fibers.modify oucp fun fiber => { fiber with ctx := ⟨s.stack, after⟩ } }
  match saved.fibers[ucp]? with
  | none => none
  | some fiber => some { saved with stack := fiber.ctx.stack, code := fiber.ctx.code }

def swapIn (f : Nat) (after : Code α F) (s : Thread α F) : Option (Thread α F) :=
  match s.fibers[f]?, s.tThreadFiber with
  | some fiber, some main =>
    let s := { s with tFiber := some f }
    if fiber.state = .exec then some s.abort
    else (s.setState f .exec).swapContext main f after
  | _, _ => none

def swapOut (f : Nat) (after : Code α F) (s : Thread α F) : Option (Thread α F) :=
  match s.tThreadFiber with
  | none => none
  | some main => { s with tFiber := some main }.swapContext f main after

/-- `YieldToHold` and `YieldToReady`. -/
def yieldTo (state : FiberState) (after : Code α F) (s : Thread α F) : Option (Thread α F) :=
  let (cur, s) := s.getThis
  match s.fibers[cur]? with
  | none => none
  | some fiber =>
    if fiber.state = .exec then (s.setState cur state).swapOut cur after else some s.abort

def reset (f : Nat) (cb : F) (after : Code α F) (s : Thread α F) : Option (Thread α F) :=
  match s.fibers[f]? with
  | none => none
  | some fiber =>
    if fiber.hasStack ∧ (fiber.state = .term ∨ fiber.state = .except ∨ fiber.state = .init) then
      some { s with
        fibers := s.fibers.modify f fun fiber =>
          { fiber with state := .init, cb := some cb, ctx := ⟨some f, .entry⟩ }
        code := after }
    else some s.abort

/-- `Fiber::Fiber(cb)` -/
def construct (cb : F) (after : Code α F) (s : Thread α F) : Thread α F :=
  { s with
    fibers := s.fibers ++ [⟨.init, ⟨some s.fibers.length, .entry⟩, true, some cb⟩]
    code := after }

/-- One instruction; the event of an `act` names the stack it runs on. -/
def exec (instr : Instr α F) (after : Code α F) (s : Thread α F) :
    Option (List (Option Nat × α) × Thread α F) :=
  match instr with
  | .act a => some ([(s.stack, a)], { s with code := after })
  | .yieldToHold => (s.yieldTo .hold after).map ([], ·)
  | .yieldToReady => (s.yieldTo .ready after).map ([], ·)
  | .swapOut => (s.getThis.2.swapOut s.getThis.1 after).map ([], ·)
  | .swapIn f => (s.swapIn f after).map ([], ·)
  | .reset f cb => (s.reset f cb after).map ([], ·)
  | .create cb => some ([], s.construct cb after)

/-- The state and the callback with which `MainFunc` leaves. -/
def ended (ending : Ending) (fiber : Fiber α F) : Fiber α F :=
  match ending with
  | .returns => { fiber with cb := none, state := .term }
  | .throws => { fiber with state := .except }

/-- The end of `MainFunc`, after the callback. -/
def finish (cur : Nat) (ending : Ending) (s : Thread α F) : Option (Thread α F) :=
  match ending with
  | .returns =>
    { s with fibers := s.fibers.modify cur fun fiber => { fiber with cb := none, state := .term } }.swapOut
      cur .neverReach
  | .throws => (s.setState cur .except).swapOut cur .neverReach

theorem finish_eq (cur : Nat) (ending : Ending) (s : Thread α F) :
    s.finish cur ending =
      { s with fibers := s.fibers.modify cur (ended ending) }.swapOut cur .neverReach := by
  cases ending <;> rfl

/-- The begin of `MainFunc`; a call of an empty `m_cb` throws. -/
def enter (program : F → Callback α F) (s : Thread α F) : Option (Thread α F) :=
  let (cur, s) := s.getThis
  match s.fibers[cur]? with
  | none => none
  | some fiber =>
    match fiber.cb with
    | some cb => some { s with code := .callback cur (program cb).instrs (program cb).ending }
    | none => some { s with code := .callback cur [] .throws }

def step (program : F → Callback α F) (s : Thread α F) :
    Option (List (Option Nat × α) × Thread α F) :=
  match s.code with
  | .main (instr :: rest) => s.exec instr (.main rest)
  | .entry => (s.enter program).map ([], ·)
  | .callback cur (instr :: rest) ending => s.exec instr (.callback cur rest ending)
  | .callback cur [] ending => (s.finish cur ending).map ([], ·)
  | .neverReach => some ([], s.abort)
  | .main [] | .constructed | .aborted => none

theorem step_main {program : F → Callback α F} {s : Thread α F} {instr : Instr α F}
    {rest : List (Instr α F)} (code : s.code = .main (instr :: rest)) :
    s.step program = s.exec instr (.main rest) := by
  simp only [step, code]

theorem step_entry {program : F → Callback α F} {s : Thread α F} (code : s.code = .entry) :
    s.step program = (s.enter program).map ([], ·) := by
  simp only [step, code]

theorem step_callback {program : F → Callback α F} {s : Thread α F} {cur : Nat} {instr : Instr α F}
    {rest : List (Instr α F)} {ending : Ending} (code : s.code = .callback cur (instr :: rest) ending) :
    s.step program = s.exec instr (.callback cur rest ending) := by
  simp only [step, code]

theorem step_finish {program : F → Callback α F} {s : Thread α F} {cur : Nat} {ending : Ending}
    (code : s.code = .callback cur [] ending) :
    s.step program = (s.finish cur ending).map ([], ·) := by
  simp only [step, code]

/-- A thread that has called `GetThis` and goes on with a list of instructions. -/
def create (instrs : List (Instr α F)) : Thread α F :=
  (getThis ⟨[], none, none, none, .main instrs⟩).2

/-- The fiber whose stack executes; the main fiber runs on the thread's own stack. -/
def executing (s : Thread α F) : Option Nat :=
  match s.stack with
  | none => s.tThreadFiber
  | some f => some f

/-- The instruction that the next step executes. -/
def nextInstr (s : Thread α F) : Option (Instr α F) :=
  match s.code with
  | .main (instr :: _) => some instr
  | .callback _ (instr :: _) _ => some instr
  | _ => none

section Switch

variable {s : Thread α F} {main : Fiber α F} {children : List (Fiber α F)}

theorem getThis_current {f : Nat} (current : s.tFiber = some f) : s.getThis = (f, s) := by
  rw [getThis, current]

/-- The main fiber saves into the context that it loads, and goes on. -/
theorem swapOut_main (fibers : s.fibers = main :: children) (threadFiber : s.tThreadFiber = some 0)
    (after : Code α F) :
    s.swapOut 0 after = some { s with
      fibers := { main with ctx := ⟨s.stack, after⟩ } :: children
      tFiber := some 0
      code := after } := by
  simp [swapOut, swapContext, threadFiber, fibers]

/-- A child saves into its own context and loads that of the main fiber. -/
theorem swapOut_child (fibers : s.fibers = main :: children) (threadFiber : s.tThreadFiber = some 0)
    (g : Nat) (after : Code α F) :
    s.swapOut (g + 1) after = some { s with
      fibers := main :: children.modify g fun fiber => { fiber with ctx := ⟨s.stack, after⟩ }
      tFiber := some 0
      stack := main.ctx.stack
      code := main.ctx.code } := by
  simp [swapOut, swapContext, threadFiber, fibers]

/-- `swapIn` saves into the context of the main fiber, whoever calls it. -/
theorem swapIn_child (fibers : s.fibers = main :: children) (threadFiber : s.tThreadFiber = some 0)
    {g : Nat} {fiber : Fiber α F} (found : children[g]? = some fiber) (waiting : fiber.state ≠ .exec)
    (after : Code α F) :
    s.swapIn (g + 1) after = some { s with
      fibers := { main with ctx := ⟨s.stack, after⟩ } ::
        children.modify g fun fiber => { fiber with state := .exec }
      tFiber := some (g + 1)
      stack := fiber.ctx.stack
      code := fiber.ctx.code } := by
  simp [swapIn, swapContext, setState, threadFiber, fibers, found, waiting]

end Switch

end Thread

end Sylar
