import Sylar.Fiber.Machine
import Sylar.Library.Heap
import Sylar.Library.Reach

/-! Who executes and where control returns. The fibers are asymmetric coroutines: the
thread's main fiber and its children switch with each other. Runs in which only the
main fiber calls `swapIn` keep `t_fiber` and the main context right; a call from a
child overwrites the one context that every `swapOut` goes back to. -/
namespace Sylar

open Library

namespace Thread

variable {α : Type u} {F : Type v}

/-- `swapIn` is called on a fiber other than the caller that is ready to run. -/
def Resumes (s : Thread α F) : Prop :=
  ∀ f, s.nextInstr = some (.swapIn f) → s.executing ≠ some f ∧
    ∃ fiber, s.fibers[f]? = some fiber ∧
      (fiber.state = .init ∨ fiber.state = .hold ∨ fiber.state = .ready)

/-- `swapIn` is called by the main fiber. -/
def FromMain (s : Thread α F) : Prop :=
  ∀ f, s.nextInstr = some (.swapIn f) → s.executing = s.tThreadFiber

/-- `swapIn` is called by the main fiber on a child, and its own assertion holds. -/
def Swaps (s : Thread α F) : Prop :=
  ∀ f, s.nextInstr = some (.swapIn f) → s.executing = s.tThreadFiber ∧ s.executing ≠ some f ∧
    ∃ fiber, s.fibers[f]? = some fiber ∧ fiber.state ≠ .exec

/-- Code that runs on the stack of a child: `MainFunc` of that child. -/
def OwnCode (f : Nat) : Code α F → Prop
  | .entry | .neverReach => True
  | .callback cur _ _ => cur = f
  | _ => False

/-- What may execute on the stack of the state, given the saved main context. -/
def Running (main : Fiber α F) (s : Thread α F) : Prop :=
  match s.stack with
  | none => (∃ rest, s.code = .main rest) ∨ s.code = .aborted
  | some f => f ≠ 0 ∧ (OwnCode f s.code ∨ s.code = .aborted) ∧ ∃ rest, main.ctx = ⟨none, .main rest⟩

/-- The main fiber comes first, every other context belongs to its own stack, and
`t_fiber` is the fiber that executes. -/
structure Disciplined (main : Fiber α F) (children : List (Fiber α F)) (s : Thread α F) : Prop where
  fibers : s.fibers = main :: children
  threadFiber : s.tThreadFiber = some 0
  current : s.tFiber = s.executing
  noStack : main.hasStack = false
  owned : ∀ g fiber, children[g]? = some fiber →
    fiber.ctx.stack = some (g + 1) ∧ OwnCode (g + 1) fiber.ctx.code
  running : Running main s

/-- What a step does to the control flow: it stays on its stack, the main fiber calls
a child and saves where it goes on, or a child returns to that place. -/
inductive Move (main main' : Fiber α F) (s next : Thread α F) : Prop
  | stays (stack : next.stack = s.stack) (saved : s.stack ≠ none → main'.ctx = main.ctx)
  | calls (f : Nat) (rest : List (Instr α F)) (caller : s.stack = none)
      (code : s.code = .main (.swapIn f :: rest)) (callee : next.stack = some f)
      (saved : main'.ctx = ⟨none, .main rest⟩)
  | returns (f : Nat) (callee : s.stack = some f) (caller : next.stack = none)
      (code : next.code = main.ctx.code) (saved : main'.ctx = main.ctx)

/-- A child that executes is in state `EXEC`. -/
def Busy (s : Thread α F) : Prop :=
  ∀ f, s.stack = some f → ∃ fiber, s.fibers[f]? = some fiber ∧ fiber.state = .exec

/-- What every step of a disciplined thread keeps, and how it moves. -/
def Keeps (main : Fiber α F) (s next : Thread α F) : Prop :=
  ∃ main' children', Disciplined main' children' next ∧ Move main main' s next ∧ (s.Busy → next.Busy)

variable {main : Fiber α F} {children : List (Fiber α F)} {s next : Thread α F}
  {events : List (Option Nat × α)}

/-- Fibers that wait are not in state `EXEC`. -/
theorem Resumes.swaps (resumes : s.Resumes) (fromMain : s.FromMain) : s.Swaps := by
  intro f next
  obtain ⟨other, fiber, found, waiting⟩ := resumes f next
  refine ⟨fromMain f next, other, fiber, found, ?_⟩
  rcases waiting with state | state | state <;> simp [state]

theorem owned_modify (owned : ∀ g fiber, children[g]? = some fiber →
      fiber.ctx.stack = some (g + 1) ∧ OwnCode (g + 1) fiber.ctx.code)
    (g : Nat) (change : Fiber α F → Fiber α F)
    (kept : ∀ fiber, children[g]? = some fiber →
      (change fiber).ctx.stack = some (g + 1) ∧ OwnCode (g + 1) (change fiber).ctx.code) :
    ∀ i fiber, (children.modify g change)[i]? = some fiber →
      fiber.ctx.stack = some (i + 1) ∧ OwnCode (i + 1) fiber.ctx.code := by
  intro i fiber found
  rw [List.getElem?_modify] at found
  obtain ⟨before, present, rfl⟩ := Option.map_eq_some_iff.mp found
  by_cases same : g = i
  · subst same
    simpa using kept before present
  · simpa [same] using owned i before present

theorem Disciplined.executing_some (d : Disciplined main children s) :
    ∃ f, s.tFiber = some f ∧ s.executing = some f := by
  have current := d.current
  cases stack : s.stack with
  | none =>
    have here : s.executing = some 0 := by simp [executing, stack, d.threadFiber]
    exact ⟨0, current.trans here, here⟩
  | some f =>
    have here : s.executing = some f := by simp [executing, stack]
    exact ⟨f, current.trans here, here⟩

/-- Other code on the same stack, with other children. -/
theorem Disciplined.goOn (d : Disciplined main children s) {children' : List (Fiber α F)}
    {code : Code α F} (running : Running main { s with code := code })
    (owned : ∀ g fiber, children'[g]? = some fiber →
      fiber.ctx.stack = some (g + 1) ∧ OwnCode (g + 1) fiber.ctx.code) :
    Disciplined main children' { s with fibers := main :: children', code := code } :=
  ⟨rfl, d.threadFiber, d.current, d.noStack, owned, running⟩

theorem Disciplined.setCode (d : Disciplined main children s) {code : Code α F}
    (running : Running main { s with code := code }) : Disciplined main children { s with code := code } :=
  ⟨d.fibers, d.threadFiber, d.current, d.noStack, d.owned, running⟩

theorem Disciplined.abort (d : Disciplined main children s) : Disciplined main children s.abort := by
  refine d.setCode ?_
  have running := d.running
  unfold Running at running ⊢
  cases stack : s.stack with
  | none => simp
  | some f =>
    rw [stack] at running
    simpa using ⟨running.1, running.2.2⟩

/-- A change of a fiber outside its context. -/
theorem Disciplined.update (d : Disciplined main children s) (f : Nat)
    (change : Fiber α F → Fiber α F)
    (kept : ∀ fiber, (change fiber).ctx = fiber.ctx ∧ (change fiber).hasStack = fiber.hasStack) :
    ∃ main' children', Disciplined main' children' { s with fibers := s.fibers.modify f change } ∧
      main'.ctx = main.ctx := by
  have running := d.running
  cases f with
  | zero =>
    refine ⟨change main, children, ⟨by simp [d.fibers], d.threadFiber, d.current, ?_, d.owned, ?_⟩,
      (kept main).1⟩
    · rw [(kept main).2]
      exact d.noStack
    · unfold Running at running ⊢
      rw [(kept main).1]
      exact running
  | succ g =>
    refine ⟨main, children.modify g change, ⟨by simp [d.fibers], d.threadFiber, d.current, d.noStack,
      owned_modify d.owned g change ?_, running⟩, rfl⟩
    intro fiber found
    rw [(kept fiber).1]
    exact d.owned g fiber found

/-- `swapOut` of the fiber that executes: the main fiber goes on, a child returns. -/
theorem Disciplined.leave (d : Disciplined main children s) {f : Nat} (here : s.executing = some f)
    {after : Code α F} (running : Running main { s with code := after }) (alive : after ≠ .aborted) :
    ∃ next main' children', s.swapOut f after = some next ∧ Disciplined main' children' next ∧
      (s.stack = none ∧ next.stack = none ∨
        s.stack = some f ∧ next.stack = none ∧ next.code = main.ctx.code ∧ main'.ctx = main.ctx) := by
  unfold Running at running
  cases stack : s.stack with
  | none =>
    have zero : f = 0 := by simpa [executing, stack, d.threadFiber, eq_comm] using here
    subst zero
    refine ⟨_, _, _, swapOut_main d.fibers d.threadFiber after,
      ⟨rfl, d.threadFiber, ?_, d.noStack, d.owned, ?_⟩, .inl ⟨rfl, stack⟩⟩
    · simp [executing, stack, d.threadFiber]
    · simpa [Running, stack] using running
  | some k =>
    have same : k = f := by simpa [executing, stack] using here
    subst same
    simp only [stack] at running
    obtain ⟨child, own, rest, saved⟩ := running
    obtain ⟨g, rfl⟩ := Nat.exists_eq_succ_of_ne_zero child
    refine ⟨_, _, _, swapOut_child d.fibers d.threadFiber g after,
      ⟨rfl, d.threadFiber, ?_, d.noStack, owned_modify d.owned g _ ?_, ?_⟩,
      .inr ⟨rfl, by simp [saved], rfl, rfl⟩⟩
    · simp [executing, saved, d.threadFiber]
    · intro fiber _
      exact ⟨stack, own.resolve_right alive⟩
    · simp [Running, saved]

theorem busy_of_main (stack : s.stack = none) : s.Busy := by
  intro f child
  cases stack.symm.trans child

/-- A step that changes no fiber and stays on its stack. -/
theorem Disciplined.keeps (d : Disciplined main children next) (fibers : next.fibers = s.fibers)
    (stack : next.stack = s.stack) : Keeps main s next := by
  refine ⟨main, children, d, .stays stack fun _ => rfl, ?_⟩
  intro busy f child
  rw [fibers]
  exact busy f (stack.symm.trans child)

theorem Running.congr {main' : Fiber α F} {t : Thread α F} (running : Running main s)
    (saved : main'.ctx = main.ctx) (stack : t.stack = s.stack) (code : t.code = s.code) :
    Running main' t := by
  unfold Running at running ⊢
  rw [saved, stack, code]
  exact running

/-- The same after a change of fibers that keeps contexts. -/
theorem Disciplined.leaveUpdated (d : Disciplined main children s) {f : Nat}
    (here : s.executing = some f) (change : Fiber α F → Fiber α F)
    (kept : ∀ fiber, (change fiber).ctx = fiber.ctx ∧ (change fiber).hasStack = fiber.hasStack)
    {after : Code α F} (running : Running main { s with code := after }) (alive : after ≠ .aborted) :
    ∃ next, { s with fibers := s.fibers.modify f change }.swapOut f after = some next ∧
      Keeps main s next ∧ (s.stack = some f → next.stack = none ∧ next.code = main.ctx.code) := by
  obtain ⟨middle, _, dMiddle, ctx⟩ := d.update f change kept
  have still : Running middle { { s with fibers := s.fibers.modify f change } with code := after } :=
    running.congr ctx rfl rfl
  obtain ⟨next, main', children', left, dNext, moved⟩ := dMiddle.leave here still alive
  rcases moved with ⟨before, stack⟩ | ⟨callee, caller, code, saved⟩
  · have moved : Move main main' s next := .stays (stack.trans before.symm) fun child => absurd before child
    refine ⟨next, left, ⟨main', children', dNext, moved, fun _ => busy_of_main stack⟩, ?_⟩
    intro child
    cases child.symm.trans before
  · have back : next.code = main.ctx.code := by rw [code, ctx]
    have moved : Move main main' s next := .returns f callee caller back (by rw [saved, ctx])
    exact ⟨next, left, ⟨main', children', dNext, moved, fun _ => busy_of_main caller⟩, fun _ => ⟨caller, back⟩⟩

theorem Disciplined.yieldTo (d : Disciplined main children s) {state : FiberState}
    {after : Code α F} (running : Running main { s with code := after }) (alive : after ≠ .aborted)
    (taken : s.yieldTo state after = some next) : Keeps main s next := by
  obtain ⟨f, current, here⟩ := d.executing_some
  simp only [Thread.yieldTo, getThis_current current] at taken
  split at taken
  · cases taken
  · split at taken
    · obtain ⟨next', left, keeps, _⟩ :=
        d.leaveUpdated here (fun fiber => { fiber with state := state }) (fun _ => ⟨rfl, rfl⟩) running alive
      cases taken.symm.trans left
      exact keeps
    · cases taken
      exact d.abort.keeps rfl rfl

theorem Disciplined.reset (d : Disciplined main children s) {f : Nat} {cb : F} {after : Code α F}
    (running : Running main { s with code := after }) (taken : s.reset f cb after = some next) :
    Keeps main s next := by
  unfold Thread.reset at taken
  split at taken
  · cases taken
  · rename_i fiber found
    split at taken
    · rename_i allowed
      cases taken
      cases f with
      | zero =>
        -- the main fiber has no stack of its own
        have same : fiber = main := by simpa [d.fibers, eq_comm] using found
        rw [same, d.noStack] at allowed
        cases allowed.1
      | succ g =>
        have dNext := d.goOn running (owned_modify d.owned g
          (fun fiber => { fiber with state := .init, cb := some cb, ctx := ⟨some (g + 1), .entry⟩ })
          (fun _ _ => ⟨rfl, trivial⟩))
        rw [← List.modify_succ_cons, ← d.fibers] at dNext
        refine ⟨main, _, dNext, .stays rfl fun _ => rfl, ?_⟩
        intro busy k child
        obtain ⟨running, present, state⟩ := busy k child
        -- the fiber that executes is not the one that is reset
        have other : g + 1 ≠ k := by
          rintro rfl
          cases present.symm.trans found
          rw [state] at allowed
          simp at allowed
        exact ⟨running, (List.getElem?_modify_ne _ _ other).trans present, state⟩
    · cases taken
      exact d.abort.keeps rfl rfl

theorem Disciplined.construct (d : Disciplined main children s) {cb : F} {after : Code α F}
    (running : Running main { s with code := after }) : Keeps main s (s.construct cb after) := by
  set made : Fiber α F := ⟨.init, ⟨some (children.length + 1), .entry⟩, true, some cb⟩
  have owned : ∀ g fiber, (children ++ [made])[g]? = some fiber →
      fiber.ctx.stack = some (g + 1) ∧ OwnCode (g + 1) fiber.ctx.code := by
    intro g fiber found
    rcases getElem?_allocated.mp found with old | ⟨rfl, rfl⟩
    · exact d.owned g fiber old
    · exact ⟨rfl, trivial⟩
  have result : s.construct cb after =
      { s with fibers := main :: (children ++ [made]), code := after } := by
    simp [Thread.construct, d.fibers, made]
  rw [result]
  refine ⟨main, children ++ [made], d.goOn running owned, .stays rfl fun _ => rfl, ?_⟩
  intro busy f child
  obtain ⟨running, present, state⟩ := busy f child
  rw [d.fibers] at present
  exact ⟨running, getElem?_allocated.mpr (.inl present), state⟩

/-- `swapIn` by the main fiber. -/
theorem Disciplined.call (d : Disciplined main children s) {f : Nat} {rest : List (Instr α F)}
    (caller : s.stack = none) (code : s.code = .main (.swapIn f :: rest)) (swaps : s.Swaps)
    (taken : s.swapIn f (.main rest) = some next) : Keeps main s next := by
  obtain ⟨_, other, fiber, found, notExec⟩ := swaps f (by simp [nextInstr, code])
  cases f with
  | zero => simp [executing, caller, d.threadFiber] at other
  | succ g =>
    have present : children[g]? = some fiber := by simpa [d.fibers] using found
    obtain ⟨own, start⟩ := d.owned g fiber present
    have called := swapIn_child d.fibers d.threadFiber present notExec (.main rest)
    cases taken.symm.trans called
    refine ⟨_, _, ⟨rfl, d.threadFiber, ?_, d.noStack, owned_modify d.owned g _ ?_, ?_⟩,
      .calls (g + 1) rest caller code own (by rw [caller]), ?_⟩
    · simp [executing, own]
    · exact fun fiber found => d.owned g fiber found
    · simp [Running, own, caller, start]
    · intro _ k child
      cases own.symm.trans child
      exact ⟨{ fiber with state := .exec }, by simp [present], rfl⟩

/-- Any instruction, with the code that follows it on the same stack. -/
theorem Disciplined.exec (d : Disciplined main children s) {instr : Instr α F} {after : Code α F}
    (running : Running main { s with code := after }) (alive : after ≠ .aborted)
    (calls : ∀ f, instr = .swapIn f →
      s.stack = none ∧ s.Swaps ∧ ∃ rest, after = .main rest ∧ s.code = .main (.swapIn f :: rest))
    (taken : s.exec instr after = some (events, next)) : Keeps main s next := by
  cases instr with
  | act a =>
    cases taken
    exact (d.setCode running).keeps rfl rfl
  | yieldToHold | yieldToReady =>
    obtain ⟨result, yielded, same⟩ := Option.map_eq_some_iff.mp taken
    cases same
    exact d.yieldTo running alive yielded
  | swapOut =>
    obtain ⟨result, left, same⟩ := Option.map_eq_some_iff.mp taken
    cases same
    obtain ⟨f, current, here⟩ := d.executing_some
    rw [getThis_current current] at left
    obtain ⟨next', main', children', left', dNext, moved⟩ := d.leave here running alive
    cases left.symm.trans left'
    refine ⟨main', children', dNext, ?_⟩
    rcases moved with ⟨before, stack⟩ | ⟨callee, caller, code, saved⟩
    · exact ⟨.stays (stack.trans before.symm) fun child => absurd before child, fun _ => busy_of_main stack⟩
    · exact ⟨.returns f callee caller code saved, fun _ => busy_of_main caller⟩
  | swapIn f =>
    obtain ⟨result, called, same⟩ := Option.map_eq_some_iff.mp taken
    cases same
    obtain ⟨caller, swaps, rest, rfl, code⟩ := calls f rfl
    exact d.call caller code swaps called
  | reset f cb =>
    obtain ⟨result, done, same⟩ := Option.map_eq_some_iff.mp taken
    cases same
    exact d.reset running done
  | create cb =>
    cases taken
    exact d.construct running

/-- The end of a callback. -/
theorem Disciplined.finish (d : Disciplined main children s) {cur : Nat} {ending : Ending}
    (here : s.executing = some cur) (running : Running main { s with code := .neverReach })
    (taken : s.finish cur ending = some next) : Keeps main s next := by
  cases ending with
  | returns =>
    obtain ⟨next', left, keeps, _⟩ := d.leaveUpdated here
      (fun fiber => { fiber with cb := none, state := .term }) (fun _ => ⟨rfl, rfl⟩) running (by simp)
    cases taken.symm.trans left
    exact keeps
  | throws =>
    obtain ⟨next', left, keeps, _⟩ := d.leaveUpdated here
      (fun fiber => { fiber with state := .except }) (fun _ => ⟨rfl, rfl⟩) running (by simp)
    cases taken.symm.trans left
    exact keeps

theorem Running.child (running : Running main s) {f : Nat} (stack : s.stack = some f) :
    f ≠ 0 ∧ (OwnCode f s.code ∨ s.code = .aborted) ∧ ∃ rest, main.ctx = ⟨none, .main rest⟩ := by
  unfold Running at running
  rw [stack] at running
  exact running

/-- A callback executes on the stack of its own fiber. -/
theorem Running.callback (running : Running main s) {cur : Nat} {rest : List (Instr α F)}
    {ending : Ending} (code : s.code = .callback cur rest ending) : s.stack = some cur := by
  cases stack : s.stack with
  | none => simp [Running, stack, code] at running
  | some f =>
    have own : cur = f := by simpa [code, OwnCode] using (running.child stack).2.1
    rw [own]

/-- Further code of its own on the stack of a child. -/
theorem Running.goOn (running : Running main s) {f : Nat} (stack : s.stack = some f)
    {after : Code α F} (own : OwnCode f after) : Running main { s with code := after } := by
  obtain ⟨child, _, saved⟩ := running.child stack
  simpa [Running, stack, child, own] using saved

/-- A step of a run in which only the main fiber calls `swapIn`. -/
theorem Disciplined.step {program : F → Callback α F} (d : Disciplined main children s)
    (swaps : s.Swaps) (taken : s.step program = some (events, next)) : Keeps main s next := by
  have running := d.running
  unfold Thread.step at taken
  split at taken
  · -- the thread's own function
    rename_i instr rest code
    have caller : s.stack = none := by
      cases stack : s.stack with
      | none => rfl
      | some f => simpa [code, OwnCode] using (running.child stack).2.1
    refine d.exec ?_ (by simp) ?_ taken
    · simp [Running, caller]
    · rintro f rfl
      exact ⟨caller, swaps, rest, rfl, code⟩
  · -- the begin of `MainFunc`
    rename_i code
    obtain ⟨result, entered, same⟩ := Option.map_eq_some_iff.mp taken
    cases same
    obtain ⟨f, current, here⟩ := d.executing_some
    have child : s.stack = some f := by
      cases stack : s.stack with
      | none => simp [Running, stack, code] at running
      | some k => simpa [executing, stack] using here
    have inside (rest : List (Instr α F)) (ending : Ending) :
        Running main { s with code := .callback f rest ending } := running.goOn child rfl
    simp only [enter, getThis_current current] at entered
    split at entered
    · cases entered
    · split at entered <;> cases entered
      all_goals exact Disciplined.keeps (d.setCode (inside _ _)) rfl rfl
  · -- inside a callback
    rename_i cur instr rest ending code
    have child := running.callback code
    have inside : Running main { s with code := .callback cur rest ending } := running.goOn child rfl
    refine d.exec inside (by simp) ?_ taken
    rintro f rfl
    -- a child would be the caller
    have caller := (swaps f (by simp [nextInstr, code])).1
    simp only [executing, child, d.threadFiber, Option.some.injEq] at caller
    exact absurd caller (running.child child).1
  · -- the end of a callback
    rename_i cur ending code
    obtain ⟨result, finished, same⟩ := Option.map_eq_some_iff.mp taken
    cases same
    have child := running.callback code
    exact d.finish (by simp [executing, child]) (running.goOn child trivial) finished
  · cases taken
    exact d.abort.keeps rfl rfl
  all_goals cases taken

theorem create_disciplined (instrs : List (Instr α F)) :
    ∃ main, Disciplined main [] (create instrs) ∧ (create instrs).Busy := by
  refine ⟨⟨.exec, ⟨none, .constructed⟩, false, none⟩, ⟨rfl, rfl, rfl, rfl, ?_, .inl ⟨instrs, rfl⟩⟩,
    busy_of_main rfl⟩
  intro g fiber found
  cases found

/-- A run in which every `swapIn` is a call of the main fiber on a waiting child. -/
abbrev Asymmetric (program : F → Callback α F) :=
  Reaches (step program) fun s : Thread α F => s.Resumes ∧ s.FromMain

theorem Asymmetric.disciplined {program : F → Callback α F} {instrs : List (Instr α F)}
    (reached : Asymmetric program (create instrs) events s) :
    ∃ main children, Disciplined main children s ∧ s.Busy := by
  apply Reaches.invariant ?_ reached
  · obtain ⟨main, d, busy⟩ := create_disciplined instrs
    exact ⟨main, [], d, busy⟩
  · intro s events next allowed initial taken
    obtain ⟨main, children, d, busy⟩ := initial
    obtain ⟨main', children', dNext, _, keeps⟩ := d.step (allowed.1.swaps allowed.2) taken
    exact ⟨main', children', dNext, keeps busy⟩

/-- The next step is a yield, a direct `swapOut` or the end of a callback. -/
def Leaving (s : Thread α F) : Prop :=
  ∃ cur rest ending, s.code = .callback cur rest ending ∧
    (rest = [] ∨ ∃ tail, rest = .yieldToHold :: tail ∨ rest = .yieldToReady :: tail ∨
      rest = .swapOut :: tail)

/-- A child that yields or finishes returns to where the main context says. -/
theorem Disciplined.returns (program : F → Callback α F) (d : Disciplined main children s)
    (busy : s.Busy) {f : Nat} (child : s.stack = some f) (leaving : s.Leaving) :
    ∃ next, s.step program = some ([], next) ∧ next.stack = none ∧ next.code = main.ctx.code := by
  obtain ⟨cur, rest, ending, code, kind⟩ := leaving
  cases (d.running.callback code).symm.trans child
  have here : s.executing = some f := by simp [executing, child]
  have current : s.tFiber = some f := d.current.trans here
  have inside (rest : List (Instr α F)) : Running main { s with code := .callback f rest ending } :=
    d.running.goOn child rfl
  have yields (state : FiberState) (tail : List (Instr α F)) :
      ∃ next, s.yieldTo state (.callback f tail ending) = some next ∧ next.stack = none ∧
        next.code = main.ctx.code := by
    obtain ⟨fiber, found, exec⟩ := busy f child
    obtain ⟨next, left, _, back⟩ := d.leaveUpdated here (fun fiber => { fiber with state := state })
      (fun _ => ⟨rfl, rfl⟩) (inside tail) (by simp)
    refine ⟨next, ?_, back child⟩
    simp only [Thread.yieldTo, getThis_current current, found, exec, if_true]
    exact left
  rcases kind with rfl | ⟨tail, rfl | rfl | rfl⟩
  · have ended : Running main { s with code := .neverReach } := d.running.goOn child trivial
    cases ending with
    | returns =>
      obtain ⟨next, left, _, back⟩ := d.leaveUpdated here
        (fun fiber => { fiber with cb := none, state := .term }) (fun _ => ⟨rfl, rfl⟩) ended (by simp)
      exact ⟨next, by rw [step_finish code, Thread.finish, left]; rfl, back child⟩
    | throws =>
      obtain ⟨next, left, _, back⟩ := d.leaveUpdated here
        (fun fiber => { fiber with state := .except }) (fun _ => ⟨rfl, rfl⟩) ended (by simp)
      exact ⟨next, by rw [step_finish code, Thread.finish, setState, left]; rfl, back child⟩
  · obtain ⟨next, left, back⟩ := yields .hold tail
    exact ⟨next, by rw [step_callback code, Thread.exec, left]; rfl, back⟩
  · obtain ⟨next, left, back⟩ := yields .ready tail
    exact ⟨next, by rw [step_callback code, Thread.exec, left]; rfl, back⟩
  · obtain ⟨next, _, _, left, _, moved⟩ := d.leave here (inside tail) (by simp)
    refine ⟨next, by rw [step_callback code, Thread.exec, getThis_current current, left]; rfl, ?_⟩
    rcases moved with ⟨before, _⟩ | ⟨_, caller, back, _⟩
    · cases child.symm.trans before
    · exact ⟨caller, back⟩

/-- The main fiber's call on a child enters the child's stack. -/
theorem Disciplined.calls (program : F → Callback α F) (d : Disciplined main children s)
    {f : Nat} {rest : List (Instr α F)} (caller : s.stack = none)
    (code : s.code = .main (.swapIn f :: rest)) (swaps : s.Swaps) :
    ∃ next, s.step program = some ([], next) ∧ next.stack = some f := by
  obtain ⟨_, other, fiber, found, waiting⟩ := swaps f (by simp [nextInstr, code])
  cases f with
  | zero => simp [executing, caller, d.threadFiber] at other
  | succ g =>
    have present : children[g]? = some fiber := by simpa [d.fibers] using found
    have called := swapIn_child d.fibers d.threadFiber present waiting (.main rest)
    refine ⟨_, by rw [step_main code, Thread.exec, called]; rfl, ?_⟩
    exact (d.owned g fiber present).1

/-- The context saved for the main fiber. -/
def savedMain (s : Thread α F) : Option (Context α F) := s.fibers[0]?.map Fiber.ctx

/-- One step while a child executes: the main context stays, and the child goes on or
returns to the place that the context holds. -/
theorem Disciplined.stepInside {program : F → Callback α F} (d : Disciplined main children s)
    {f : Nat} {rest : List (Instr α F)} (child : s.stack = some f) (saved : main.ctx = ⟨none, .main rest⟩)
    (allowed : s.Resumes ∧ s.FromMain) (taken : s.step program = some (events, next)) :
    ∃ main' children', Disciplined main' children' next ∧ main'.ctx = ⟨none, .main rest⟩ ∧
      (next.stack = some f ∨ next.stack = none ∧ next.code = .main rest) := by
  obtain ⟨main', children', dNext, moved, _⟩ := d.step (allowed.1.swaps allowed.2) taken
  refine ⟨main', children', dNext, ?_⟩
  rcases moved with ⟨stack, kept⟩ | ⟨_, _, caller, _, _, _⟩ | ⟨_, _, caller, code, kept⟩
  · exact ⟨(kept (by simp [child])).trans saved, .inl (stack.trans child)⟩
  · cases child.symm.trans caller
  · exact ⟨kept.trans saved, .inr ⟨caller, by rw [code, saved]⟩⟩

/-- A run from a state in which a child executes: the child still executes, over the
same main context, or the run has come back to the place that the context holds. -/
theorem Disciplined.runInside {program : F → Callback α F} (d : Disciplined main children s)
    {f : Nat} {rest : List (Instr α F)} (child : s.stack = some f) (saved : main.ctx = ⟨none, .main rest⟩)
    (ran : Asymmetric program s events next) :
    next.stack = some f ∧ next.savedMain = some ⟨none, .main rest⟩ ∨
      ∃ inside back later, events = inside ++ later ∧ Asymmetric program s inside back ∧
        back.stack = none ∧ back.code = .main rest ∧ Asymmetric program back later next := by
  induction ran generalizing main children with
  | refl s =>
    refine .inl ⟨child, ?_⟩
    rw [savedMain, d.fibers, ← saved]
    rfl
  | head allowed taken ran ih =>
    obtain ⟨main', children', dNext, still, moved⟩ := d.stepInside child saved allowed taken
    rcases moved with stays | ⟨caller, code⟩
    · rcases ih dNext stays still with inside | ⟨inside, back, later, rfl, first, caller, code, last⟩
      · exact .inl inside
      · exact .inr ⟨_, back, later, (List.append_assoc ..).symm, .head allowed taken first, caller, code, last⟩
    · exact .inr ⟨_, _, _, rfl, .single allowed taken, caller, code, ran⟩

/-- While only the main fiber calls `swapIn`: `t_fiber` is the fiber that executes; a
call saves in the main context where the main fiber goes on, which stays there while
the child executes; and when the child yields or ends, the main fiber goes on there. -/
theorem asymmetric_switching (program : F → Callback α F) (instrs : List (Instr α F))
    (reached : Asymmetric program (create instrs) events s) :
    s.tFiber = s.executing ∧ s.executing ≠ none ∧
    (∀ f rest, s.code = .main (.swapIn f :: rest) → s.Resumes →
      ∃ next, s.step program = some ([], next) ∧ next.stack = some f ∧
        next.savedMain = some ⟨none, .main rest⟩ ∧
        ∀ later final, Asymmetric program next later final →
          final.stack = some f ∧ final.savedMain = some ⟨none, .main rest⟩ ∨
            ∃ inside back outside, later = inside ++ outside ∧ Asymmetric program next inside back ∧
              back.stack = none ∧ back.code = .main rest ∧ Asymmetric program back outside final) ∧
    ∀ f, s.stack = some f → ∃ rest, s.savedMain = some ⟨none, .main rest⟩ ∧
      (s.Leaving → ∃ next, s.step program = some ([], next) ∧ next.stack = none ∧
        next.code = .main rest) := by
  obtain ⟨main, children, d, busy⟩ := reached.disciplined
  refine ⟨d.current, ?_, ?_, ?_⟩
  · obtain ⟨f, _, here⟩ := d.executing_some
    simp [here]
  · intro f rest code resumes
    have caller : s.stack = none := by
      cases stack : s.stack with
      | none => rfl
      | some k => simpa [code, OwnCode] using (d.running.child stack).2.1
    have fromMain : s.FromMain := by
      intro _ _
      simp [executing, caller]
    obtain ⟨next, taken, callee⟩ := d.calls program caller code (resumes.swaps fromMain)
    obtain ⟨main', children', dNext, moved, _⟩ := d.step (resumes.swaps fromMain) taken
    have saved : main'.ctx = ⟨none, .main rest⟩ := by
      rcases moved with ⟨stack, _⟩ | ⟨_, _, _, code', _, saved⟩ | ⟨_, child, _, _, _⟩
      · cases (stack.trans caller).symm.trans callee
      · cases code.symm.trans code'
        exact saved
      · cases caller.symm.trans child
    refine ⟨next, taken, callee, ?_, fun later final ran => dNext.runInside callee saved ran⟩
    rw [savedMain, dNext.fibers, ← saved]
    rfl
  · intro f child
    obtain ⟨_, _, rest, ctx⟩ := d.running.child child
    refine ⟨rest, ?_, ?_⟩
    · rw [savedMain, d.fibers, ← ctx]
      rfl
    · intro leaving
      obtain ⟨next, taken, caller, code⟩ := d.returns program busy child leaving
      exact ⟨next, taken, caller, by rw [code, ctx]⟩

/-- Fiber 1 calls `swapIn` on fiber 2, which yields. -/
def nestedProgram : Bool → Callback Unit Bool
  | true => ⟨[.swapIn 2, .act ()], .returns⟩
  | false => ⟨[.yieldToHold], .returns⟩

def nestedMain : List (Instr Unit Bool) := [.create true, .create false, .swapIn 1]

/-- Every call is on a waiting fiber, and yet the stack of fiber 1 executes with the
main fiber as `t_fiber` and its own code in the main context. -/
theorem nested_switching_fails :
    ∃ events s, Reaches (step nestedProgram) Resumes (create nestedMain) events s ∧
      s.executing = some 1 ∧ s.tFiber = some 0 ∧
      s.savedMain = some ⟨some 1, .callback 1 [.act ()] .returns⟩ := by
  refine ⟨_, _, .head ?_ rfl (.head ?_ rfl (.head ?_ rfl (.head ?_ rfl (.head ?_ rfl (.head ?_ rfl
    (.head ?_ rfl (.refl _))))))), rfl, rfl, rfl⟩
  · intro f next
    cases next
  · intro f next
    cases next
  · intro f next
    cases next
    refine ⟨?_, _, rfl, .inl rfl⟩
    intro same
    cases same
  · intro f next
    cases next
  · intro f next
    cases next
    refine ⟨?_, _, rfl, .inl rfl⟩
    intro same
    cases same
  · intro f next
    cases next
  · intro f next
    cases next

/-- A fiber that yields once, called by the main fiber. -/
def flatProgram : Unit → Callback Unit Unit := fun _ => ⟨[.yieldToHold, .act ()], .returns⟩

def flatMain : List (Instr Unit Unit) := [.create (), .swapIn 1, .act ()]

theorem asymmetric_switching_flat :
    ∃ events s, Asymmetric flatProgram (create flatMain) events s ∧ s.tFiber = s.executing ∧
      ∃ next, s.step flatProgram = some ([], next) ∧ next.stack = none ∧ next.code = .main [.act ()] := by
  have reached : ∃ events s, Asymmetric flatProgram (create flatMain) events s ∧ s.stack = some 1 ∧
      s.savedMain = some ⟨none, .main [.act ()]⟩ ∧ s.Leaving := by
    refine ⟨_, _, .head ⟨?_, ?_⟩ rfl (.head ⟨?_, ?_⟩ rfl (.head ⟨?_, ?_⟩ rfl (.refl _))), rfl, rfl,
      1, _, _, rfl, .inr ⟨_, .inl rfl⟩⟩
    · intro f next
      cases next
    · intro f next
      cases next
    · intro f next
      cases next
      refine ⟨?_, _, rfl, .inl rfl⟩
      intro same
      cases same
    · intro f next
      rfl
    · intro f next
      cases next
    · intro f next
      cases next
  obtain ⟨events, s, reached, child, saved, leaving⟩ := reached
  obtain ⟨current, _, _, inside⟩ := asymmetric_switching flatProgram flatMain reached
  obtain ⟨rest, saved', returns⟩ := inside 1 child
  cases saved.symm.trans saved'
  exact ⟨events, s, reached, current, returns leaving⟩

end Thread

end Sylar
