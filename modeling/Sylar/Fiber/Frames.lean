import Sylar.Fiber.Life

/-! The frames on the stack of a child. `MainFunc` has its `cur` there while the callback
runs, and a yield has one while the child is suspended in it. No step but a construction
makes a fiber. -/
namespace Sylar

namespace Thread

variable {α : Type u} {F : Type v} {program : F → Callback α F} {s next : Thread α F}
  {events : List (Option Nat × α)}

theorem swapContext_length {oucp ucp : Nat} {after : Code α F}
    (taken : s.swapContext oucp ucp after = some next) : next.fibers.length = s.fibers.length := by
  simp only [swapContext] at taken
  split at taken
  · cases taken
  · cases taken
    simp

theorem swapOut_length {f : Nat} {after : Code α F} (taken : s.swapOut f after = some next) :
    next.fibers.length = s.fibers.length := by
  unfold swapOut at taken
  split at taken
  · cases taken
  · have same := swapContext_length taken
    exact same

theorem yieldTo_length {f : Nat} (current : s.tFiber = some f) {state : FiberState} {after : Code α F}
    (taken : s.yieldTo state after = some next) : next.fibers.length = s.fibers.length := by
  simp only [yieldTo, getThis_current current] at taken
  split at taken
  · cases taken
  · split at taken
    · rw [swapOut_length taken]
      simp [setState]
    · cases taken
      rfl

/-- Only a construction makes a fiber. -/
def made : Option (Instr α F) → Nat
  | some (.create _) => 1
  | _ => 0

theorem exec_length {f : Nat} (current : s.tFiber = some f) {instr : Instr α F} {after : Code α F}
    (taken : s.exec instr after = some (events, next)) :
    next.fibers.length = s.fibers.length + made (some instr) := by
  cases instr with
  | act a =>
    cases taken
    rfl
  | create cb =>
    cases taken
    simp [construct, made]
  | yieldToHold | yieldToReady =>
    obtain ⟨result, yielded, same⟩ := Option.map_eq_some_iff.mp taken
    cases same
    exact yieldTo_length current yielded
  | swapOut =>
    obtain ⟨result, left, same⟩ := Option.map_eq_some_iff.mp taken
    cases same
    rw [getThis_current current] at left
    exact swapOut_length left
  | swapIn k =>
    obtain ⟨result, called, same⟩ := Option.map_eq_some_iff.mp taken
    cases same
    unfold swapIn at called
    split at called
    · split at called
      · cases called
        rfl
      · rw [swapContext_length called]
        simp [setState, made]
    · cases called
  | reset k cb =>
    obtain ⟨result, done, same⟩ := Option.map_eq_some_iff.mp taken
    cases same
    unfold reset at done
    split at done
    · cases done
    · split at done <;> cases done
      · simp [made]
      · rfl

theorem step_length {f : Nat} (current : s.tFiber = some f)
    (taken : s.step program = some (events, next)) :
    next.fibers.length = s.fibers.length + made s.nextInstr := by
  unfold step at taken
  split at taken
  · rename_i code
    rw [nextInstr, code]
    exact exec_length current taken
  · rename_i code
    obtain ⟨result, entered, same⟩ := Option.map_eq_some_iff.mp taken
    cases same
    rw [nextInstr, code]
    simp only [enter, getThis_current current] at entered
    split at entered
    · cases entered
    · split at entered <;> cases entered <;> rfl
  · rename_i code
    rw [nextInstr, code]
    exact exec_length current taken
  · rename_i code
    obtain ⟨result, finished, same⟩ := Option.map_eq_some_iff.mp taken
    cases same
    rw [finish_eq] at finished
    rw [nextInstr, code, swapOut_length finished]
    simp [made]
  · rename_i code
    cases taken
    rw [nextInstr, code]
    rfl
  all_goals cases taken

/-- How many `cur` of `MainFunc` are on the stack of a child: one while the callback runs. -/
def mainCur (s : Thread α F) (k : Nat) : Nat :=
  match s.view k with
  | some (_, .callback _ _ _) => 1
  | _ => 0

/-- `MainFunc` takes its `cur` when it begins and drops it when the callback has ended;
no other step changes how many there are. -/
theorem Orderly.mainCur (orderly : s.Orderly) (swaps : s.Swaps)
    (taken : s.step program = some (events, next)) (alive : next.code ≠ .aborted) {k : Nat}
    (child : k ≠ 0) :
    (s.code = .entry ∧ s.stack = some k ∧ s.mainCur k = 0 ∧ next.mainCur k = 1) ∨
    (∃ ending, s.code = .callback k [] ending ∧ s.mainCur k = 1 ∧ next.mainCur k = 0) ∨
    ((s.code = .entry → s.stack ≠ some k) ∧ (∀ ending, s.code ≠ .callback k [] ending) ∧
      next.mainCur k = s.mainCur k) := by
  obtain ⟨main, children, d, busy, settled⟩ := orderly
  have here (inside : s.stack = some k) : s.view k = some (.exec, s.code) := by
    obtain ⟨fiber, found, exec⟩ := busy k inside
    rw [view_here found inside, exec]
  -- a child off the stack neither begins nor ends
  have away (outside : s.stack ≠ some k) (same : next.mainCur k = s.mainCur k) :
      (s.code = .entry → s.stack ≠ some k) ∧ (∀ ending, s.code ≠ .callback k [] ending) ∧
        next.mainCur k = s.mainCur k :=
    ⟨fun _ => outside, fun ending code => outside (d.running.callback code), same⟩
  have inside (instr : Instr α F) (rest : List (Instr α F)) (ending : Ending) (state : FiberState)
      (code : s.code = .callback k (instr :: rest) ending)
      (after : next.view k = some (state, .callback k rest ending)) :
      (s.code = .entry → s.stack ≠ some k) ∧ (∀ ending, s.code ≠ .callback k [] ending) ∧
        next.mainCur k = s.mainCur k := by
    refine ⟨?_, ?_, ?_⟩
    · intro entry
      cases code.symm.trans entry
    · intro ending ended
      cases code.symm.trans ended
    · simp [Thread.mainCur, after, here (d.running.callback code), code]
  cases d.turn busy swaps taken child with
  | stays view outside => exact .inr (.inr (away outside (by simp [Thread.mainCur, view])))
  | created before after =>
    refine .inr (.inr (away ?_ (by simp [Thread.mainCur, before, after])))
    intro stack
    cases before.symm.trans (here stack)
  | resumed state code _ _ outside before after =>
    refine .inr (.inr (away (by simp [outside]) ?_))
    cases code <;> simp [Thread.mainCur, before, after]
  | started rest ending code stack after =>
    refine .inl ⟨code, stack, ?_, by simp [Thread.mainCur, after]⟩
    simp [Thread.mainCur, here stack, code]
  | worked instr rest ending _ code after => exact .inr (.inr (inside instr rest ending _ code after))
  | parted instr rest ending state _ code after => exact .inr (.inr (inside instr rest ending state code after))
  | ended ending code after =>
    refine .inr (.inl ⟨ending, code, ?_, by simp [Thread.mainCur, after]⟩)
    simp [Thread.mainCur, here (d.running.callback code), code]
  | renewed state code cb _ idle outside before after =>
    refine .inr (.inr (away outside ?_))
    have stands := settled k child outside state code before
    rcases idle with rfl | rfl | rfl <;> simp [Phase] at stands <;>
      simp [Thread.mainCur, before, after, stands]
  | aborted same =>
    rw [same] at alive
    exact absurd rfl alive

theorem Orderly.mainCur_same (orderly : s.Orderly) (swaps : s.Swaps)
    (taken : s.step program = some (events, next)) (alive : next.code ≠ .aborted)
    (begun : s.code ≠ .entry) (goes : ∀ cur ending, s.code ≠ .callback cur [] ending) {k : Nat}
    (child : k ≠ 0) : next.mainCur k = s.mainCur k := by
  rcases orderly.mainCur swaps taken alive child with ⟨code, _⟩ | ⟨ending, code, _⟩ | ⟨_, _, same⟩
  · exact absurd code begun
  · exact absurd code (goes k ending)
  · exact same

/-- The fiber that executes: the main fiber, or the child whose stack it is. -/
theorem Orderly.current (orderly : s.Orderly) :
    ∃ f, s.tFiber = some f ∧ f < s.fibers.length ∧ (s.stack = none ∧ f = 0 ∨ s.stack = some f) := by
  obtain ⟨main, children, d, busy, _⟩ := orderly
  obtain ⟨f, current, here⟩ := d.executing_some
  refine ⟨f, current, ?_⟩
  cases stack : s.stack with
  | none =>
    have zero : f = 0 := by simpa [executing, stack, d.threadFiber, eq_comm] using here
    exact ⟨by simp [zero, d.fibers], .inl ⟨rfl, zero⟩⟩
  | some k =>
    have own : k = f := by simpa [executing, stack] using here
    obtain ⟨fiber, found, _⟩ := busy k stack
    rw [← own]
    exact ⟨(List.getElem?_eq_some_iff.mp found).1, .inr rfl⟩

/-- While a callback executes, the `cur` of `MainFunc` is on its stack. -/
theorem Orderly.mainCur_running (orderly : s.Orderly) {instr : Instr α F}
    (now : s.nextInstr = some instr) {k : Nat} (stack : s.stack = some k) : k ≠ 0 ∧ s.mainCur k = 1 := by
  obtain ⟨main, children, d, busy, _⟩ := orderly
  obtain ⟨child, own, _⟩ := d.running.child stack
  obtain ⟨fiber, found, _⟩ := busy k stack
  refine ⟨child, ?_⟩
  rw [Thread.mainCur, view_here found stack]
  cases code : s.code with
  | callback cur rest ending => rfl
  | main | constructed | entry | neverReach | aborted => simp [code, OwnCode, nextInstr] at own now

theorem Orderly.mainCur_ended (orderly : s.Orderly) {k : Nat} {ending : Ending}
    (code : s.code = .callback k [] ending) : s.mainCur k = 1 := by
  obtain ⟨main, children, d, busy, _⟩ := orderly
  have stack := d.running.callback code
  obtain ⟨fiber, found, _⟩ := busy k stack
  rw [Thread.mainCur, view_here found stack, code]

/-- A child whose stack has no `cur` of `MainFunc` has not begun or has finished. -/
theorem Orderly.idle (orderly : s.Orderly) {k : Nat} (child : k ≠ 0) (away : s.stack ≠ some k)
    {fiber : Fiber α F} (found : s.fibers[k]? = some fiber) (none_left : s.mainCur k = 0) :
    fiber.state = .init ∨ fiber.state = .term ∨ fiber.state = .except := by
  obtain ⟨_, _, _, _, settled⟩ := orderly
  have before := view_away found away
  have stands := settled k child away _ _ before
  have suspended (running : ∃ cur rest ending, fiber.ctx.code = .callback cur rest ending) : False := by
    obtain ⟨cur, rest, ending, code⟩ := running
    simp [Thread.mainCur, before, code] at none_left
  cases state : fiber.state with
  | init => exact .inl rfl
  | term => exact .inr (.inl rfl)
  | except => exact .inr (.inr rfl)
  | hold | exec | ready =>
    rw [state] at stands
    exact (suspended stands).elim

/-- Where the frame of a yield may be, and what its `cur` points to. -/
def Suspended (s : Thread α F) (entry : Option Nat × Nat) : Prop :=
  entry = (none, 0) ∨ ∃ k, k ≠ 0 ∧ entry = (some k, k) ∧ s.mainCur k = 1

theorem Orderly.suspended (orderly : s.Orderly) (swaps : s.Swaps)
    (taken : s.step program = some (events, next)) (alive : next.code ≠ .aborted)
    {entry : Option Nat × Nat} (suspended : s.Suspended entry) (away : entry.1 ≠ s.stack) :
    next.Suspended entry := by
  rcases suspended with rfl | ⟨k, child, rfl, cur⟩
  · exact .inl rfl
  · refine .inr ⟨k, child, rfl, ?_⟩
    rcases orderly.mainCur swaps taken alive child with ⟨_, stack, _⟩ | ⟨ending, code, _⟩ | ⟨_, _, same⟩
    · exact absurd stack.symm away
    · obtain ⟨main, children, d, _⟩ := orderly
      exact absurd (d.running.callback code).symm away
    · exact same.trans cur

end Thread

end Sylar
