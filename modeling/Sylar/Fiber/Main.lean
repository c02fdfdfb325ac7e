import Sylar.Fiber.Discipline

/-! The state of the main fiber. A call leaves it alone, and so does a child that yields;
a yield of the main fiber itself changes it, and nobody changes it back. That `GetThis`
is called once more has no effect on a thread that has a main fiber. -/
namespace Sylar

open Library

namespace Thread

variable {α : Type u} {F : Type v} {s next : Thread α F} {main : Fiber α F}
  {children : List (Fiber α F)} {events : List (Option Nat × α)}

/-- While the main fiber runs its `m_state` is `EXEC`. -/
def MainExec (s : Thread α F) : Prop :=
  s.executing = s.tThreadFiber → ∀ f fiber, s.tThreadFiber = some f → s.fibers[f]? = some fiber →
    fiber.state = .exec

/-- The next instruction is no yield, or a child executes it. -/
def YieldsInChild (s : Thread α F) : Prop :=
  s.nextInstr = some .yieldToHold ∨ s.nextInstr = some .yieldToReady → s.executing ≠ s.tThreadFiber

/-- The `m_state` of a fiber. -/
def stateAt (f : Nat) (s : Thread α F) : Option FiberState := s.fibers[f]?.map Fiber.state

theorem stateAt_modify_other {f g : Nat} (other : g ≠ f) (change : Fiber α F → Fiber α F)
    (s : Thread α F) : stateAt f { s with fibers := s.fibers.modify g change } = s.stateAt f := by
  rw [stateAt, List.getElem?_modify_ne _ _ other]
  rfl

theorem stateAt_swapContext (f : Nat) {oucp ucp : Nat} {after : Code α F}
    (swapped : s.swapContext oucp ucp after = some next) : next.stateAt f = s.stateAt f := by
  have kept : stateAt f { s with fibers := s.fibers.modify oucp fun fiber =>
      { fiber with ctx := ⟨s.stack, after⟩ } } = s.stateAt f := by
    by_cases same : oucp = f
    · subst same
      cases found : s.fibers[oucp]? with
      | none => simp [stateAt, found]
      | some fiber => simp [stateAt, found]
    · exact stateAt_modify_other same _ s
  unfold swapContext at swapped
  simp only at swapped
  split at swapped
  · cases swapped
  · cases swapped
    exact kept

theorem stateAt_swapOut (f g : Nat) {after : Code α F} (left : s.swapOut g after = some next) :
    next.stateAt f = s.stateAt f := by
  unfold swapOut at left
  split at left
  · cases left
  · have kept := stateAt_swapContext f left
    exact kept

theorem stateAt_yieldTo {f cur : Nat} (current : s.tFiber = some cur) (other : cur ≠ f)
    {state : FiberState} {after : Code α F} (taken : s.yieldTo state after = some next) :
    next.stateAt f = s.stateAt f := by
  simp only [yieldTo, getThis_current current] at taken
  split at taken
  · cases taken
  · split at taken
    · rw [stateAt_swapOut f cur taken]
      exact stateAt_modify_other other _ s
    · cases taken
      rfl

theorem stateAt_swapIn {f g : Nat} (other : g ≠ f) {after : Code α F}
    (called : s.swapIn g after = some next) : next.stateAt f = s.stateAt f := by
  unfold swapIn at called
  split at called
  · simp only at called
    split at called
    · cases called
      rfl
    · rw [stateAt_swapContext f called]
      exact stateAt_modify_other other _ _
  · cases called

theorem stateAt_reset {f : Nat} (stackless : ∀ fiber, s.fibers[f]? = some fiber → fiber.hasStack = false)
    {g : Nat} {cb : F} {after : Code α F} (done : s.reset g cb after = some next) :
    next.stateAt f = s.stateAt f := by
  unfold reset at done
  split at done
  · cases done
  · rename_i fiber found
    split at done
    · rename_i allowed
      cases done
      have other : g ≠ f := by
        rintro rfl
        rw [stackless fiber found] at allowed
        cases allowed.1
      exact stateAt_modify_other other _ s
    · cases done
      rfl

theorem stateAt_construct (d : Disciplined main children s) (cb : F) (after : Code α F) :
    (s.construct cb after).stateAt 0 = s.stateAt 0 := by
  simp [construct, stateAt, d.fibers]

theorem Disciplined.executing_main_iff (d : Disciplined main children s) :
    s.executing = s.tThreadFiber ↔ s.stack = none := by
  cases stack : s.stack with
  | none => simp [executing, stack]
  | some f =>
    have child := (d.running.child stack).1
    simp [executing, stack, d.threadFiber, child]

/-- An instruction leaves the state of the main fiber alone, unless it is a yield of it. -/
theorem Disciplined.exec_stateAt (d : Disciplined main children s) {instr : Instr α F} {after : Code α F}
    (child : instr = .yieldToHold ∨ instr = .yieldToReady → s.stack ≠ none)
    (callee : ∀ f, instr = .swapIn f → f ≠ 0) (taken : s.exec instr after = some (events, next)) :
    next.stateAt 0 = s.stateAt 0 := by
  obtain ⟨cur, current, here⟩ := d.executing_some
  have yields (state : FiberState) (inside : s.stack ≠ none) (result : Thread α F)
      (yielded : s.yieldTo state after = some result) : result.stateAt 0 = s.stateAt 0 := by
    have other : cur ≠ 0 := by
      rintro rfl
      rw [← d.threadFiber] at here
      exact inside (d.executing_main_iff.mp here)
    exact stateAt_yieldTo current other yielded
  cases instr with
  | act a =>
    cases taken
    rfl
  | yieldToHold =>
    obtain ⟨result, yielded, same⟩ := Option.map_eq_some_iff.mp taken
    cases same
    exact yields .hold (child (.inl rfl)) _ yielded
  | yieldToReady =>
    obtain ⟨result, yielded, same⟩ := Option.map_eq_some_iff.mp taken
    cases same
    exact yields .ready (child (.inr rfl)) _ yielded
  | swapOut =>
    obtain ⟨result, left, same⟩ := Option.map_eq_some_iff.mp taken
    cases same
    rw [getThis_current current] at left
    exact stateAt_swapOut 0 cur left
  | swapIn f =>
    obtain ⟨result, called, same⟩ := Option.map_eq_some_iff.mp taken
    cases same
    exact stateAt_swapIn (callee f rfl) called
  | reset f cb =>
    obtain ⟨result, done, same⟩ := Option.map_eq_some_iff.mp taken
    cases same
    apply stateAt_reset ?_ done
    intro fiber found
    rw [d.fibers] at found
    cases found
    exact d.noStack
  | create cb =>
    cases taken
    exact stateAt_construct d cb after

/-- The end of a callback changes the state of a child. -/
theorem stateAt_finish {f cur : Nat} (other : cur ≠ f) {ending : Ending}
    (finished : s.finish cur ending = some next) : next.stateAt f = s.stateAt f := by
  rw [finish_eq] at finished
  rw [stateAt_swapOut f cur finished]
  exact stateAt_modify_other other _ s

/-- So does a step of a run in which only the main fiber calls `swapIn`. -/
theorem Disciplined.step_stateAt {program : F → Callback α F} (d : Disciplined main children s)
    (swaps : s.Swaps) (inChild : s.YieldsInChild) (taken : s.step program = some (events, next)) :
    next.stateAt 0 = s.stateAt 0 := by
  have callee (f : Nat) (now : s.nextInstr = some (.swapIn f)) : f ≠ 0 := by
    rintro rfl
    obtain ⟨fromMain, other, _⟩ := swaps 0 now
    exact other (fromMain.trans d.threadFiber)
  have inside (instr : Instr α F) (now : s.nextInstr = some instr)
      (yields : instr = .yieldToHold ∨ instr = .yieldToReady) : s.stack ≠ none := by
    intro stack
    apply inChild ?_ (d.executing_main_iff.mpr stack)
    rcases yields with rfl | rfl
    · exact .inl now
    · exact .inr now
  unfold Thread.step at taken
  split at taken
  · rename_i instr rest code
    have now : s.nextInstr = some instr := by simp [nextInstr, code]
    exact d.exec_stateAt (inside instr now) (fun f same => callee f (same ▸ now)) taken
  · obtain ⟨result, entered, same⟩ := Option.map_eq_some_iff.mp taken
    cases same
    obtain ⟨f, current, _⟩ := d.executing_some
    simp only [enter, getThis_current current] at entered
    split at entered
    · cases entered
    · split at entered
      · cases entered
        rfl
      · cases entered
        rfl
  · rename_i cur instr rest ending code
    have now : s.nextInstr = some instr := by simp [nextInstr, code]
    exact d.exec_stateAt (inside instr now) (fun f same => callee f (same ▸ now)) taken
  · rename_i cur ending code
    obtain ⟨result, finished, same⟩ := Option.map_eq_some_iff.mp taken
    cases same
    exact stateAt_finish (d.running.child (d.running.callback code)).1 finished
  · cases taken
    rfl
  all_goals cases taken

/-- A yield of the main fiber in `EXEC` comes back to it with the state changed. -/
theorem Disciplined.yields_main (program : F → Callback α F) (d : Disciplined main children s)
    (stack : s.stack = none) (exec : main.state = .exec)
    (now : s.nextInstr = some .yieldToHold ∨ s.nextInstr = some .yieldToReady) :
    ∃ next, s.step program = some ([], next) ∧ ¬ next.MainExec := by
  have current : s.tFiber = some 0 := by
    rw [d.current, executing, stack]
    exact d.threadFiber
  -- the state that the yield sets stays
  have yielded (state : FiberState) (changed : state ≠ .exec) (after : Code α F) :
      ∃ next, s.yieldTo state after = some next ∧ ¬ next.MainExec := by
    have fibers : (s.setState 0 state).fibers = { main with state := state } :: children := by
      simp [setState, d.fibers]
    have found : s.fibers[0]? = some main := by simp [d.fibers]
    have left : s.yieldTo state after = (s.setState 0 state).swapOut 0 after := by
      simp only [Thread.yieldTo, getThis_current current, found, exec, if_true]
    rw [swapOut_main fibers d.threadFiber after] at left
    refine ⟨_, left, ?_⟩
    intro holds
    have here := holds (by simp [executing, setState, stack]) 0 _ d.threadFiber rfl
    exact changed here
  have running := d.running
  unfold Running at running
  simp only [stack] at running
  rcases running with ⟨rest, code⟩ | aborted
  · cases rest with
    | nil => simp [nextInstr, code] at now
    | cons instr rest =>
      have first : s.nextInstr = some instr := by simp [nextInstr, code]
      rw [first] at now
      simp only [Option.some.injEq] at now
      rcases now with rfl | rfl
      · obtain ⟨next, ran, left⟩ := yielded .hold (by simp) (.main rest)
        exact ⟨next, by rw [step_main code, Thread.exec, ran]; rfl, left⟩
      · obtain ⟨next, ran, left⟩ := yielded .ready (by simp) (.main rest)
        exact ⟨next, by rw [step_main code, Thread.exec, ran]; rfl, left⟩
  · simp [nextInstr, aborted] at now

theorem mainExec_of_stateAt (disciplined : ∃ main children, Disciplined main children s ∧ s.Busy)
    (exec : s.stateAt 0 = some .exec) : s.MainExec := by
  obtain ⟨main, children, d, _⟩ := disciplined
  intro _ f fiber threadFiber found
  cases d.threadFiber.symm.trans threadFiber
  simpa [stateAt, found] using exec

/-- A run as in `Asymmetric` in which the main fiber does not yield. -/
abbrev YieldFree (program : F → Callback α F) :=
  Reaches (step program) fun s : Thread α F => (s.Resumes ∧ s.FromMain) ∧ s.YieldsInChild

theorem YieldFree.mainExec {program : F → Callback α F} {instrs : List (Instr α F)}
    (reached : YieldFree program (create instrs) events s) : s.stateAt 0 = some .exec := by
  have kept (s : Thread α F) (events : List (Option Nat × α)) (next : Thread α F)
      (allowed : (s.Resumes ∧ s.FromMain) ∧ s.YieldsInChild)
      (before : (∃ main children, Disciplined main children s) ∧ s.stateAt 0 = some .exec)
      (taken : s.step program = some (events, next)) :
      (∃ main children, Disciplined main children next) ∧ next.stateAt 0 = some .exec := by
    obtain ⟨⟨main, children, d⟩, exec⟩ := before
    have swaps := allowed.1.1.swaps allowed.1.2
    obtain ⟨main', children', dNext, _⟩ := d.step swaps taken
    exact ⟨⟨main', children', dNext⟩, (d.step_stateAt swaps allowed.2 taken).trans exec⟩
  obtain ⟨main, d, _⟩ := create_disciplined instrs
  exact (reached.invariant kept ⟨⟨main, [], d⟩, rfl⟩).2

/-- The main fiber stays in `EXEC` in a run in which it does not yield itself; over all
runs of a program it does so exactly if it never yields; and where it is in `EXEC`, the
assertion of the yields holds of whatever fiber runs. -/
theorem main_exec_iff_yields_in_child (program : F → Callback α F) (instrs : List (Instr α F)) :
    (∀ events s, YieldFree program (create instrs) events s → s.MainExec) ∧
    ((∀ events s, Asymmetric program (create instrs) events s → s.MainExec) ↔
      ∀ events s, Asymmetric program (create instrs) events s → s.YieldsInChild) ∧
    ∀ events s, Asymmetric program (create instrs) events s → s.MainExec →
      ∀ fiber, s.fibers[s.getThis.1]? = some fiber → fiber.state = .exec := by
  refine ⟨?_, ⟨?_, ?_⟩, ?_⟩
  · intro events s ran
    have asymmetric : Asymmetric program (create instrs) events s := ran.strengthen fun _ _ _ allowed => allowed.1
    exact mainExec_of_stateAt asymmetric.disciplined (YieldFree.mainExec ran)
  · intro always events s ran now here
    obtain ⟨main, children, d, _⟩ := Asymmetric.disciplined ran
    have exec := always events s ran here 0 main d.threadFiber (by simp [d.fibers])
    obtain ⟨next, taken, broken⟩ := d.yields_main program (d.executing_main_iff.mp here) exec now
    have permitted : s.Resumes ∧ s.FromMain := by
      constructor
      · intro f called
        rcases now with yields | yields <;> cases yields.symm.trans called
      · intro f called
        exact here
    exact broken (always _ next (ran.trans (.single permitted taken)))
  · intro inChild events s ran
    have both : YieldFree program (create instrs) events s :=
      ran.strengthen fun events t ran allowed => ⟨allowed, inChild events t ran⟩
    exact mainExec_of_stateAt (Asymmetric.disciplined ran) (YieldFree.mainExec both)
  · intro events s ran exec fiber found
    obtain ⟨main, children, d, busy⟩ := Asymmetric.disciplined ran
    obtain ⟨f, current, here⟩ := d.executing_some
    rw [getThis_current current] at found
    cases stack : s.stack with
    | none =>
      have mainRuns := d.executing_main_iff.mpr stack
      exact exec mainRuns f fiber (mainRuns.symm.trans here) found
    | some k =>
      obtain ⟨running, present, state⟩ := busy k stack
      have same : k = f := by simpa [executing, stack] using here
      subst same
      cases present.symm.trans found
      exact state

def yieldingMain : List (Instr Unit Unit) := [.yieldToHold, .yieldToHold]

/-- The main fiber yields, goes on in state `HOLD`, and its next yield fails the assertion. -/
theorem main_yields_fails :
    ∃ events s, Asymmetric flatProgram (create yieldingMain) events s ∧ ¬ s.MainExec ∧
      ∃ next, s.step flatProgram = some ([], next) ∧ next.code = .aborted := by
  refine ⟨_, _, .head ⟨?_, ?_⟩ rfl (.refl _), ?_, _, rfl, rfl⟩
  · intro f now
    cases now
  · intro f now
    cases now
  · intro exec
    cases exec rfl 0 _ rfl rfl

end Thread

end Sylar
