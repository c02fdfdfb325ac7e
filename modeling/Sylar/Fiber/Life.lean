import Sylar.Fiber.Discipline

/-! The life of a child. What a thread knows of one is its state and the code with
which its stack goes on; a step of the thread is a turn of every child, and the code
of a child that does not execute follows from its state. -/
namespace Sylar

open Library

/-- An instruction that keeps control on the stack it is on. -/
def Instr.Local : Instr α F → Prop
  | .act _ | .reset _ _ | .create _ => True
  | _ => False

/-- The states in which a child leaves by a call. -/
inductive Parts : Instr α F → FiberState → Prop
  | hold : Parts .yieldToHold .hold
  | ready : Parts .yieldToReady .ready
  | exec : Parts .swapOut .exec

theorem Instr.cases (instr : Instr α F) :
    instr.Local ∨ (∃ state, Parts instr state) ∨ ∃ f, instr = .swapIn f := by
  cases instr with
  | act | reset | create => exact .inl trivial
  | yieldToHold => exact .inr (.inl ⟨_, .hold⟩)
  | yieldToReady => exact .inr (.inl ⟨_, .ready⟩)
  | swapOut => exact .inr (.inl ⟨_, .exec⟩)
  | swapIn f => exact .inr (.inr ⟨f, rfl⟩)

namespace Thread

variable {α : Type u} {F : Type v}

/-- A child's state, and the code that executes or is to execute on its stack. -/
def view (s : Thread α F) (k : Nat) : Option (FiberState × Code α F) :=
  s.fibers[k]?.map fun fiber => (fiber.state, if s.stack = some k then s.code else fiber.ctx.code)

/-- What a step can do to the child at position `k`. -/
inductive Turn (k : Nat) (s next : Thread α F) : Prop
  | stays (view : next.view k = s.view k) (before : s.stack ≠ some k) (away : next.stack ≠ some k)
  | created (before : s.view k = none) (after : next.view k = some (.init, .entry))
      (away : next.stack ≠ some k)
  | resumed (state : FiberState) (code : Code α F) (instr : s.nextInstr = some (.swapIn k))
      (waiting : state ≠ .exec) (outside : s.stack = none) (before : s.view k = some (state, code))
      (after : next.view k = some (.exec, code)) (here : next.stack = some k)
  | started (rest : List (Instr α F)) (ending : Ending) (code : s.code = .entry)
      (inside : s.stack = some k) (after : next.view k = some (.exec, .callback k rest ending))
      (here : next.stack = some k)
  | worked (instr : Instr α F) (rest : List (Instr α F)) (ending : Ending) (kept : instr.Local)
      (code : s.code = .callback k (instr :: rest) ending)
      (after : next.view k = some (.exec, .callback k rest ending)) (here : next.stack = some k)
  | parted (instr : Instr α F) (rest : List (Instr α F)) (ending : Ending) (state : FiberState)
      (parts : Parts instr state) (code : s.code = .callback k (instr :: rest) ending)
      (after : next.view k = some (state, .callback k rest ending)) (away : next.stack = none)
  | ended (ending : Ending) (code : s.code = .callback k [] ending)
      (after : next.view k = some (ending.state, .neverReach)) (away : next.stack = none)
  | renewed (state : FiberState) (code : Code α F) (cb : F) (instr : s.nextInstr = some (.reset k cb))
      (idle : state = .term ∨ state = .except ∨ state = .init) (inside : s.stack ≠ some k)
      (before : s.view k = some (state, code)) (after : next.view k = some (.init, .entry))
      (away : next.stack ≠ some k)
  | aborted (same : next = s.abort)

variable {main : Fiber α F} {children : List (Fiber α F)} {s next : Thread α F}
  {events : List (Option Nat × α)}

theorem view_away {k : Nat} {fiber : Fiber α F} (found : s.fibers[k]? = some fiber)
    (away : s.stack ≠ some k) : s.view k = some (fiber.state, fiber.ctx.code) := by
  simp [view, found, away]

theorem view_here {k : Nat} {fiber : Fiber α F} (found : s.fibers[k]? = some fiber)
    (here : s.stack = some k) : s.view k = some (fiber.state, s.code) := by
  simp [view, found, here]

/-- A child off the stack before and after, whose fiber is as before. -/
theorem Turn.away {k : Nat} (before : s.stack ≠ some k) (away : next.stack ≠ some k)
    (same : next.fibers[k]? = s.fibers[k]?) : Turn k s next := by
  refine .stays ?_ before away
  simp [view, same, before, away]

/-- An instruction that stays on its stack: the other children, and the executing one. -/
theorem Busy.turnLocal (busy : s.Busy) {instr : Instr α F}
    {after : Code α F} (kept : instr.Local) (now : s.nextInstr = some instr)
    (taken : s.exec instr after = some (events, next)) (k : Nat) :
    next = s.abort ∨
      (s.stack ≠ some k → Turn k s next) ∧
      (s.stack = some k → next.stack = some k ∧ next.view k = some (.exec, after)) := by
  cases instr with
  | act a =>
    cases taken
    refine .inr ⟨fun away => .away away away rfl, ?_⟩
    intro here
    obtain ⟨fiber, found, exec⟩ := busy k here
    refine ⟨here, (view_here (s := { s with code := after }) found here).trans ?_⟩
    rw [exec]
  | create cb =>
    cases taken
    refine .inr ⟨?_, ?_⟩
    · intro away
      by_cases new : k = s.fibers.length
      · have before : s.view k = none := by
          rw [view, new, List.getElem?_length]
          rfl
        refine .created before ?_ away
        exact view_away (s := s.construct cb after) (getElem?_allocated.mpr (.inr ⟨new, rfl⟩)) away
      · refine .away away away ?_
        apply Option.ext
        intro fiber
        rw [Thread.construct, getElem?_allocated]
        simp [new]
    · intro here
      obtain ⟨fiber, found, exec⟩ := busy k here
      have still : (s.construct cb after).fibers[k]? = some fiber :=
        getElem?_allocated.mpr (.inl found)
      refine ⟨here, (view_here still here).trans ?_⟩
      rw [exec]
      rfl
  | reset f cb =>
    obtain ⟨result, done, same⟩ := Option.map_eq_some_iff.mp taken
    cases same
    unfold Thread.reset at done
    split at done
    · cases done
    · rename_i target found
      split at done
      · rename_i allowed
        cases done
        refine .inr ⟨?_, ?_⟩
        · intro away
          by_cases same : f = k
          · subst same
            refine .renewed target.state target.ctx.code cb now allowed.2 away (view_away found away) ?_ away
            have reset : (s.fibers.modify f fun fiber =>
                { fiber with state := .init, cb := some cb, ctx := ⟨some f, .entry⟩ })[f]? =
                some ⟨.init, ⟨some f, .entry⟩, target.hasStack, some cb⟩ := by
              simp [found]
            exact view_away (s := { s with fibers := _, code := after }) reset away
          · refine .away away away ?_
            exact List.getElem?_modify_ne _ _ same
        · intro here
          obtain ⟨fiber, running, exec⟩ := busy k here
          -- the fiber that executes is not the one that is reset
          have other : f ≠ k := by
            rintro rfl
            cases running.symm.trans found
            rw [exec] at allowed
            simp at allowed
          refine ⟨here, (view_here (s := { s with fibers := _, code := after })
            ((List.getElem?_modify_ne _ _ other).trans running) here).trans ?_⟩
          rw [exec]
      · cases done
        exact .inl rfl
  | _ => cases kept

/-- The child that executes leaves with a new state and its code saved. -/
theorem Disciplined.viewLeft (d : Disciplined main children s) {f : Nat} (here : s.stack = some f)
    {fiber : Fiber α F} (found : s.fibers[f]? = some fiber) (change : Fiber α F → Fiber α F)
    (after : Code α F)
    (taken : { s with fibers := s.fibers.modify f change }.swapOut f after = some next) :
    next.stack = none ∧ next.view f = some ((change fiber).state, after) ∧
      ∀ k, k ≠ 0 → k ≠ f → Turn k s next := by
  obtain ⟨child, _, rest, saved⟩ := d.running.child here
  obtain ⟨g, rfl⟩ := Nat.exists_eq_succ_of_ne_zero child
  have present : children[g]? = some fiber := by simpa [d.fibers] using found
  have fibers : s.fibers.modify (g + 1) change = main :: children.modify g change := by
    rw [d.fibers, List.modify_succ_cons]
  have out := swapOut_child (s := { s with fibers := s.fibers.modify (g + 1) change }) fibers
    d.threadFiber g after
  cases taken.symm.trans out
  have outside : main.ctx.stack = none := by rw [saved]
  refine ⟨outside, ?_, ?_⟩
  · simp [view, present, outside]
  · intro k other apart
    obtain ⟨i, rfl⟩ := Nat.exists_eq_succ_of_ne_zero other
    have away : g ≠ i := fun same => apart (by rw [same])
    refine .away ?_ ?_ ?_
    · rw [here]
      simpa using away
    · rw [outside]
      simp
    · simp [d.fibers, List.getElem?_modify_ne _ _ away]

/-- The main fiber stays on its stack when it leaves. -/
theorem Disciplined.turnMain (d : Disciplined main children s) (outside : s.stack = none)
    (change : Fiber α F → Fiber α F) (after : Code α F)
    (taken : { s with fibers := s.fibers.modify 0 change }.swapOut 0 after = some next)
    {k : Nat} (child : k ≠ 0) : Turn k s next := by
  have fibers : s.fibers.modify 0 change = change main :: children := by
    rw [d.fibers, List.modify_zero_cons]
  have out := swapOut_main (s := { s with fibers := s.fibers.modify 0 change }) fibers d.threadFiber after
  cases taken.symm.trans out
  obtain ⟨i, rfl⟩ := Nat.exists_eq_succ_of_ne_zero child
  refine .away ?_ ?_ ?_
  · simp [outside]
  · simp [outside]
  · simp [d.fibers]

/-- A yield or a direct `swapOut`, with the state in which it leaves the fiber. -/
theorem Disciplined.turnParts (d : Disciplined main children s) (busy : s.Busy) {instr : Instr α F}
    {state : FiberState} (parts : Parts instr state) {after : Code α F}
    (taken : s.exec instr after = some (events, next)) :
    next = s.abort ∨
      (s.stack = none → ∀ k, k ≠ 0 → Turn k s next) ∧
      ∀ f, s.stack = some f → next.stack = none ∧ next.view f = some (state, after) ∧
        ∀ k, k ≠ 0 → k ≠ f → Turn k s next := by
  obtain ⟨f, current, here⟩ := d.executing_some
  have yields (state : FiberState) (taken : (s.yieldTo state after).map ([], ·) = some (events, next)) :
      next = s.abort ∨
        { s with fibers := s.fibers.modify f fun fiber => { fiber with state := state } }.swapOut f after =
          some next := by
    obtain ⟨result, yielded, same⟩ := Option.map_eq_some_iff.mp taken
    cases same
    simp only [Thread.yieldTo, getThis_current current] at yielded
    split at yielded
    · cases yielded
    · split at yielded
      · exact .inr yielded
      · cases yielded
        exact .inl rfl
  have leaves (change : Fiber α F → Fiber α F) (changed : ∀ fiber, fiber.state = .exec →
        (change fiber).state = state)
      (left : { s with fibers := s.fibers.modify f change }.swapOut f after = some next) :
      (s.stack = none → ∀ k, k ≠ 0 → Turn k s next) ∧
        ∀ f, s.stack = some f → next.stack = none ∧ next.view f = some (state, after) ∧
          ∀ k, k ≠ 0 → k ≠ f → Turn k s next := by
    constructor
    · intro outside k child
      have zero : f = 0 := by simpa [executing, outside, d.threadFiber, eq_comm] using here
      subst zero
      exact d.turnMain outside change after left child
    · intro g inside
      have same : g = f := by simpa [executing, inside] using here
      subst same
      obtain ⟨fiber, found, exec⟩ := busy g inside
      have result := d.viewLeft inside found change after left
      rwa [changed fiber exec] at result
  cases parts with
  | hold => exact (yields .hold taken).imp id (leaves _ fun _ _ => rfl)
  | ready => exact (yields .ready taken).imp id (leaves _ fun _ _ => rfl)
  | exec =>
    obtain ⟨result, left, same⟩ := Option.map_eq_some_iff.mp taken
    cases same
    rw [getThis_current current] at left
    refine .inr (leaves id (fun _ exec => exec) ?_)
    rw [List.modify_id]
    exact left

/-- `swapIn` of the main fiber on a child. -/
theorem Disciplined.turnCall (d : Disciplined main children s) {f : Nat} {rest : List (Instr α F)}
    (outside : s.stack = none) (now : s.nextInstr = some (.swapIn f)) (swaps : s.Swaps)
    (taken : s.swapIn f (.main rest) = some next) {k : Nat} (child : k ≠ 0) : Turn k s next := by
  obtain ⟨_, other, fiber, found, waiting⟩ := swaps f now
  cases f with
  | zero => simp [executing, outside, d.threadFiber] at other
  | succ g =>
    have present : children[g]? = some fiber := by simpa [d.fibers] using found
    obtain ⟨own, _⟩ := d.owned g fiber present
    cases taken.symm.trans (swapIn_child d.fibers d.threadFiber present waiting (.main rest))
    by_cases same : g + 1 = k
    · subst same
      refine .resumed fiber.state fiber.ctx.code now waiting outside (view_away found (by simp [outside])) ?_ own
      simp [view, present, own]
    · obtain ⟨i, rfl⟩ := Nat.exists_eq_succ_of_ne_zero child
      have apart : g ≠ i := fun equal => same (by rw [equal])
      refine .away ?_ ?_ ?_
      · simp [outside]
      · rw [own]
        simpa using apart
      · simp [d.fibers, List.getElem?_modify_ne _ _ apart]

/-- The begin of `MainFunc`. -/
theorem Disciplined.turnEntry {program : F → Callback α F} (d : Disciplined main children s) (busy : s.Busy)
    (code : s.code = .entry) (entered : s.enter program = some next) (k : Nat) : Turn k s next := by
  have running := d.running
  obtain ⟨f, current, here⟩ := d.executing_some
  have inside : s.stack = some f := by
    cases stack : s.stack with
    | none => simp [Running, stack, code] at running
    | some k => simpa [executing, stack] using here
  obtain ⟨fiber, found, exec⟩ := busy f inside
  have begun (rest : List (Instr α F)) (ending : Ending) :
      Turn k s { s with code := .callback f rest ending } := by
    by_cases same : f = k
    · subst same
      refine .started rest ending code inside ?_ inside
      exact (view_here (s := { s with code := .callback f rest ending }) found inside).trans (by rw [exec])
    · have away : s.stack ≠ some k := by simpa [inside] using same
      exact .away away away rfl
  simp only [enter, getThis_current current, found] at entered
  split at entered <;> cases entered
  all_goals exact begun _ _

/-- The end of a callback. -/
theorem Disciplined.turnFinish (d : Disciplined main children s) (busy : s.Busy) {cur : Nat} {ending : Ending}
    (code : s.code = .callback cur [] ending) (finished : s.finish cur ending = some next) {k : Nat}
    (child : k ≠ 0) : Turn k s next := by
  have inside := d.running.callback code
  obtain ⟨fiber, found, _⟩ := busy cur inside
  have leaves (change : Fiber α F → Fiber α F) (changed : (change fiber).state = ending.state)
      (left : { s with fibers := s.fibers.modify cur change }.swapOut cur .neverReach = some next) :
      Turn k s next := by
    obtain ⟨outside, after, others⟩ := d.viewLeft inside found change .neverReach left
    by_cases same : cur = k
    · subst same
      rw [changed] at after
      exact .ended ending code after outside
    · exact others k child (Ne.symm same)
  cases ending with
  | returns => exact leaves _ rfl finished
  | throws => exact leaves _ rfl finished

/-- Every step is a turn of every child. -/
theorem Disciplined.turn {program : F → Callback α F} (d : Disciplined main children s) (busy : s.Busy)
    (swaps : s.Swaps) (taken : s.step program = some (events, next)) {k : Nat} (child : k ≠ 0) :
    Turn k s next := by
  have running := d.running
  unfold Thread.step at taken
  split at taken
  · -- the thread's own function
    rename_i instr rest code
    have now : s.nextInstr = some instr := by simp [nextInstr, code]
    have outside : s.stack = none := by
      cases stack : s.stack with
      | none => rfl
      | some f => simpa [code, OwnCode] using (running.child stack).2.1
    rcases instr.cases with kept | ⟨state, parts⟩ | ⟨f, rfl⟩
    · rcases busy.turnLocal kept now taken k with same | ⟨others, _⟩
      · exact .aborted same
      · exact others (by simp [outside])
    · rcases d.turnParts busy parts taken with same | ⟨others, _⟩
      · exact .aborted same
      · exact others outside k child
    · obtain ⟨result, called, same⟩ := Option.map_eq_some_iff.mp taken
      cases same
      exact d.turnCall outside now swaps called child
  · -- the begin of `MainFunc`
    rename_i code
    obtain ⟨result, entered, same⟩ := Option.map_eq_some_iff.mp taken
    cases same
    exact d.turnEntry busy code entered k
  · -- inside a callback
    rename_i cur instr rest ending code
    have now : s.nextInstr = some instr := by simp [nextInstr, code]
    have inside := running.callback code
    have apart (other : cur ≠ k) : s.stack ≠ some k := by simpa [inside] using other
    rcases instr.cases with kept | ⟨state, parts⟩ | ⟨f, rfl⟩
    · rcases busy.turnLocal kept now taken k with same | ⟨others, own⟩
      · exact .aborted same
      · by_cases same : cur = k
        · subst same
          obtain ⟨here, after⟩ := own inside
          exact .worked instr rest ending kept code after here
        · exact others (apart same)
    · rcases d.turnParts busy parts taken with same | ⟨_, own⟩
      · exact .aborted same
      · obtain ⟨outside, after, others⟩ := own cur inside
        by_cases same : cur = k
        · subst same
          exact .parted instr rest ending state parts code after outside
        · exact others k child (Ne.symm same)
    · -- a child would be the caller
      have caller := (swaps f now).1
      simp only [executing, inside, d.threadFiber, Option.some.injEq] at caller
      exact absurd caller (running.child inside).1
  · -- the end of a callback
    rename_i cur ending code
    obtain ⟨result, finished, same⟩ := Option.map_eq_some_iff.mp taken
    cases same
    exact d.turnFinish busy code finished child
  · cases taken
    exact .aborted rfl
  all_goals cases taken

/-- Where the code of a child stands while it does not execute. -/
def Phase : FiberState → Code α F → Prop
  | .init, code => code = .entry
  | .hold, code | .ready, code | .exec, code => ∃ cur rest ending, code = .callback cur rest ending
  | .term, code | .except, code => code = .neverReach

/-- A child that does not execute stands where its state says. -/
def Settled (s : Thread α F) (k : Nat) : Prop :=
  s.stack ≠ some k → ∀ state code, s.view k = some (state, code) → Phase state code

theorem Turn.settled {k : Nat} (turn : Turn k s next) (settled : s.Settled k) : next.Settled k := by
  intro out state code found
  cases turn with
  | stays view before => exact settled before state code (view.symm.trans found)
  | created _ after =>
    cases found.symm.trans after
    rfl
  | resumed _ _ _ _ _ _ _ here => exact absurd here out
  | started _ _ _ _ _ here => exact absurd here out
  | worked _ _ _ _ _ _ here => exact absurd here out
  | parted instr rest ending state parts _ after =>
    cases found.symm.trans after
    cases parts with
    | hold | ready | exec => exact ⟨k, rest, ending, rfl⟩
  | ended ending _ after =>
    cases found.symm.trans after
    cases ending with
    | returns | throws => rfl
  | renewed _ _ _ _ _ _ _ after =>
    cases found.symm.trans after
    rfl
  | aborted same =>
    subst same
    have before : s.stack ≠ some k := out
    apply settled before state code
    simpa [view, abort, before] using found

/-- The last line of `MainFunc` is entered by a `swapIn` on a child that has finished. -/
theorem Disciplined.neverReach {program : F → Callback α F} (d : Disciplined main children s)
    (busy : s.Busy) (settled : ∀ k, k ≠ 0 → s.Settled k) (swaps : s.Swaps)
    (taken : s.step program = some (events, next)) (reached : next.code = .neverReach) :
    ∃ f fiber, s.nextInstr = some (.swapIn f) ∧ s.fibers[f]? = some fiber ∧
      (fiber.state = .term ∨ fiber.state = .except) := by
  obtain ⟨main', children', dNext, _, _⟩ := d.step swaps taken
  obtain ⟨k, inside⟩ : ∃ k, next.stack = some k := by
    cases stack : next.stack with
    | some k => exact ⟨k, rfl⟩
    | none =>
      have running := dNext.running
      simp [Running, stack, reached] at running
  have child := (dNext.running.child inside).1
  have code (state : FiberState) (code : Code α F) (after : next.view k = some (state, code)) :
      code = .neverReach := by
    rw [view, Option.map_eq_some_iff] at after
    obtain ⟨fiber, _, same⟩ := after
    rw [if_pos inside, reached] at same
    exact (congrArg Prod.snd same).symm
  cases d.turn busy swaps taken child with
  | stays _ _ away => exact absurd inside away
  | created _ _ away => exact absurd inside away
  | resumed state at_ instr waiting outside before after =>
    have stands := settled k child (by simp [outside]) state at_ before
    rw [code _ _ after] at stands
    obtain ⟨fiber, found, same⟩ := Option.map_eq_some_iff.mp before
    have same_state : fiber.state = state := congrArg Prod.fst same
    refine ⟨k, fiber, instr, found, ?_⟩
    rw [same_state]
    cases state with
    | term => exact .inl rfl
    | except => exact .inr rfl
    | init => cases stands
    | exec => exact absurd rfl waiting
    | hold | ready =>
      obtain ⟨_, _, _, same⟩ := stands
      cases same
  | started _ _ _ _ after => cases code _ _ after
  | worked _ _ _ _ _ after => cases code _ _ after
  | parted _ _ _ _ _ _ _ away => cases inside.symm.trans away
  | ended _ _ _ away => cases inside.symm.trans away
  | renewed _ _ _ _ _ _ _ _ away => exact absurd inside away
  | aborted same =>
    rw [same] at reached
    cases reached

/-- The `swapIn` of the next step is not on a child that has finished. -/
def Unfinished (s : Thread α F) : Prop :=
  ∀ f fiber, s.nextInstr = some (.swapIn f) → s.fibers[f]? = some fiber →
    fiber.state ≠ .term ∧ fiber.state ≠ .except

/-- A run in which every `swapIn` is a call of the main fiber on a child that passes
the assertion of `swapIn`. -/
abbrev Scheduled (program : F → Callback α F) := Reaches (step program) (Swaps : Thread α F → Prop)

/-- What such runs keep. -/
def Orderly (s : Thread α F) : Prop :=
  ∃ main children, Disciplined main children s ∧ s.Busy ∧ ∀ k, k ≠ 0 → s.Settled k

theorem create_orderly (instrs : List (Instr α F)) : (create instrs).Orderly := by
  obtain ⟨main, d, busy⟩ := create_disciplined instrs
  refine ⟨main, [], d, busy, ?_⟩
  intro k child _ state code found
  obtain ⟨g, rfl⟩ := Nat.exists_eq_succ_of_ne_zero child
  simp [view, d.fibers] at found

theorem Orderly.step {program : F → Callback α F} (orderly : s.Orderly) (swaps : s.Swaps)
    (taken : s.step program = some (events, next)) : next.Orderly := by
  obtain ⟨main, children, d, busy, settled⟩ := orderly
  obtain ⟨main', children', dNext, _, keeps⟩ := d.step swaps taken
  refine ⟨main', children', dNext, keeps busy, ?_⟩
  intro k child
  exact (d.turn busy swaps taken child).settled (settled k child)

theorem Scheduled.orderly {program : F → Callback α F} {instrs : List (Instr α F)}
    (reached : Scheduled program (create instrs) events s) : s.Orderly :=
  reached.invariant (fun _ _ _ swaps orderly taken => orderly.step swaps taken) (create_orderly instrs)

/-- A `swapIn` on a child that has finished goes on behind the last `swapOut`. -/
theorem Orderly.resumesFinished (program : F → Callback α F) (orderly : s.Orderly) (swaps : s.Swaps)
    {f : Nat} {fiber : Fiber α F} (now : s.nextInstr = some (.swapIn f))
    (found : s.fibers[f]? = some fiber) (finished : fiber.state = .term ∨ fiber.state = .except) :
    ∃ next, s.step program = some ([], next) ∧ next.code = .neverReach := by
  obtain ⟨main, children, d, busy, settled⟩ := orderly
  obtain ⟨caller, other, _⟩ := swaps f now
  have outside : s.stack = none := by
    cases stack : s.stack with
    | none => rfl
    | some k =>
      simp only [executing, stack, d.threadFiber, Option.some.injEq] at caller
      exact absurd caller (d.running.child stack).1
  obtain ⟨rest, code⟩ : ∃ rest, s.code = .main (.swapIn f :: rest) := by
    have running := d.running
    rw [Running, outside] at running
    rcases running with ⟨instrs, code⟩ | code
    · cases instrs <;> simp [nextInstr, code] at now
      exact ⟨_, by rw [code, now]⟩
    · simp [nextInstr, code] at now
  obtain ⟨next, taken, inside⟩ := d.calls program outside code swaps
  refine ⟨next, taken, ?_⟩
  have child : f ≠ 0 := by
    rintro rfl
    simp [executing, outside, d.threadFiber] at other
  have before : s.view f = some (fiber.state, fiber.ctx.code) := view_away found (by simp [outside])
  have stands : fiber.ctx.code = .neverReach := by
    have phase := settled f child (by simp [outside]) _ _ before
    rcases finished with state | state
    · rwa [state] at phase
    · rwa [state] at phase
  cases d.turn busy swaps taken child with
  | resumed _ _ _ _ _ same after =>
    cases before.symm.trans same
    obtain ⟨fiber', _, here⟩ := Option.map_eq_some_iff.mp after
    rw [if_pos inside] at here
    exact (congrArg Prod.snd here).trans stands
  | stays _ _ away => exact absurd inside away
  | created _ _ away => exact absurd inside away
  | started _ _ _ here => cases outside.symm.trans here
  | worked _ _ _ _ same => cases code.symm.trans same
  | parted _ _ _ _ _ _ _ away => cases inside.symm.trans away
  | ended _ _ _ away => cases inside.symm.trans away
  | renewed _ _ _ _ _ _ _ _ away => exact absurd inside away
  | aborted same =>
    rw [same] at inside
    cases outside.symm.trans inside

/-- The statement behind the last `swapOut` of `MainFunc` is not reached in a run whose
every `swapIn` is on a child that has not finished; and over all runs of a program it is
never reached exactly if every `swapIn` is so. -/
theorem never_reach_iff_unfinished (program : F → Callback α F) (instrs : List (Instr α F)) :
    (∀ events s, Reaches (step program) (fun t : Thread α F => t.Swaps ∧ t.Unfinished) (create instrs)
      events s → s.code ≠ .neverReach) ∧
    ((∀ events s, Scheduled program (create instrs) events s → s.code ≠ .neverReach) ↔
      ∀ events s, Scheduled program (create instrs) events s → s.Swaps → s.Unfinished) := by
  have kept (s : Thread α F) (events : List (Option Nat × α)) (next : Thread α F)
      (allowed : s.Swaps ∧ s.Unfinished) (before : s.Orderly ∧ s.code ≠ .neverReach)
      (taken : s.step program = some (events, next)) : next.Orderly ∧ next.code ≠ .neverReach := by
    refine ⟨before.1.step allowed.1 taken, ?_⟩
    intro reached
    obtain ⟨main, children, d, busy, settled⟩ := before.1
    obtain ⟨f, fiber, now, found, finished⟩ := d.neverReach busy settled allowed.1 taken reached
    rcases finished with state | state
    · exact (allowed.2 f fiber now found).1 state
    · exact (allowed.2 f fiber now found).2 state
  have reached (events : List (Option Nat × α)) (s : Thread α F)
      (ran : Reaches (step program) (fun t : Thread α F => t.Swaps ∧ t.Unfinished) (create instrs) events s) :
      s.Orderly ∧ s.code ≠ .neverReach :=
    ran.invariant kept ⟨create_orderly instrs, by simp [create, getThis]⟩
  refine ⟨fun events s ran => (reached events s ran).2, ?_, ?_⟩
  · intro never events s ran swaps f fiber now found
    by_contra not
    have finished : fiber.state = .term ∨ fiber.state = .except := by
      by_contra other
      exact not (not_or.mp other)
    obtain ⟨next, taken, code⟩ := ran.orderly.resumesFinished program swaps now found finished
    exact never _ next (ran.trans (.single swaps taken)) code
  · intro unfinished events s ran
    -- along the run the condition holds at every step
    have both : Reaches (step program) (fun t : Thread α F => t.Swaps ∧ t.Unfinished)
        (create instrs) events s := ran.strengthen fun events t ran swaps => ⟨swaps, unfinished events t ran swaps⟩
    exact (reached events s both).2

/-- A callback that returns at once. -/
def idleProgram : Unit → Callback Unit Unit := fun _ => ⟨[], .returns⟩

def twiceMain : List (Instr Unit Unit) := [.create (), .swapIn 1, .swapIn 1]

/-- The second call is on a fiber in state `TERM`; the assertion of `swapIn` holds and
that of the last line fails. -/
theorem finished_fiber_resumed :
    ∃ events s, Scheduled idleProgram (create twiceMain) events s ∧ s.code = .neverReach ∧
      ∃ next, s.step idleProgram = some ([], next) ∧ next.code = .aborted := by
  refine ⟨_, _, .head ?_ rfl (.head ?_ rfl (.head ?_ rfl (.head ?_ rfl (.head ?_ rfl (.refl _))))), rfl,
    _, rfl, rfl⟩
  · intro f now
    cases now
  · intro f now
    cases now
    exact ⟨rfl, by decide, _, rfl, by decide⟩
  · intro f now
    cases now
  · intro f now
    cases now
  · intro f now
    cases now
    exact ⟨rfl, by decide, _, rfl, by decide⟩

end Thread

end Sylar
