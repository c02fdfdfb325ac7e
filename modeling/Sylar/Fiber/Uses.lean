import Sylar.Fiber.Destruction

/-! The use counts over whole runs. A step takes a count through a few changes, so that a
child is destroyed once, when nothing refers to it any more, and the main fiber is kept. -/
namespace Sylar

open Library

/-- What a part of a step does to the use counts, and what it destroys. -/
inductive UseChange (uses : List Nat) : List Destruction → List Nat → Prop
  | same : UseChange uses [] uses
  | acquired (f : Nat) (used : uses[f]? ≠ some 0) : UseChange uses [] (uses.modify f (· + 1))
  | dropped (f : Nat) (more : uses[f]? ≠ some 1) : UseChange uses [] (uses.modify f (· - 1))
  | destroyed (e : Destruction) (last : uses[e.fiber]? = some 1) :
      UseChange uses [e] (uses.modify e.fiber (· - 1))
  | created : UseChange uses [] (uses ++ [1])

/-- A fiber that is destroyed had a use before, has none from then on, and is not destroyed again. -/
structure Destroys (uses : List Nat) (events : List Destruction) (next : List Nat) : Prop where
  dead : ∀ k, next[k]? = some 0 ↔ uses[k]? = some 0 ∨ k ∈ events.map Destruction.fiber
  fresh : ∀ k, k ∈ events.map Destruction.fiber → uses[k]? ≠ some 0
  once : (events.map Destruction.fiber).Nodup

section Change

variable {uses next : List Nat} {events : List Destruction}

theorem Destroys.refl (uses : List Nat) : Destroys uses [] uses := by
  refine ⟨?_, ?_, List.nodup_nil⟩
  · intro k
    simp
  · intro k member
    cases member

theorem Destroys.trans {middle : List Nat} {first later : List Destruction} (front : Destroys uses first middle)
    (back : Destroys middle later next) : Destroys uses (first ++ later) next := by
  refine ⟨?_, ?_, ?_⟩
  · intro k
    rw [back.dead k, front.dead k, List.map_append, List.mem_append, or_assoc]
  · intro k member before
    rw [List.map_append, List.mem_append] at member
    rcases member with now | later
    · exact front.fresh k now before
    · exact back.fresh k later ((front.dead k).mpr (.inl before))
  · rw [List.map_append]
    refine List.nodup_append.mpr ⟨front.once, back.once, ?_⟩
    intro k now j later same
    subst same
    exact back.fresh k later ((front.dead k).mpr (.inr now))

theorem UseChange.destroys (change : UseChange uses events next) : Destroys uses events next := by
  cases change with
  | same => exact .refl uses
  | acquired f used =>
    refine ⟨?_, ?_, List.nodup_nil⟩
    · intro k
      simp only [List.getElem?_modify, List.map_nil, List.not_mem_nil, or_false]
      by_cases same : f = k
      · subst same
        simp [used]
      · simp [same]
    · intro k member
      cases member
  | dropped f more =>
    refine ⟨?_, ?_, List.nodup_nil⟩
    · intro k
      simp only [List.getElem?_modify, List.map_nil, List.not_mem_nil, or_false]
      by_cases same : f = k
      · subst same
        rcases found : uses[f]? with _ | n
        · simp
        · have above : n ≠ 1 := fun one => more (by rw [found, one])
          simp only [if_true, Option.map_some, Option.map_eq_map, Option.some.injEq]
          omega
      · simp [same]
    · intro k member
      cases member
  | destroyed e last =>
    refine ⟨?_, ?_, List.pairwise_singleton _ _⟩
    · intro k
      simp only [List.getElem?_modify, List.map_singleton, List.mem_singleton]
      by_cases same : e.fiber = k
      · subst same
        simp [last]
      · simp [same, Ne.symm same]
    · intro k member
      rw [List.map_singleton, List.mem_singleton] at member
      simp [member, last]
  | created =>
    refine ⟨?_, ?_, List.nodup_nil⟩
    · intro k
      simp only [List.map_nil, List.not_mem_nil, or_false]
      constructor
      · intro dead
        rcases getElem?_allocated.mp dead with old | ⟨_, fresh⟩
        · exact old
        · cases fresh
      · intro dead
        exact getElem?_allocated.mpr (.inl dead)
    · intro k member
      cases member

end Change

namespace Counted

variable {F : Type v} {program : F → Callback RefOp F} {s next : Counted F} {events : List Destruction}
  {k f : Nat}

/-- Only the last use that is dropped destroys. -/
theorem change_release (length : s.uses.length = s.thread.fibers.length) (f : Nat) :
    UseChange s.uses (s.release f).1 (s.release f).2.uses := by
  by_cases last : s.uses[f]? = some 1
  · have present : f < s.thread.fibers.length := by
      rw [← length]
      exact (List.getElem?_eq_some_iff.mp last).1
    simp only [release, last, List.getElem?_eq_getElem present]
    exact .destroyed ⟨f, s.thread.fibers[f].state, s.thread.stack⟩ last
  · have silent : (s.release f).1 = [] := by
      simp only [release]
      split
      · rename_i one _
        exact absurd one last
      · rfl
    rw [silent]
    exact .dropped f last

theorem change_returned (length : s.uses.length = s.thread.fibers.length) :
    UseChange s.uses s.returned.1 s.returned.2.uses := by
  unfold returned
  split
  · exact .same
  · exact .same
  · rename_i entry _ _
    exact change_release (s := { s with yields := s.yields.erase entry }) length entry.2

/-- Nothing refers to a child without uses. -/
theorem Accounted.unreferenced (acc : s.Accounted) (child : k ≠ 0) (dead : s.uses[k]? = some 0) :
    k ∉ s.held ∧ s.thread.mainCur k = 0 ∧ (s.yields.map Prod.snd).count k = 0 := by
  have total := acc.balanced k child 0 dead
  rw [frames] at total
  refine ⟨?_, by omega, by omega⟩
  intro member
  have positive := List.count_pos_iff.mpr member
  omega

/-- The child whose stack executes is referred to from its `MainFunc`, or through the
variable that it was called through. -/
def Attended (s : Counted F) : Prop :=
  ∀ k, s.thread.stack = some k → s.thread.mainCur k = 1 ∨ k ∈ s.held

/-- The uses of the main fiber: `t_threadFiber`, and those in variables and in yields on
the thread's own stack. -/
def MainKept (s : Counted F) : Prop :=
  s.uses[0]? = some (1 + s.held.count 0 + (s.yields.map Prod.snd).count 0)

structure Sound (s : Counted F) : Prop where
  orderly : s.thread.Orderly
  accounted : s.thread.code ≠ .aborted → s.Accounted
  attended : s.thread.code ≠ .aborted → s.Attended
  main : s.MainKept

@[simp] theorem returned_held (s : Counted F) : s.returned.2.held = s.held := by
  unfold returned
  split <;> rfl

theorem before_instr {instr : Instr RefOp F} (now : s.thread.nextInstr = some instr) :
    s.before = s.beforeInstr instr := by
  simp only [Thread.nextInstr] at now
  split at now
  · rename_i code
    cases now
    simp only [before, code]
  · rename_i code
    cases now
    simp only [before, code]
  · cases now


section Before

variable {s' : Counted F} {first : List Destruction}

/-- A call needs a variable to go through. -/
theorem called_held (prepared : s.before = some (first, s'))
    (now : s.thread.nextInstr = some (.swapIn k) ∨ ∃ cb, s.thread.nextInstr = some (.reset k cb)) :
    k ∈ s.held ∧ s' = s := by
  rcases now with now | ⟨cb, now⟩
  · rw [before_instr now] at prepared
    obtain ⟨member, same⟩ := Option.ite_none_right_eq_some.mp prepared
    cases same
    exact ⟨member, rfl⟩
  · rw [before_instr now] at prepared
    obtain ⟨member, same⟩ := Option.ite_none_right_eq_some.mp prepared
    cases same
    exact ⟨member, rfl⟩

/-- The fiber that executes has a use. -/
theorem Sound.currentUsed (sound : s.Sound) (alive : s.thread.code ≠ .aborted) :
    ∃ cur, s.thread.tFiber = some cur ∧ s.uses[cur]? ≠ some 0 := by
  obtain ⟨cur, current, _, executing⟩ := sound.orderly.current
  refine ⟨cur, current, ?_⟩
  intro dead
  by_cases child : cur = 0
  · have main := sound.main
    rw [MainKept, ← child, dead, Option.some.injEq] at main
    omega
  · obtain ⟨unheld, away, _⟩ := (sound.accounted alive).unreferenced child dead
    rcases executing with ⟨_, zero⟩ | stack
    · exact child zero
    · rcases sound.attended alive cur stack with running | held
      · omega
      · exact unheld held

theorem Sound.heldUsed (sound : s.Sound) (alive : s.thread.code ≠ .aborted) (member : f ∈ s.held) :
    s.uses[f]? ≠ some 0 := by
  intro dead
  by_cases child : f = 0
  · have main := sound.main
    rw [MainKept, ← child, dead, Option.some.injEq] at main
    omega
  · exact ((sound.accounted alive).unreferenced child dead).1 member

theorem Sound.change_beforeInstr (sound : s.Sound) (alive : s.thread.code ≠ .aborted) {instr : Instr RefOp F}
    (prepared : s.beforeInstr instr = some (first, s')) : UseChange s.uses first s'.uses := by
  obtain ⟨cur, current, used⟩ := sound.currentUsed alive
  cases instr with
  | act op =>
    cases op with
    | copy f =>
      obtain ⟨member, same⟩ := Option.ite_none_right_eq_some.mp prepared
      cases same
      exact .acquired f (sound.heldUsed alive member)
    | drop f =>
      obtain ⟨_, dropped⟩ := Option.ite_none_right_eq_some.mp prepared
      have change := change_release (s := { s with held := s.held.erase f }) (sound.accounted alive).length f
      rw [Option.some.inj dropped] at change
      exact change
    | getThis =>
      cases prepared
      rw [Thread.getThis_current current]
      exact .acquired cur used
  | yieldToHold | yieldToReady =>
    cases prepared
    rw [Thread.getThis_current current]
    exact .acquired cur used
  | swapOut =>
    cases prepared
    exact .same
  | swapIn f | reset f cb =>
    obtain ⟨_, same⟩ := Option.ite_none_right_eq_some.mp prepared
    cases same
    exact .same
  | create cb =>
    cases prepared
    exact .created

theorem Sound.change_before (sound : s.Sound) (alive : s.thread.code ≠ .aborted)
    (prepared : s.before = some (first, s')) : UseChange s.uses first s'.uses := by
  have acc := sound.accounted alive
  unfold Counted.before at prepared
  split at prepared
  · exact sound.change_beforeInstr alive prepared
  · exact sound.change_beforeInstr alive prepared
  · rename_i cur ending code
    have change := change_release (s := s.setEnded cur ending) (by simpa [setEnded] using acc.length) cur
    rw [Option.some.inj prepared] at change
    exact change
  · obtain ⟨cur, current, used⟩ := sound.currentUsed alive
    cases prepared
    rw [Thread.getThis_current current]
    exact .acquired cur used
  · cases prepared
    exact .same

theorem modify_first {uses : List Nat} {n : Nat} (found : uses[0]? = some n) (f : Nat) (change : Nat → Nat) :
    (uses.modify f change)[0]? = some (if f = 0 then change n else n) := by
  rw [List.getElem?_modify, found]
  split_ifs
  · rfl
  · rfl

theorem Sound.main_beforeInstr (sound : s.Sound) {instr : Instr RefOp F}
    (prepared : s.beforeInstr instr = some (first, s')) : s'.MainKept := by
  have found := sound.main
  obtain ⟨cur, current, bound, _⟩ := sound.orderly.current
  have count (f : Nat) : (f :: s.held).count 0 = s.held.count 0 + if f = 0 then 1 else 0 := by
    simp [List.count_cons]
  have yields : MainKept ({ s with yields := (s.thread.stack, cur) :: s.yields }.acquire cur) := by
    simp only [MainKept, acquire, modify_first found, List.map_cons, List.count_cons, beq_iff_eq, Option.some.injEq]
    split_ifs <;> omega
  cases instr with
  | act op =>
    cases op with
    | copy f =>
      obtain ⟨member, same⟩ := Option.ite_none_right_eq_some.mp prepared
      cases same
      simp only [MainKept, acquire, modify_first found, count, Option.some.injEq]
      split_ifs <;> omega
    | drop f =>
      obtain ⟨member, dropped⟩ := Option.ite_none_right_eq_some.mp prepared
      rw [← (Prod.mk.inj (Option.some.inj dropped)).2]
      simp only [MainKept, modify_first found, Option.some.injEq]
      by_cases main : f = 0
      · subst main
        have positive := List.count_pos_iff.mpr member
        rw [if_pos rfl, List.count_erase_self]
        omega
      · rw [if_neg main, List.count_erase_of_ne (Ne.symm main)]
    | getThis =>
      cases prepared
      rw [Thread.getThis_current current]
      simp only [MainKept, acquire, modify_first found, count, Option.some.injEq]
      split_ifs <;> omega
  | yieldToHold | yieldToReady =>
    cases prepared
    rw [Thread.getThis_current current]
    exact yields
  | swapOut =>
    cases prepared
    exact found
  | swapIn f | reset f cb =>
    obtain ⟨_, same⟩ := Option.ite_none_right_eq_some.mp prepared
    cases same
    exact found
  | create cb =>
    cases prepared
    have made : s.thread.fibers.length ≠ 0 := by omega
    have inside := (List.getElem?_eq_some_iff.mp found).1
    rw [MainKept, List.getElem?_append_left inside, found]
    simp [count, made]

theorem Sound.main_before (sound : s.Sound) (prepared : s.before = some (first, s')) : s'.MainKept := by
  have found := sound.main
  have other {cur : Nat} (stack : s.thread.stack = some cur) : cur ≠ 0 := by
    obtain ⟨_, _, d, _⟩ := sound.orderly
    exact (d.running.child stack).1
  unfold Counted.before at prepared
  split at prepared
  · exact sound.main_beforeInstr prepared
  · exact sound.main_beforeInstr prepared
  · rename_i cur ending code
    have child : cur ≠ 0 := by
      obtain ⟨_, _, d, _⟩ := sound.orderly
      exact other (d.running.callback code)
    rw [← (Prod.mk.inj (Option.some.inj prepared)).2]
    simp only [MainKept, setEnded, modify_first found, if_neg child]
  · rename_i code
    obtain ⟨cur, current, _, executing⟩ := sound.orderly.current
    have child : cur ≠ 0 := by
      rcases executing with ⟨outside, _⟩ | stack
      · obtain ⟨_, _, d, _⟩ := sound.orderly
        have running := d.running
        simp [Thread.Running, outside, code] at running
      · exact other stack
    cases prepared
    rw [Thread.getThis_current current]
    simp only [MainKept, acquire, modify_first found, if_neg child]
  · cases prepared
    exact found

theorem MainKept.returned (found : s.MainKept) : s.returned.2.MainKept := by
  unfold Counted.returned
  split
  · exact found
  · exact found
  · rename_i entry inside _
    have member := List.mem_of_find?_eq_some inside
    have counted : (s.yields.map Prod.snd).count 0 =
        ((s.yields.erase entry).map Prod.snd).count 0 + if entry.2 = 0 then 1 else 0 := by
      rw [((List.perm_cons_erase member).map Prod.snd).count_eq, List.map_cons, List.count_cons]
      simp
    rw [MainKept] at found
    simp only [MainKept, release, modify_first found, counted, Option.some.injEq]
    split_ifs <;> omega

end Before

theorem create_sound (instrs : List (Instr RefOp F)) : (create instrs).Sound := by
  obtain ⟨orderly, accounted⟩ := create_kept instrs
  refine ⟨orderly, accounted, ?_, rfl⟩
  intro _ k stack
  cases stack

theorem Sound.alive (taken : s.step program = some (events, next)) : s.thread.code ≠ .aborted := by
  obtain ⟨ops, ran⟩ := step_thread taken
  intro aborted
  simp [Thread.step, aborted] at ran

theorem Sound.step (sound : s.Sound) (swaps : s.thread.Swaps) (taken : s.step program = some (events, next)) :
    next.Sound := by
  have kept := Kept.step ⟨sound.orderly, sound.accounted⟩ swaps taken
  obtain ⟨first, s', ops, t, prepared, ran, _, rfl⟩ := step_cases taken
  have main : s'.MainKept := sound.main_before prepared
  refine ⟨kept.1, kept.2, ?_, MainKept.returned (s := { s' with thread := t }) main⟩
  intro alive k stack
  simp only [returned_thread, returned_held] at stack alive ⊢
  obtain ⟨main, children, d, busy, _⟩ := sound.orderly
  have child : k ≠ 0 := by
    obtain ⟨_, _, after, _⟩ := kept.1
    rw [returned_thread] at after
    exact (after.running.child stack).1
  cases d.turn busy swaps ran child with
  | stays _ _ away | created _ _ away | renewed _ _ _ _ _ _ _ _ away => exact absurd stack away
  | parted _ _ _ _ _ _ _ outside | ended _ _ _ outside => cases outside.symm.trans stack
  | resumed _ _ instr =>
    obtain ⟨held, rfl⟩ := called_held prepared (.inl instr)
    exact .inr held
  | started _ _ _ _ after | worked _ _ _ _ _ after =>
    left
    simp [Thread.mainCur, after]
  | aborted same =>
    rw [same] at alive
    exact absurd rfl alive

/-- One step: what it destroys had a use before it, and nothing is destroyed twice. -/
theorem Sound.destroys (sound : s.Sound) (swaps : s.thread.Swaps)
    (taken : s.step program = some (events, next)) : Destroys s.uses events next.uses := by
  have alive := Sound.alive taken
  have acc := sound.accounted alive
  obtain ⟨first, s', ops, t, prepared, ran, rfl, rfl⟩ := step_cases taken
  have front := (sound.change_before alive prepared).destroys
  by_cases aborted : t.code = .aborted
  · rw [returned_aborted (s := { s' with thread := t }) aborted]
    exact front.trans (.refl s'.uses)
  · have length := (acc.before sound.orderly swaps ran aborted prepared).length
    exact front.trans (change_returned (s := { s' with thread := t }) length).destroys

theorem Sound.run {allowed : Counted F → Prop} (swaps : ∀ t, allowed t → t.thread.Swaps) {start final : Counted F}
    (sound : start.Sound) (ran : Reaches (Counted.step program) allowed start events final) :
    final.Sound ∧ Destroys start.uses events final.uses := by
  induction ran with
  | refl s => exact ⟨sound, .refl s.uses⟩
  | head permitted taken _ ih =>
    obtain ⟨after, later⟩ := ih (sound.step (swaps _ permitted) taken)
    exact ⟨after, (sound.destroys (swaps _ permitted) taken).trans later⟩

/-- Over a whole run, a fiber is destroyed exactly if its last use has gone. -/
theorem Sound.destroyed {allowed : Counted F → Prop} (swaps : ∀ t, allowed t → t.thread.Swaps)
    {instrs : List (Instr RefOp F)} (ran : Reaches (Counted.step program) allowed (create instrs) events s)
    (k : Nat) : k ∈ events.map Destruction.fiber ↔ s.uses[k]? = some 0 := by
  rw [((create_sound instrs).run swaps ran).2.dead k]
  cases k <;> simp [create]

/-- The uses of a child that is there. -/
theorem Accounted.uses_eq (acc : s.Accounted) (child : k ≠ 0) (present : k < s.thread.fibers.length) :
    s.uses[k]? = some (s.held.count k + s.frames k) := by
  rw [← acc.length] at present
  rw [List.getElem?_eq_getElem present, acc.balanced k child _ (List.getElem?_eq_getElem present)]

/-- The frames of a child that does not execute: none exactly if it has not begun or
has finished. -/
theorem Sound.frames_idle (sound : s.Sound) (alive : s.thread.code ≠ .aborted) (child : k ≠ 0)
    {fiber : Fiber RefOp F} (found : s.thread.fibers[k]? = some fiber) (away : s.thread.stack ≠ some k) :
    s.frames k = 0 ↔ fiber.state = .init ∨ fiber.state = .term ∨ fiber.state = .except := by
  have acc := sound.accounted alive
  constructor
  · intro none_left
    rw [frames] at none_left
    exact sound.orderly.idle child away found (by omega)
  · intro idle
    obtain ⟨_, _, _, _, settled⟩ := sound.orderly
    have before := Thread.view_away found away
    have stands := settled k child away _ _ before
    have none_running : s.thread.mainCur k = 0 := by
      rcases idle with state | state | state <;>
        simp [state, Thread.Phase] at stands <;> simp [Thread.mainCur, before, stands]
    have none_yielding : (s.yields.map Prod.snd).count k = 0 := by
      apply List.count_eq_zero_of_not_mem
      intro member
      obtain ⟨entry, inside, points⟩ := List.mem_map.mp member
      rcases acc.suspended entry inside with rfl | ⟨j, _, rfl, running⟩
      · exact child points.symm
      · have points : j = k := points
        rw [points, none_running] at running
        cases running
    rw [frames, none_running, none_yielding]

/-- A fiber is destroyed at most once in a run, the main fiber never, and a child has been
destroyed exactly if no variable and no frame on its own stack refers to it. When the thread's
function has ended and no variable is left, the children that live on are those suspended
in their callback. -/
theorem destroyed_once (program : F → Callback RefOp F) (instrs : List (Instr RefOp F))
    (ran : Scheduled program (create instrs) events s) :
    (events.map Destruction.fiber).Nodup ∧ 0 ∉ events.map Destruction.fiber ∧
    (s.thread.code ≠ .aborted → ∀ k, k ≠ 0 → k < s.thread.fibers.length →
      (k ∈ events.map Destruction.fiber ↔ k ∉ s.held ∧ s.frames k = 0)) ∧
    (s.thread.code = .main [] → s.held = [] → ∀ k fiber, k ≠ 0 → s.thread.fibers[k]? = some fiber →
      (k ∉ events.map Destruction.fiber ↔
        fiber.state = .hold ∨ fiber.state = .ready ∨ fiber.state = .exec)) := by
  obtain ⟨sound, destroys⟩ := (create_sound instrs).run (fun _ allowed => allowed) ran
  have exactly (alive : s.thread.code ≠ .aborted) (k : Nat) (child : k ≠ 0)
      (present : k < s.thread.fibers.length) :
      k ∈ events.map Destruction.fiber ↔ k ∉ s.held ∧ s.frames k = 0 := by
    rw [Sound.destroyed (fun _ allowed => allowed) ran k, (sound.accounted alive).uses_eq child present,
      ← List.count_eq_zero]
    simp only [Option.some.injEq]
    omega
  refine ⟨destroys.once, ?_, exactly, ?_⟩
  · rw [Sound.destroyed (fun _ allowed => allowed) ran 0, sound.main, Option.some.injEq]
    omega
  intro code unheld k fiber child found
  have alive : s.thread.code ≠ .aborted := by simp [code]
  have away : s.thread.stack ≠ some k := by
    intro stack
    obtain ⟨_, _, d, _⟩ := sound.orderly
    have own := (d.running.child stack).2.1
    simp [code, Thread.OwnCode] at own
  rw [exactly alive k child (List.getElem?_eq_some_iff.mp found).1, unheld,
    sound.frames_idle alive child found away]
  cases fiber.state <;> simp
/-- The thread drops a fiber that is suspended. -/
def leakMain : List (Instr RefOp Unit) := [.create (), .swapIn 1, .act (.drop 1)]

theorem destroyed_once_leak : ∃ events s, Scheduled onceProgram (create leakMain) events s ∧
    s.thread.code = .main [] ∧ 1 ∉ events.map Destruction.fiber := by
  have ran : ∃ events s fiber, Scheduled onceProgram (create leakMain) events s ∧
      s.thread.code = .main [] ∧ s.held = [] ∧ s.thread.fibers[1]? = some fiber ∧ fiber.state = .hold := by
    refine ⟨_, _, _, .head ?_ rfl (.head ?_ rfl (.head ?_ rfl (.head ?_ rfl (.head ?_ rfl (.refl _))))),
      rfl, rfl, rfl, rfl⟩
    all_goals
      intro f now
      cases now
    exact ⟨rfl, by decide, _, rfl, by decide⟩
  obtain ⟨events, s, fiber, ran, code, unheld, found, held⟩ := ran
  exact ⟨events, s, ran, code,
    ((destroyed_once onceProgram leakMain ran).2.2.2 code unheld 1 fiber (by decide) found).mpr (.inl held)⟩

end Counted

end Sylar
