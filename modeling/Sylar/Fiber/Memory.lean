import Sylar.Fiber.Uses

/-! The memory of destroyed fibers. What `~Fiber` gives back may be used for something
else: no later step reads or writes it. -/
namespace Sylar

open Library

namespace Thread

variable {α : Type u} {F : Type v} {program : F → Callback α F} {s next : Thread α F} {k f : Nat}
  {junk : Fiber α F} {after : Code α F}

/-- The memory of the fiber at position `k` holds something else. -/
def overwrite (k : Nat) (junk : Fiber α F) (s : Thread α F) : Thread α F :=
  { s with fibers := s.fibers.set k junk }

@[simp] theorem overwrite_tFiber : (s.overwrite k junk).tFiber = s.tFiber := rfl

@[simp] theorem overwrite_tThreadFiber : (s.overwrite k junk).tThreadFiber = s.tThreadFiber := rfl

@[simp] theorem overwrite_stack : (s.overwrite k junk).stack = s.stack := rfl

@[simp] theorem overwrite_code : (s.overwrite k junk).code = s.code := rfl

@[simp] theorem overwrite_length : (s.overwrite k junk).fibers.length = s.fibers.length :=
  List.length_set

theorem overwrite_found (apart : f ≠ k) : (s.overwrite k junk).fibers[f]? = s.fibers[f]? :=
  List.getElem?_set_ne (Ne.symm apart)

theorem set_modify {β : Type u} (l : List β) (other : β) (change : β → β) (apart : f ≠ k) :
    (l.set k other).modify f change = (l.modify f change).set k other := by
  apply List.ext_getElem?
  intro i
  simp only [List.getElem?_modify, List.getElem?_set, List.length_modify]
  by_cases here : k = i
  · subst here
    simp [apart]
  · simp [here]

theorem overwrite_modify (change : Fiber α F → Fiber α F) (apart : f ≠ k) :
    { s.overwrite k junk with fibers := (s.overwrite k junk).fibers.modify f change } =
      { s with fibers := s.fibers.modify f change }.overwrite k junk := by
  simp only [overwrite, set_modify _ _ _ apart]

theorem overwrite_setState (state : FiberState) (apart : f ≠ k) :
    (s.overwrite k junk).setState f state = (s.setState f state).overwrite k junk :=
  overwrite_modify _ apart

theorem overwrite_swapContext {oucp ucp : Nat} (saved : oucp ≠ k) (loaded : ucp ≠ k) :
    (s.overwrite k junk).swapContext oucp ucp after =
      (s.swapContext oucp ucp after).map (overwrite k junk) := by
  simp only [swapContext, overwrite, set_modify _ _ _ saved, List.getElem?_set_ne (Ne.symm loaded)]
  split
  · rename_i missing
    simp only [missing, Option.map_none]
  · rename_i fiber found
    simp only [found, Option.map_some, overwrite]

theorem swapOut_from {main : Nat} (threadFiber : s.tThreadFiber = some main) :
    s.swapOut f after = { s with tFiber := some main }.swapContext f main after := by
  obtain ⟨fibers, tFiber, tThreadFiber, stack, code⟩ := s
  cases threadFiber
  rfl

theorem swapIn_found {main : Nat} (threadFiber : s.tThreadFiber = some main) {fiber : Fiber α F}
    (found : s.fibers[f]? = some fiber) :
    s.swapIn f after = if fiber.state = .exec then some { s with tFiber := some f }.abort
      else ({ s with tFiber := some f }.setState f .exec).swapContext main f after := by
  obtain ⟨fibers, tFiber, tThreadFiber, stack, code⟩ := s
  cases threadFiber
  simp only [swapIn, found]

section Main

variable {main : Nat} (threadFiber : s.tThreadFiber = some main) (mainApart : main ≠ k)

include threadFiber mainApart

theorem overwrite_swapOut (apart : f ≠ k) :
    (s.overwrite k junk).swapOut f after = (s.swapOut f after).map (overwrite k junk) := by
  rw [swapOut_from threadFiber, swapOut_from (s := s.overwrite k junk) threadFiber]
  exact overwrite_swapContext (s := { s with tFiber := some main }) apart mainApart

theorem overwrite_swapIn (apart : f ≠ k) :
    (s.overwrite k junk).swapIn f after = (s.swapIn f after).map (overwrite k junk) := by
  cases found : s.fibers[f]? with
  | none => simp only [swapIn, overwrite_found apart, found, Option.map_none]
  | some fiber =>
    rw [swapIn_found threadFiber found,
      swapIn_found (s := s.overwrite k junk) threadFiber ((overwrite_found apart).trans found)]
    split_ifs
    · rfl
    · rw [← overwrite_swapContext mainApart apart,
        ← overwrite_setState (s := { s with tFiber := some f }) .exec apart]
      rfl

theorem overwrite_yieldTo {cur : Nat} (current : s.tFiber = some cur) (apart : cur ≠ k) (state : FiberState) :
    (s.overwrite k junk).yieldTo state after = (s.yieldTo state after).map (overwrite k junk) := by
  simp only [yieldTo, getThis_current current, getThis_current (s := s.overwrite k junk) current,
    overwrite_found apart]
  cases s.fibers[cur]? with
  | none => rfl
  | some fiber =>
    by_cases exec : fiber.state = .exec
    · simp only [exec, if_true, overwrite_setState state apart]
      exact overwrite_swapOut (s := s.setState cur state) threadFiber mainApart apart
    · simp only [exec, if_false]
      rfl

theorem overwrite_finish (apart : f ≠ k) (ending : Ending) :
    (s.overwrite k junk).finish f ending = (s.finish f ending).map (overwrite k junk) := by
  rw [finish_eq, finish_eq, overwrite_modify _ apart]
  exact overwrite_swapOut (s := { s with fibers := s.fibers.modify f (ended ending) }) threadFiber mainApart apart

end Main

theorem overwrite_reset (apart : f ≠ k) (cb : F) :
    (s.overwrite k junk).reset f cb after = (s.reset f cb after).map (overwrite k junk) := by
  simp only [reset, overwrite_found apart]
  cases s.fibers[f]? with
  | none => rfl
  | some fiber =>
    simp only [overwrite, set_modify _ _ _ apart]
    split_ifs
    · rfl
    · rfl

theorem overwrite_construct (present : k < s.fibers.length) (cb : F) :
    (s.overwrite k junk).construct cb after = (s.construct cb after).overwrite k junk := by
  simp [construct, overwrite, List.set_append_left _ _ present]

theorem overwrite_enter {cur : Nat} (current : s.tFiber = some cur) (apart : cur ≠ k) :
    (s.overwrite k junk).enter program = (s.enter program).map (overwrite k junk) := by
  simp only [enter, getThis_current current, getThis_current (s := s.overwrite k junk) current,
    overwrite_found apart]
  cases s.fibers[cur]? with
  | none => rfl
  | some fiber =>
    obtain ⟨state, ctx, hasStack, cb⟩ := fiber
    cases cb with
    | none => rfl
    | some cb => rfl

/-- The next step of the thread has nothing to do with the fiber at position `k`: it is
neither the current one nor the main fiber, and no call goes to it. -/
structure Untouched (k : Nat) (s : Thread α F) : Prop where
  present : k < s.fibers.length
  current : ∃ cur, s.tFiber = some cur ∧ cur ≠ k
  threadFiber : ∃ main, s.tThreadFiber = some main ∧ main ≠ k
  swapIn : s.nextInstr ≠ some (.swapIn k)
  reset : ∀ cb, s.nextInstr ≠ some (.reset k cb)
  ended : ∀ ending, s.code ≠ .callback k [] ending

theorem Untouched.exec (untouched : s.Untouched k) {instr : Instr α F} (now : s.nextInstr = some instr) :
    (s.overwrite k junk).exec instr after =
      (s.exec instr after).map fun r => (r.1, r.2.overwrite k junk) := by
  obtain ⟨cur, current, apart⟩ := untouched.current
  obtain ⟨main, threadFiber, mainApart⟩ := untouched.threadFiber
  cases instr with
  | act a => rfl
  | create cb =>
    simp only [Thread.exec, overwrite_construct untouched.present, Option.map_some]
  | yieldToHold | yieldToReady =>
    simp only [Thread.exec, overwrite_yieldTo threadFiber mainApart current apart, Option.map_map]
    rfl
  | swapOut =>
    simp only [Thread.exec, getThis_current current, getThis_current (s := s.overwrite k junk) current,
      overwrite_swapOut threadFiber mainApart apart, Option.map_map]
    rfl
  | swapIn f =>
    have other : f ≠ k := fun same => untouched.swapIn (same ▸ now)
    simp only [Thread.exec, overwrite_swapIn threadFiber mainApart other, Option.map_map]
    rfl
  | reset f cb =>
    have other : f ≠ k := fun same => untouched.reset cb (same ▸ now)
    simp only [Thread.exec, overwrite_reset other, Option.map_map]
    rfl

/-- Such a step neither reads nor writes the memory of that fiber. -/
theorem Untouched.step (untouched : s.Untouched k) :
    (s.overwrite k junk).step program = (s.step program).map fun r => (r.1, r.2.overwrite k junk) := by
  obtain ⟨cur, current, apart⟩ := untouched.current
  obtain ⟨main, threadFiber, mainApart⟩ := untouched.threadFiber
  cases code : s.code with
  | main rest =>
    cases rest with
    | nil => simp only [Thread.step, overwrite_code, code, Option.map_none]
    | cons instr rest =>
      rw [step_main code, step_main (s := s.overwrite k junk) code]
      exact untouched.exec (by simp only [nextInstr, code])
  | entry =>
    rw [step_entry code, step_entry (s := s.overwrite k junk) code, overwrite_enter current apart]
    simp only [Option.map_map]
    rfl
  | callback owner rest ending =>
    cases rest with
    | nil =>
      have other : owner ≠ k := fun same => untouched.ended ending (same ▸ code)
      rw [step_finish code, step_finish (s := s.overwrite k junk) code,
        overwrite_finish threadFiber mainApart other]
      simp only [Option.map_map]
      rfl
    | cons instr rest =>
      rw [step_callback code, step_callback (s := s.overwrite k junk) code]
      exact untouched.exec (by simp only [nextInstr, code])
  | neverReach =>
    simp only [Thread.step, overwrite_code, code]
    rfl
  | constructed | aborted => simp only [Thread.step, overwrite_code, code, Option.map_none]

end Thread

namespace Counted

variable {F : Type v} {program : F → Callback RefOp F} {s next : Counted F} {events : List Destruction}
  {k f : Nat} {junk : Fiber RefOp F}

/-- The memory of the fiber at position `k` holds something else. -/
def overwrite (k : Nat) (junk : Fiber RefOp F) (s : Counted F) : Counted F :=
  { s with thread := s.thread.overwrite k junk }

section Freed

variable {s' : Counted F} {first : List Destruction}

theorem mem_beforeInstr {instr : Instr RefOp F} (prepared : s.beforeInstr instr = some (first, s'))
    {e : Destruction} (member : e ∈ first) :
    instr = .act (.drop e.fiber) ∧ e.stack = s.thread.stack ∧ e.fiber < s.thread.fibers.length := by
  cases instr with
  | act op =>
    cases op with
    | drop f =>
      obtain ⟨_, dropped⟩ := Option.ite_none_right_eq_some.mp prepared
      have lost : e ∈ ({ s with held := s.held.erase f }.release f).1 := by
        rw [Option.some.inj dropped]
        exact member
      obtain ⟨_, fiber, found, rfl⟩ := mem_release lost
      exact ⟨rfl, rfl, (List.getElem?_eq_some_iff.mp found).1⟩
    | copy f =>
      obtain ⟨_, same⟩ := Option.ite_none_right_eq_some.mp prepared
      cases same
      cases member
    | getThis =>
      cases prepared
      cases member
  | yieldToHold | yieldToReady | swapOut | create =>
    cases prepared
    cases member
  | swapIn f | reset f cb =>
    obtain ⟨_, same⟩ := Option.ite_none_right_eq_some.mp prepared
    cases same
    cases member

/-- A destructor runs on the stack that control is on, and no call is made in that step. -/
theorem mem_before (prepared : s.before = some (first, s')) {e : Destruction} (member : e ∈ first) :
    e.stack = s.thread.stack ∧ e.fiber < s.thread.fibers.length ∧
      s.thread.nextInstr ≠ some (.swapIn e.fiber) ∧ ∀ cb, s.thread.nextInstr ≠ some (.reset e.fiber cb) := by
  cases now : s.thread.nextInstr with
  | some instr =>
    rw [before_instr now] at prepared
    obtain ⟨rfl, stack, present⟩ := mem_beforeInstr prepared member
    exact ⟨stack, present, by simp, by simp⟩
  | none =>
    refine (and_assoc.mp ⟨?_, by simp, by simp⟩)
    cases code : s.thread.code with
    | callback cur rest ending =>
      cases rest with
      | cons => simp [Thread.nextInstr, code] at now
      | nil =>
        simp only [before, code, Option.some.injEq] at prepared
        have lost : e ∈ ((s.setEnded cur ending).release cur).1 := by
          rw [prepared]
          exact member
        obtain ⟨_, fiber, found, rfl⟩ := mem_release lost
        exact ⟨rfl, by simpa [setEnded] using (List.getElem?_eq_some_iff.mp found).1⟩
    | main rest =>
      cases rest with
      | cons => simp [Thread.nextInstr, code] at now
      | nil =>
        simp only [before, code] at prepared
        cases prepared
        cases member
    | constructed | entry | neverReach | aborted =>
      simp only [before, code] at prepared
      cases prepared
      cases member

/-- The thread's part of a step has nothing to do with a child that is destroyed before
it, be it in the same step. -/
theorem Sound.untouched (sound : s.Sound) (swaps : s.thread.Swaps) (ends : s.EndsHeld)
    (taken : s.step program = some (events, next)) (child : k ≠ 0)
    (gone : s.uses[k]? = some 0 ∨ k ∈ events.map Destruction.fiber) : s.thread.Untouched k := by
  have alive := Sound.alive taken
  have acc := sound.accounted alive
  obtain ⟨first, s', ops, t, prepared, ran, split, _⟩ := step_cases taken
  have facts : k < s.thread.fibers.length ∧ s.thread.stack ≠ some k ∧
      s.thread.nextInstr ≠ some (.swapIn k) ∧ ∀ cb, s.thread.nextInstr ≠ some (.reset k cb) := by
    rcases gone with dead | now
    · obtain ⟨unheld, away, _⟩ := acc.unreferenced child dead
      refine ⟨?_, ?_, ?_, ?_⟩
      · rw [← acc.length]
        exact (List.getElem?_eq_some_iff.mp dead).1
      · intro stack
        rcases sound.attended alive k stack with running | held
        · omega
        · exact unheld held
      · intro now
        exact unheld (called_held prepared (.inl now)).1
      · intro cb now
        exact unheld (called_held prepared (.inr ⟨cb, now⟩)).1
    · obtain ⟨e, member, rfl⟩ := List.mem_map.mp now
      have own := (Kept.destructions ⟨sound.orderly, sound.accounted⟩ swaps taken member child).2
      have inside : e ∈ first := by
        rw [split] at member
        rcases List.mem_append.mp member with before | back
        · exact before
        · by_cases aborted : t.code = .aborted
          · rw [returned_aborted (s := { s' with thread := t }) aborted] at back
            cases back
          · have main := ((acc.before sound.orderly swaps ran aborted prepared).returned aborted).2 e back
            exact absurd main child
      obtain ⟨stack, present, quiet⟩ := mem_before prepared inside
      refine ⟨present, ?_, quiet⟩
      rw [← stack]
      intro here
      obtain ⟨ending, code, unheld⟩ := own here
      exact unheld (ends _ ending code)
  obtain ⟨present, away, swapIn, reset⟩ := facts
  obtain ⟨cur, current, _, executing⟩ := sound.orderly.current
  obtain ⟨main, children, d, _⟩ := sound.orderly
  refine ⟨present, ⟨cur, current, ?_⟩, ⟨0, d.threadFiber, Ne.symm child⟩, swapIn, reset, ?_⟩
  · rintro rfl
    rcases executing with ⟨_, zero⟩ | stack
    · exact child zero
    · exact away stack
  · intro ending code
    exact away (d.running.callback code)

theorem overwrite_release (dead : s.uses[k]? = some 0) (f : Nat) :
    (s.overwrite k junk).release f = ((s.release f).1, (s.release f).2.overwrite k junk) := by
  by_cases apart : f = k
  · subst apart
    simp only [release, overwrite, dead]
  · simp only [release, overwrite, Thread.overwrite_found apart]
    rfl

theorem returned_alive (alive : s.thread.code ≠ .aborted) :
    s.returned = match s.yields.find? fun entry => entry.1 = s.thread.stack with
      | none => ([], s)
      | some entry => { s with yields := s.yields.erase entry }.release entry.2 := by
  unfold returned
  split
  · rename_i code
    exact absurd code alive
  · rename_i missing _
    rw [missing]
  · rename_i entry found _
    rw [found]

theorem overwrite_returned (dead : s.uses[k]? = some 0) :
    (s.overwrite k junk).returned = (s.returned.1, s.returned.2.overwrite k junk) := by
  by_cases aborted : s.thread.code = .aborted
  · rw [returned_aborted aborted, returned_aborted (s := s.overwrite k junk) aborted]
  · have same : (s.overwrite k junk).yields.find? (fun entry => entry.1 = (s.overwrite k junk).thread.stack) =
        s.yields.find? fun entry => entry.1 = s.thread.stack := rfl
    rw [returned_alive aborted, returned_alive (s := s.overwrite k junk) aborted, same]
    cases s.yields.find? fun entry => entry.1 = s.thread.stack with
    | none => rfl
    | some entry => exact overwrite_release (s := { s with yields := s.yields.erase entry }) dead entry.2

theorem overwrite_beforeInstr (same : (s.thread.overwrite k junk).getThis.1 = s.thread.getThis.1)
    (dead : s.uses[k]? = some 0) (instr : Instr RefOp F) :
    (s.overwrite k junk).beforeInstr instr =
      (s.beforeInstr instr).map fun r => (r.1, r.2.overwrite k junk) := by
  cases instr with
  | act op =>
    cases op with
    | copy f =>
      by_cases member : f ∈ s.held
      · simp only [beforeInstr, overwrite, member, if_true]
        rfl
      · simp only [beforeInstr, overwrite, member, if_false, Option.map_none]
    | drop f =>
      by_cases member : f ∈ s.held
      · simp only [beforeInstr, overwrite, member, if_true]
        exact congrArg some (overwrite_release (s := { s with held := s.held.erase f }) dead f)
      · simp only [beforeInstr, overwrite, member, if_false, Option.map_none]
    | getThis =>
      simp only [beforeInstr, overwrite, same]
      rfl
  | yieldToHold | yieldToReady =>
    simp only [beforeInstr, overwrite, same]
    rfl
  | swapOut => rfl
  | swapIn f | reset f cb =>
    by_cases member : f ∈ s.held
    · simp only [beforeInstr, overwrite, member, if_true]
      rfl
    · simp only [beforeInstr, overwrite, member, if_false, Option.map_none]
  | create cb =>
    simp only [beforeInstr, overwrite, Thread.overwrite_length]
    rfl

theorem overwrite_before (untouched : s.thread.Untouched k) (dead : s.uses[k]? = some 0) :
    (s.overwrite k junk).before = s.before.map fun r => (r.1, r.2.overwrite k junk) := by
  obtain ⟨cur, current, _⟩ := untouched.current
  have same : (s.thread.overwrite k junk).getThis.1 = s.thread.getThis.1 := by
    rw [Thread.getThis_current current, Thread.getThis_current (s := s.thread.overwrite k junk) current]
  cases now : s.thread.nextInstr with
  | some instr =>
    rw [before_instr now, before_instr (s := s.overwrite k junk) now]
    exact overwrite_beforeInstr same dead instr
  | none =>
    cases code : s.thread.code with
    | callback owner rest ending =>
      cases rest with
      | cons => simp [Thread.nextInstr, code] at now
      | nil =>
        have apart : owner ≠ k := fun here => untouched.ended ending (here ▸ code)
        have ended : (s.overwrite k junk).setEnded owner ending = (s.setEnded owner ending).overwrite k junk := by
          simp only [setEnded, overwrite, Thread.overwrite_modify _ apart]
        simp only [before, overwrite, Thread.overwrite_code, code, Option.map_some]
        exact congrArg some ((congrArg (release owner) ended).trans
          (overwrite_release (s := s.setEnded owner ending) dead owner))
    | main rest =>
      cases rest with
      | cons => simp [Thread.nextInstr, code] at now
      | nil =>
        simp only [before, overwrite, Thread.overwrite_code, code]
        rfl
    | entry =>
      simp only [before, overwrite, Thread.overwrite_code, code, same]
      rfl
    | constructed | neverReach | aborted =>
      simp only [before, overwrite, Thread.overwrite_code, code]
      rfl

/-- A step of a thread with other data where a destroyed fiber was. -/
theorem Sound.overwritten (sound : s.Sound) (swaps : s.thread.Swaps) (ends : s.EndsHeld)
    (taken : s.step program = some (events, next)) (child : k ≠ 0) (dead : s.uses[k]? = some 0)
    (junk : Fiber RefOp F) :
    (s.overwrite k junk).step program = some (events, next.overwrite k junk) ∧
      (s.overwrite k junk).thread.Swaps ∧ (s.overwrite k junk).EndsHeld := by
  have untouched := sound.untouched swaps ends taken child (.inl dead)
  have alive := Sound.alive taken
  obtain ⟨first, s', ops, t, prepared, ran, rfl, rfl⟩ := step_cases taken
  have dead' : s'.uses[k]? = some 0 := ((sound.change_before alive prepared).destroys.dead k).mpr (.inl dead)
  refine ⟨?_, ?_, ends⟩
  · have before : (s.overwrite k junk).before = some (first, s'.overwrite k junk) := by
      rw [overwrite_before untouched dead, prepared]
      rfl
    have after : (s.overwrite k junk).thread.step program = some (ops, t.overwrite k junk) := by
      rw [overwrite, untouched.step, ran]
      rfl
    have back : ({ s' with thread := t }.overwrite k junk).returned = _ := overwrite_returned dead'
    rw [step_eq before after]
    exact congrArg some (congrArg (fun r => (first ++ r.1, r.2)) back)
  · intro f now
    have other : f ≠ k := fun same => untouched.swapIn (same ▸ now)
    obtain ⟨caller, apart, fiber, found, waiting⟩ := swaps f now
    exact ⟨caller, apart, fiber, (Thread.overwrite_found other).trans found, waiting⟩

/-- What runs allow in which no fiber is destroyed on its own stack. -/
def Held (s : Counted F) : Prop := s.thread.Swaps ∧ s.EndsHeld

/-- In a run in which a variable refers to a fiber whenever its body ends, no step reads
or writes the memory of a child that has been destroyed, nor does the thread's part of the
very step that destroys it: with anything else in that memory, the run is the same. -/
theorem freed_memory_reusable (program : F → Callback RefOp F) (instrs : List (Instr RefOp F))
    (ran : Reaches (step program) Held (create instrs) events s) :
    (∀ lost next, s.Held → s.step program = some (lost, next) → ∀ k, k ≠ 0 →
      k ∈ (events ++ lost).map Destruction.fiber → ∀ junk,
      (s.thread.overwrite k junk).step program =
        (s.thread.step program).map fun r => (r.1, r.2.overwrite k junk)) ∧
    (∀ k, k ≠ 0 → k ∈ events.map Destruction.fiber → ∀ junk later final,
      Reaches (step program) Held s later final →
      Reaches (step program) Held (s.overwrite k junk) later (final.overwrite k junk)) := by
  have swaps (t : Counted F) (held : t.Held) : t.thread.Swaps := held.1
  have sound := ((create_sound instrs).run swaps ran).1
  refine ⟨?_, ?_⟩
  · intro lost next held taken k child gone junk
    rw [List.map_append, List.mem_append, Sound.destroyed swaps ran k] at gone
    exact (sound.untouched held.1 held.2 taken child gone).step
  · intro k child gone junk later final rest
    have dead := (Sound.destroyed swaps ran k).mp gone
    clear ran
    induction rest with
    | refl => exact .refl _
    | head permitted taken _ ih =>
      obtain ⟨same, swaps', ends'⟩ := sound.overwritten permitted.1 permitted.2 taken child dead junk
      have stays := ((sound.destroys permitted.1 taken).dead k).mpr (.inl dead)
      exact .head ⟨swaps', ends'⟩ same (ih (sound.step permitted.1 taken) stays)

/-- The thread goes on after it has dropped a fiber that has finished. -/
def goOnMain : List (Instr RefOp Unit) := onceMain ++ [.act .getThis, .create ()]

theorem freed_memory_reusable_goOn : ∃ events s later, ∃ final : Counted Unit,
    Reaches (step onceProgram) Held (create goOnMain) events s ∧ 1 ∈ events.map Destruction.fiber ∧
      final.thread.code = .main [] ∧
      ∀ junk, Reaches (step onceProgram) Held (s.overwrite 1 junk) later (final.overwrite 1 junk) := by
  have ran : ∃ events s later, ∃ final : Counted Unit,
      Reaches (step onceProgram) Held (create goOnMain) events s ∧ events = [⟨1, .term, none⟩] ∧
      Reaches (step onceProgram) Held s later final ∧ final.thread.code = .main [] := by
    refine ⟨_, _, _, _, .head ⟨fun f now => ?_, fun cur ending code => ?_⟩ rfl
      (.head ⟨fun f now => ?_, fun cur ending code => ?_⟩ rfl
      (.head ⟨fun f now => ?_, fun cur ending code => ?_⟩ rfl
      (.head ⟨fun f now => ?_, fun cur ending code => ?_⟩ rfl
      (.head ⟨fun f now => ?_, fun cur ending code => ?_⟩ rfl
      (.head ⟨fun f now => ?_, fun cur ending code => ?_⟩ rfl
      (.head ⟨fun f now => ?_, fun cur ending code => ?_⟩ rfl (.refl _))))))), rfl,
      .head ⟨fun f now => ?_, fun cur ending code => ?_⟩ rfl
      (.head ⟨fun f now => ?_, fun cur ending code => ?_⟩ rfl (.refl _)), rfl⟩
    all_goals first | cases now | cases code
    · exact ⟨rfl, by decide, _, rfl, by decide⟩
    · exact ⟨rfl, by decide, _, rfl, by decide⟩
    · exact List.mem_singleton.mpr rfl
  obtain ⟨events, s, later, final, ran, events_eq, rest, code⟩ := ran
  refine ⟨events, s, later, final, ran, by simp [events_eq], code, ?_⟩
  intro junk
  exact (freed_memory_reusable onceProgram goOnMain ran).2 1 (by decide) (by simp [events_eq]) junk later final rest

end Freed

end Counted

end Sylar
