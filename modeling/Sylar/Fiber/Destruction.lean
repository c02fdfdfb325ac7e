import Sylar.Fiber.References

/-! When a fiber is destroyed. Over whole runs the use counts stay right, so that a
destructor finds an idle fiber; on the fiber's own stack it runs if a body ends that no
variable refers to. -/
namespace Sylar

open Library

namespace Counted

variable {F : Type v} {program : F → Callback RefOp F} {s next : Counted F} {events : List Destruction}

/-- What a run keeps. An aborted program does not count any more. -/
def Kept (s : Counted F) : Prop := s.thread.Orderly ∧ (s.thread.code ≠ .aborted → s.Accounted)

theorem create_kept (instrs : List (Instr RefOp F)) : (create instrs).Kept := by
  refine ⟨Thread.create_orderly instrs, fun _ => ⟨⟨rfl, ?_, ?_, List.nodup_nil, ?_⟩, ?_⟩⟩
  · intro k child n found
    obtain ⟨g, rfl⟩ := Nat.exists_eq_succ_of_ne_zero child
    simp [create] at found
  · intro k member
    cases member
  · intro entry member
    cases member
  · intro entry member
    cases member

theorem Kept.accounted (kept : s.Kept) (taken : s.step program = some (events, next)) : s.Accounted := by
  obtain ⟨ops, ran⟩ := step_thread taken
  apply kept.2
  intro aborted
  simp [Thread.step, aborted] at ran

theorem Kept.step (kept : s.Kept) (swaps : s.thread.Swaps)
    (taken : s.step program = some (events, next)) : next.Kept := by
  have acc := kept.accounted taken
  obtain ⟨first, s', ops, t, prepared, ran, _, rfl⟩ := step_cases taken
  refine ⟨?_, ?_⟩
  · rw [returned_thread]
    exact kept.1.step swaps ran
  · intro alive
    rw [returned_thread] at alive
    exact ((acc.before kept.1 swaps ran alive prepared).returned alive).1

/-- The destructors of children that a step runs are those that it runs before the
thread's own part. -/
theorem Kept.destructions (kept : s.Kept) (swaps : s.thread.Swaps)
    (taken : s.step program = some (events, next)) {e : Destruction} (member : e ∈ events)
    (child : e.fiber ≠ 0) :
    (e.state = .init ∨ e.state = .term ∨ e.state = .except) ∧
      (e.stack = some e.fiber →
        ∃ ending, s.thread.code = .callback e.fiber [] ending ∧ e.fiber ∉ s.held) := by
  have acc := kept.accounted taken
  obtain ⟨first, s', ops, t, prepared, ran, rfl, _⟩ := step_cases taken
  rcases List.mem_append.mp member with before | back
  · exact acc.destructions kept.1 prepared before child
  · by_cases alive : t.code = .aborted
    · rw [returned_aborted (s := { s' with thread := t }) alive] at back
      cases back
    · have main := ((acc.before kept.1 swaps ran alive prepared).returned alive).2 e back
      exact absurd main child

/-- When a body ends, a variable refers to its fiber. -/
def EndsHeld (s : Counted F) : Prop :=
  ∀ cur ending, s.thread.code = .callback cur [] ending → cur ∈ s.held

/-- A run in which every `swapIn` is a call of the main fiber on a child that passes
the assertion of `swapIn`. -/
abbrev Scheduled (program : F → Callback RefOp F) :=
  Reaches (step program) fun s : Counted F => s.thread.Swaps

theorem Scheduled.kept {instrs : List (Instr RefOp F)}
    (reached : Scheduled program (create instrs) events s) : s.Kept :=
  reached.invariant (fun _ _ _ swaps kept taken => kept.step swaps taken) (create_kept instrs)

/-- What holds of the destructors that each step runs holds of all that a run runs. -/
theorem destructions_run {allowed : Counted F → Prop} {property : Destruction → Prop}
    (swaps : ∀ t, allowed t → t.thread.Swaps)
    (steps : ∀ (t next : Counted F) lost, t.Kept → allowed t → t.step program = some (lost, next) →
      ∀ e ∈ lost, property e) {start : Counted F} (kept : start.Kept)
    (ran : Reaches (step program) allowed start events s) : ∀ e ∈ events, property e := by
  induction ran with
  | refl =>
    intro e member
    cases member
  | head permitted taken _ ih =>
    intro e member
    rcases List.mem_append.mp member with now | later
    · exact steps _ _ _ kept permitted taken e now
    · exact ih (kept.step (swaps _ permitted) taken) e later

/-- The end of a body is a step, and it destroys a fiber that no variable refers to. -/
theorem Kept.ends (kept : s.Kept) (program : F → Callback RefOp F) {cur : Nat} {ending : Ending}
    (code : s.thread.code = .callback cur [] ending) (unheld : cur ∉ s.held) :
    ∃ events next, s.step program = some (events, next) ∧ ∃ e ∈ events, e.Own := by
  have acc : s.Accounted := kept.2 (by simp [code])
  obtain ⟨main, children, d, busy, _⟩ := kept.1
  have stack := d.running.callback code
  have leaving : s.thread.Leaving := ⟨cur, [], ending, code, .inl rfl⟩
  obtain ⟨t, ran, _⟩ := d.returns program busy stack leaving
  have prepared : s.before = some ((s.setEnded cur ending).release cur) := by rw [before, code]
  obtain ⟨e, member, fiber, own⟩ := acc.ended kept.1 code unheld prepared
  have child : cur ≠ 0 := (d.running.child stack).1
  rw [← fiber] at own child
  exact ⟨_, _, step_eq prepared ran, e, List.mem_append_left _ member, child, own⟩

/-- A child's destructor does not run on its own stack in a run in which a variable refers
to a fiber whenever its body ends; and over all runs of a program it never does so exactly
if that is always the case. -/
theorem own_destruction_iff_end_unheld (program : F → Callback RefOp F) (instrs : List (Instr RefOp F)) :
    (∀ events s, Reaches (step program) (fun t : Counted F => t.thread.Swaps ∧ t.EndsHeld) (create instrs)
      events s → ∀ e ∈ events, ¬ e.Own) ∧
    ((∀ events s, Scheduled program (create instrs) events s → ∀ e ∈ events, ¬ e.Own) ↔
      ∀ events s, Scheduled program (create instrs) events s → s.EndsHeld) := by
  have held (events : List Destruction) (s : Counted F)
      (ran : Reaches (step program) (fun t : Counted F => t.thread.Swaps ∧ t.EndsHeld) (create instrs)
        events s) : ∀ e ∈ events, ¬ e.Own := by
    refine destructions_run (fun t allowed => allowed.1) ?_ (create_kept instrs) ran
    rintro t next lost kept ⟨swaps, ends⟩ taken e member ⟨child, own⟩
    obtain ⟨ending, code, unheld⟩ := (kept.destructions swaps taken member child).2 own
    exact unheld (ends _ ending code)
  refine ⟨held, ?_, ?_⟩
  · intro never events s ran cur ending code
    by_contra unheld
    obtain ⟨lost, next, taken, e, member, own⟩ := ran.kept.ends program code unheld
    have swaps : s.thread.Swaps := by
      intro f now
      simp [Thread.nextInstr, code] at now
    exact never _ next (ran.trans (.single swaps taken)) e (List.mem_append_right _ member) own
  · intro always events s ran
    exact held events s (ran.strengthen fun events t reached swaps => ⟨swaps, always events t reached⟩)

/-- The body drops the variable through which the main fiber called it. -/
def dropsProgram : Unit → Callback RefOp Unit := fun _ => ⟨[.act (.drop 1)], .returns⟩

def dropsMain : List (Instr RefOp Unit) := [.create (), .swapIn 1]

/-- The `cur.reset()` at the end of `MainFunc` releases the last reference. -/
theorem own_destruction_of_dropped :
    ∃ events s, Scheduled dropsProgram (create dropsMain) events s ∧ ⟨1, .term, some 1⟩ ∈ events := by
  refine ⟨_, _, .head ?_ rfl (.head ?_ rfl (.head ?_ rfl (.head ?_ rfl (.head ?_ rfl (.refl _))))),
    List.mem_singleton.mpr rfl⟩
  · intro f now
    cases now
  · intro f now
    cases now
    exact ⟨rfl, by decide, _, rfl, by decide⟩
  · intro f now
    cases now
  · intro f now
    cases now
  · intro f now
    cases now

/-- While the main fiber calls `swapIn` on children that wait, a child's destructor finds
it in state `INIT`, `TERM` or `EXCEPT`; a child that was started, has not finished and
does not execute is referred to from the frames on its stack. -/
theorem destructor_finds_idle (program : F → Callback RefOp F) (instrs : List (Instr RefOp F))
    (ran : Reaches (step program) (fun t : Counted F => t.thread.Resumes ∧ t.thread.FromMain)
      (create instrs) events s) :
    (∀ e ∈ events, e.fiber ≠ 0 → e.state = .init ∨ e.state = .term ∨ e.state = .except) ∧
    (s.thread.code ≠ .aborted → ∀ k fiber, k ≠ 0 → s.thread.fibers[k]? = some fiber →
      s.thread.stack ≠ some k → fiber.state = .exec ∨ fiber.state = .hold ∨ fiber.state = .ready →
      0 < s.frames k ∧ s.uses[k]? = some (s.held.count k + s.frames k)) := by
  have swaps : Scheduled program (create instrs) events s :=
    ran.strengthen fun _ t _ allowed => allowed.1.swaps allowed.2
  refine ⟨?_, ?_⟩
  · refine destructions_run (fun t allowed => allowed.1.swaps allowed.2) ?_ (create_kept instrs) ran
    intro t next lost kept allowed taken e member child
    exact (kept.destructions (allowed.1.swaps allowed.2) taken member child).1
  · intro alive k fiber child found away started
    have acc := swaps.kept.2 alive
    have bound : k < s.uses.length := by
      rw [acc.length]
      exact (List.getElem?_eq_some_iff.mp found).1
    have total := acc.balanced k child _ (List.getElem?_eq_getElem bound)
    refine ⟨?_, by rw [List.getElem?_eq_getElem bound, total]⟩
    by_contra none_left
    have idle := swaps.kept.1.idle child away found (by rw [frames] at none_left; omega)
    rcases started with state | state | state <;> simp [state] at idle

/-- A fiber that yields once and is dropped when it has finished. -/
def onceProgram : Unit → Callback RefOp Unit := fun _ => ⟨[.yieldToHold], .returns⟩

def onceMain : List (Instr RefOp Unit) := [.create (), .swapIn 1, .swapIn 1, .act (.drop 1)]

theorem destructor_finds_idle_once :
    ∃ (events : List Destruction) (s : Counted Unit), events = [⟨1, .term, none⟩] ∧
      s.thread.code = .main [] ∧ ∀ e ∈ events, e.fiber ≠ 0 → e.state = .init ∨ e.state = .term ∨ e.state = .except := by
  have reached : ∃ events s, Reaches (step onceProgram)
      (fun t : Counted Unit => t.thread.Resumes ∧ t.thread.FromMain) (create onceMain) events s ∧
      events = [⟨1, .term, none⟩] ∧ s.thread.code = .main [] := by
    refine ⟨_, _, .head ⟨?_, ?_⟩ rfl (.head ⟨?_, ?_⟩ rfl (.head ⟨?_, ?_⟩ rfl (.head ⟨?_, ?_⟩ rfl
      (.head ⟨?_, ?_⟩ rfl (.head ⟨?_, ?_⟩ rfl (.head ⟨?_, ?_⟩ rfl (.refl _))))))), rfl, rfl⟩
    all_goals
      intro f now
      cases now
    · exact ⟨by decide, _, rfl, .inl rfl⟩
    · rfl
    · exact ⟨by decide, _, rfl, .inr (.inl rfl)⟩
    · rfl
  obtain ⟨events, s, reached, events_eq, code⟩ := reached
  exact ⟨events, s, events_eq, code, (destructor_finds_idle onceProgram onceMain reached).1⟩

end Counted

end Sylar
