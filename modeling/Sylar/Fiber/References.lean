import Sylar.Fiber.Frames

/-! Who keeps a fiber alive. `Fiber::ptr` counts its uses: in variables of the program,
in the frame of `MainFunc` and in those of the yields. The machine runs the thread and
counts with it; dropping the last use of a fiber runs its destructor, which is an event
that says on whose stack and in which state of the fiber. -/
namespace Sylar

open Library

/-- What a program does with `Fiber::ptr` between its calls on fibers. What a callback
captured is among its variables, and it drops these before it ends. -/
inductive RefOp where
  | copy (f : Nat)
  | drop (f : Nat)
  | getThis
  deriving DecidableEq, Repr

/-- `~Fiber`: the fiber, its `m_state`, and the stack that control is on. -/
structure Destruction where
  fiber : Nat
  state : FiberState
  stack : Option Nat
  deriving DecidableEq, Repr

/-- A child's destructor frees the stack that it runs on. -/
def Destruction.Own (e : Destruction) : Prop := e.fiber ≠ 0 ∧ e.stack = some e.fiber

/-- A thread with its use counts. `held` are the pointers in variables; `yields` are the
`cur` of the yields that have not returned, each with the stack that its frame is on. -/
structure Counted (F : Type v) where
  thread : Thread RefOp F
  uses : List Nat
  held : List Nat
  yields : List (Option Nat × Nat)

namespace Counted

variable {F : Type v}

def acquire (f : Nat) (s : Counted F) : Counted F := { s with uses := s.uses.modify f (· + 1) }

/-- One use less; the last one destroys the object. -/
def release (f : Nat) (s : Counted F) : List Destruction × Counted F :=
  let events :=
    match s.uses[f]?, s.thread.fibers[f]? with
    | some 1, some fiber => [⟨f, fiber.state, s.thread.stack⟩]
    | _, _ => []
  (events, { s with uses := s.uses.modify f (· - 1) })

/-- What an instruction does with references before the thread's own part. A call or a
copy needs a pointer to go through. -/
def beforeInstr (instr : Instr RefOp F) (s : Counted F) : Option (List Destruction × Counted F) :=
  let cur := s.thread.getThis.1
  match instr with
  | .act (.copy f) => if f ∈ s.held then some ([], { s with held := f :: s.held }.acquire f) else none
  | .act (.drop f) =>
    if f ∈ s.held then some ({ s with held := s.held.erase f }.release f) else none
  | .act .getThis => some ([], { s with held := cur :: s.held }.acquire cur)
  | .yieldToHold | .yieldToReady =>
    some ([], { s with yields := (s.thread.stack, cur) :: s.yields }.acquire cur)
  | .swapOut => some ([], s)
  | .swapIn f | .reset f _ => if f ∈ s.held then some ([], s) else none
  | .create _ => some ([], { s with uses := s.uses ++ [1], held := s.thread.fibers.length :: s.held })

/-- `MainFunc` has set the state in which it leaves. -/
def setEnded (cur : Nat) (ending : Ending) (s : Counted F) : Counted F :=
  { s with thread := { s.thread with fibers := s.thread.fibers.modify cur (Thread.ended ending) } }

/-- `MainFunc` takes its `cur` at the begin, and at the end it resets `cur` after it has
set the state and before the last `swapOut`, which goes through a plain pointer. -/
def before (s : Counted F) : Option (List Destruction × Counted F) :=
  match s.thread.code with
  | .main (instr :: _) | .callback _ (instr :: _) _ => s.beforeInstr instr
  | .callback cur [] ending => some ((s.setEnded cur ending).release cur)
  | .entry => some ([], s.acquire s.thread.getThis.1)
  | _ => some ([], s)

/-- A yield that control has come back to returns and drops its `cur`. -/
def returned (s : Counted F) : List Destruction × Counted F :=
  match s.thread.code, s.yields.find? fun entry => entry.1 = s.thread.stack with
  | .aborted, _ | _, none => ([], s)
  | _, some entry => { s with yields := s.yields.erase entry }.release entry.2

def step (program : F → Callback RefOp F) (s : Counted F) : Option (List Destruction × Counted F) := do
  let (events, s') ← s.before
  let (_, t) ← s.thread.step program
  let (more, next) := { s' with thread := t }.returned
  return (events ++ more, next)

/-- A thread that has called `GetThis`; `t_threadFiber` is the use of the main fiber. -/
def create (instrs : List (Instr RefOp F)) : Counted F := ⟨Thread.create instrs, [1], [], []⟩

@[simp] theorem release_thread (f : Nat) (s : Counted F) : (s.release f).2.thread = s.thread := rfl

@[simp] theorem release_held (f : Nat) (s : Counted F) : (s.release f).2.held = s.held := rfl

@[simp] theorem release_yields (f : Nat) (s : Counted F) : (s.release f).2.yields = s.yields := rfl

theorem returned_aborted {s : Counted F} (aborted : s.thread.code = .aborted) :
    s.returned = ([], s) := by
  rw [returned, aborted]

@[simp] theorem returned_thread (s : Counted F) : s.returned.2.thread = s.thread := by
  unfold returned
  split <;> rfl

variable {program : F → Callback RefOp F} {s next : Counted F} {events : List Destruction}

theorem step_eq {first : List Destruction} {s' : Counted F} {ops : List (Option Nat × RefOp)}
    {t : Thread RefOp F} (prepared : s.before = some (first, s'))
    (ran : s.thread.step program = some (ops, t)) :
    s.step program = some (first ++ { s' with thread := t }.returned.1, { s' with thread := t }.returned.2) := by
  rw [step, prepared, ran]
  rfl

/-- The three parts of a step. -/
theorem step_cases (taken : s.step program = some (events, next)) :
    ∃ first s' ops t, s.before = some (first, s') ∧ s.thread.step program = some (ops, t) ∧
      events = first ++ { s' with thread := t }.returned.1 ∧ next = { s' with thread := t }.returned.2 := by
  obtain ⟨⟨first, s'⟩, prepared, taken⟩ := Option.bind_eq_some_iff.mp taken
  obtain ⟨⟨ops, t⟩, ran, same⟩ := Option.bind_eq_some_iff.mp taken
  cases same
  exact ⟨first, s', ops, t, prepared, ran, rfl, rfl⟩

/-- The counting machine runs the thread. -/
theorem step_thread (taken : s.step program = some (events, next)) :
    ∃ ops, s.thread.step program = some (ops, next.thread) := by
  obtain ⟨first, s', ops, t, _, ran, _, rfl⟩ := step_cases taken
  refine ⟨ops, ?_⟩
  rw [returned_thread]
  exact ran

/-- The references in frames on the stack of a child; all of them lead to the child. -/
def frames (s : Counted F) (k : Nat) : Nat :=
  s.thread.mainCur k + (s.yields.map Prod.snd).count k

/-- The use count of a child is the number of its references in variables and frames. -/
structure Tallied (s : Counted F) : Prop where
  length : s.uses.length = s.thread.fibers.length
  balanced : ∀ k, k ≠ 0 → ∀ n, s.uses[k]? = some n → n = s.held.count k + s.frames k
  valid : ∀ k ∈ s.held, k < s.thread.fibers.length
  nodup : s.yields.Nodup
  suspended : ∀ entry ∈ s.yields, s.thread.Suspended entry

/-- Between two steps no yield is about to return. -/
structure Accounted (s : Counted F) : Prop extends Tallied s where
  away : ∀ entry ∈ s.yields, entry.1 ≠ s.thread.stack

theorem modify_balanced {uses : List Nat} {tally tally' : Nat → Nat}
    (balanced : ∀ k, k ≠ 0 → ∀ n, uses[k]? = some n → n = tally k) (f : Nat) (change : Nat → Nat)
    (here : f ≠ 0 → tally' f = change (tally f)) (others : ∀ k, k ≠ 0 → k ≠ f → tally' k = tally k) :
    ∀ k, k ≠ 0 → ∀ n, (uses.modify f change)[k]? = some n → n = tally' k := by
  intro k child n found
  rw [List.getElem?_modify] at found
  obtain ⟨before, present, rfl⟩ := Option.map_eq_some_iff.mp found
  by_cases same : f = k
  · subst same
    rw [if_pos rfl, here child, balanced f child before present]
  · rw [if_neg same, others k child (Ne.symm same)]
    exact balanced k child before present

/-- A destructor runs only if the last use is dropped. -/
theorem mem_release {f : Nat} {s : Counted F} {e : Destruction} (member : e ∈ (s.release f).1) :
    s.uses[f]? = some 1 ∧ ∃ fiber, s.thread.fibers[f]? = some fiber ∧
      e = ⟨f, fiber.state, s.thread.stack⟩ := by
  simp only [release] at member
  split at member
  · rename_i fiber last found
    exact ⟨last, fiber, found, List.mem_singleton.mp member⟩
  · cases member

/-- A yield that returns leaves `MainFunc` its reference. -/
theorem Tallied.returned {s : Counted F} (tallied : s.Tallied) (alive : s.thread.code ≠ .aborted) :
    s.returned.2.Accounted ∧ ∀ e ∈ s.returned.1, e.fiber = 0 := by
  unfold Counted.returned
  split
  · rename_i code
    exact absurd code alive
  · rename_i none_found _
    refine ⟨⟨tallied, ?_⟩, by simp⟩
    intro entry member same
    have absent := List.find?_eq_none.mp none_found entry member
    simp [same] at absent
  · rename_i entry found _
    have member := List.mem_of_find?_eq_some found
    have stack : entry.1 = s.thread.stack := by simpa using List.find?_some found
    have counted (k : Nat) : (s.yields.map Prod.snd).count k =
        ((s.yields.erase entry).map Prod.snd).count k + if entry.2 = k then 1 else 0 := by
      rw [((List.perm_cons_erase member).map Prod.snd).count_eq, List.map_cons, List.count_cons]
      simp
    have rest (other : Option Nat × Nat) (inside : other ∈ s.yields.erase entry) :
        other ∈ s.yields ∧ other ≠ entry :=
      ⟨List.mem_of_mem_erase inside, fun same => tallied.nodup.not_mem_erase (same ▸ inside)⟩
    refine ⟨⟨⟨?_, ?_, tallied.valid, tallied.nodup.erase entry, ?_⟩, ?_⟩, ?_⟩
    · simpa [release] using tallied.length
    · refine modify_balanced tallied.balanced entry.2 (· - 1) ?_ ?_
      · intro _
        simp only [frames, release_thread, release_held, release_yields, counted, if_true]
        omega
      · intro k _ other
        simp only [frames, counted, if_neg (Ne.symm other)]
        rfl
    · intro other inside
      exact tallied.suspended other (rest other inside).1
    · intro other inside same
      obtain ⟨old, apart⟩ := rest other inside
      -- the stack determines the frame of the yield on it
      have samePlace : other.1 = entry.1 := same.trans stack.symm
      apply apart
      rcases tallied.suspended other old with rfl | ⟨k, _, rfl, _⟩ <;>
        rcases tallied.suspended entry member with rfl | ⟨j, _, rfl, _⟩
      · rfl
      · cases samePlace
      · cases samePlace
      · cases samePlace
        rfl
    · intro e lost
      obtain ⟨last, fiber, _, rfl⟩ := mem_release lost
      rcases tallied.suspended entry member with rfl | ⟨k, child, rfl, cur⟩
      · rfl
      · have total := tallied.balanced k child 1 last
        rw [frames, cur, counted] at total
        simp at total
        omega

section Before

variable {s' : Counted F} {first : List Destruction} {ops : List (Option Nat × RefOp)}
  {t : Thread RefOp F}

/-- What is left to show of the counts after the thread's own part. -/
theorem Accounted.middle (acc : s.Accounted) (orderly : s.thread.Orderly) (swaps : s.thread.Swaps)
    (ran : s.thread.step program = some (ops, t)) (alive : t.code ≠ .aborted)
    {uses held : List Nat} {yields : List (Option Nat × Nat)}
    (length : uses.length = s.uses.length + Thread.made s.thread.nextInstr)
    (balanced : ∀ k, k ≠ 0 → ∀ n, uses[k]? = some n →
      n = held.count k + (t.mainCur k + (yields.map Prod.snd).count k))
    (valid : ∀ k ∈ held, k ∈ s.held ∨ k < s.thread.fibers.length + Thread.made s.thread.nextInstr)
    (more : yields = s.yields ∨
      ∃ cur, yields = (s.thread.stack, cur) :: s.yields ∧ t.Suspended (s.thread.stack, cur)) :
    Tallied ⟨t, uses, held, yields⟩ := by
  obtain ⟨f, current⟩ : ∃ f, s.thread.tFiber = some f := by
    obtain ⟨main, children, d, _⟩ := orderly
    obtain ⟨f, current, _⟩ := d.executing_some
    exact ⟨f, current⟩
  have longer := Thread.step_length current ran
  have kept (entry : Option Nat × Nat) (member : entry ∈ s.yields) : t.Suspended entry :=
    orderly.suspended swaps ran alive (acc.suspended entry member) (acc.away entry member)
  refine ⟨?_, balanced, ?_, ?_, ?_⟩
  · rw [length, acc.length, ← longer]
  · intro k member
    rw [longer]
    rcases valid k member with old | new
    · have bound := acc.valid k old
      omega
    · exact new
  · rcases more with rfl | ⟨cur, rfl, _⟩
    · exact acc.nodup
    · refine List.nodup_cons.mpr ⟨?_, acc.nodup⟩
      intro member
      exact acc.away _ member rfl
  · intro entry member
    rcases more with rfl | ⟨cur, rfl, here⟩
    · exact kept entry member
    · rcases List.mem_cons.mp member with rfl | old
      · exact here
      · exact kept entry old

/-- Nothing refers to the position of the next fiber. -/
theorem Accounted.unused (acc : s.Accounted) (child : s.uses.length ≠ 0) :
    s.thread.mainCur s.uses.length = 0 ∧ s.held.count s.uses.length = 0 ∧
      (s.yields.map Prod.snd).count s.uses.length = 0 := by
  have fresh : s.thread.mainCur s.uses.length = 0 := by
    simp [Thread.mainCur, Thread.view, acc.length]
  refine ⟨fresh, ?_, ?_⟩
  · apply List.count_eq_zero_of_not_mem
    intro member
    have bound := acc.valid _ member
    rw [acc.length] at bound
    omega
  · apply List.count_eq_zero_of_not_mem
    intro member
    obtain ⟨entry, inside, points⟩ := List.mem_map.mp member
    rcases acc.suspended entry inside with rfl | ⟨k, _, rfl, cur⟩
    · exact child points.symm
    · rw [← points] at fresh
      rw [fresh] at cur
      cases cur

/-- An instruction keeps the counts, up to the yield that it comes back to. -/
theorem Accounted.beforeInstr (acc : s.Accounted) (orderly : s.thread.Orderly) (swaps : s.thread.Swaps)
    (ran : s.thread.step program = some (ops, t)) (alive : t.code ≠ .aborted) {instr : Instr RefOp F}
    (now : s.thread.nextInstr = some instr) (prepared : s.beforeInstr instr = some (first, s')) :
    Tallied { s' with thread := t } := by
  have begun : s.thread.code ≠ .entry := by
    intro code
    simp [Thread.nextInstr, code] at now
  have goes (cur : Nat) (ending : Ending) : s.thread.code ≠ .callback cur [] ending := by
    intro code
    simp [Thread.nextInstr, code] at now
  have same {k : Nat} (child : k ≠ 0) : t.mainCur k = s.thread.mainCur k :=
    orderly.mainCur_same swaps ran alive begun goes child
  have started (k : Nat) (stack : s.thread.stack = some k) : k ≠ 0 ∧ s.thread.mainCur k = 1 :=
    orderly.mainCur_running now stack
  obtain ⟨cur, current, bound, executing⟩ := orderly.current
  have one : ∀ k, k ≠ 0 → ∀ n, s.uses[k]? = some n → n = s.held.count k + s.frames k := acc.balanced
  have idle (none_made : Thread.made (some instr) = 0) :
      Tallied ⟨t, s.uses, s.held, s.yields⟩ := by
    refine acc.middle orderly swaps ran alive (by rw [now, none_made]; rfl) ?_ (fun k => .inl) (.inl rfl)
    intro k child n found
    rw [one k child n found, frames, same child]
  have another (f : Nat) (inside : f < s.thread.fibers.length) (none_made : Thread.made (some instr) = 0) :
      Tallied ⟨t, s.uses.modify f (· + 1), f :: s.held, s.yields⟩ := by
    refine acc.middle orderly swaps ran alive ?_ (modify_balanced one f (· + 1) ?_ ?_) ?_ (.inl rfl)
    · simp [now, none_made]
    · intro child
      rw [frames, same child, List.count_cons_self]
      omega
    · intro k child other
      rw [frames, same child, List.count_cons_of_ne (Ne.symm other)]
    · intro k member
      rcases List.mem_cons.mp member with rfl | old
      · exact .inr (by omega)
      · exact .inl old
  have yields (none_made : Thread.made (some instr) = 0) :
      Tallied ⟨t, s.uses.modify cur (· + 1), s.held, (s.thread.stack, cur) :: s.yields⟩ := by
    refine acc.middle orderly swaps ran alive ?_ (modify_balanced one cur (· + 1) ?_ ?_) (fun k => .inl)
      (.inr ⟨cur, rfl, ?_⟩)
    · simp [now, none_made]
    · intro child
      rw [frames, same child, List.map_cons, List.count_cons_self]
      omega
    · intro k child other
      rw [frames, same child, List.map_cons, List.count_cons_of_ne (Ne.symm other)]
    · rcases executing with ⟨stack, zero⟩ | stack
      · rw [stack, zero]
        exact .inl rfl
      · obtain ⟨child, running⟩ := started cur stack
        rw [stack]
        exact .inr ⟨cur, child, rfl, (same child).trans running⟩
  cases instr with
  | act op =>
    cases op with
    | copy f =>
      obtain ⟨member, same⟩ := Option.ite_none_right_eq_some.mp prepared
      cases same
      exact another f (acc.valid f member) rfl
    | drop f =>
      obtain ⟨member, dropped⟩ := Option.ite_none_right_eq_some.mp prepared
      cases dropped
      suffices kept : Tallied ⟨t, s.uses.modify f (· - 1), s.held.erase f, s.yields⟩ from kept
      refine acc.middle orderly swaps ran alive ?_ (modify_balanced one f (· - 1) ?_ ?_) ?_ (.inl rfl)
      · simp [now, Thread.made]
      · intro child
        have positive := List.count_pos_iff.mpr member
        rw [frames, same child, List.count_erase_self]
        omega
      · intro k child other
        rw [frames, same child, List.count_erase_of_ne other]
      · intro k member
        exact .inl (List.mem_of_mem_erase member)
    | getThis =>
      cases prepared
      rw [Thread.getThis_current current]
      exact another cur bound rfl
  | yieldToHold | yieldToReady =>
    cases prepared
    rw [Thread.getThis_current current]
    exact yields rfl
  | swapOut =>
    cases prepared
    exact idle rfl
  | swapIn f | reset f cb =>
    obtain ⟨_, same⟩ := Option.ite_none_right_eq_some.mp prepared
    cases same
    exact idle rfl
  | create cb =>
    cases prepared
    suffices kept : Tallied ⟨t, s.uses ++ [1], s.thread.fibers.length :: s.held, s.yields⟩ from kept
    refine acc.middle orderly swaps ran alive ?_ ?_ ?_ (.inl rfl)
    · simp [now, Thread.made]
    · intro k child n found
      rw [same child]
      rcases getElem?_allocated.mp found with old | ⟨rfl, rfl⟩
      · have apart : k ≠ s.thread.fibers.length := by
          have bound := (List.getElem?_eq_some_iff.mp old).1
          rw [acc.length] at bound
          omega
        rw [one k child n old, List.count_cons_of_ne (Ne.symm apart)]
        rfl
      · obtain ⟨fresh, unheld, unyielded⟩ := acc.unused child
        rw [← acc.length, List.count_cons_self, fresh, unheld, unyielded]
    · intro k member
      rcases List.mem_cons.mp member with rfl | old
      · exact .inr (by simp [now, Thread.made])
      · exact .inl old

/-- Every step keeps the counts, up to the yield that it comes back to. -/
theorem Accounted.before (acc : s.Accounted) (orderly : s.thread.Orderly) (swaps : s.thread.Swaps)
    (ran : s.thread.step program = some (ops, t)) (alive : t.code ≠ .aborted)
    (prepared : s.before = some (first, s')) : Tallied { s' with thread := t } := by
  have one : ∀ k, k ≠ 0 → ∀ n, s.uses[k]? = some n → n = s.held.count k + s.frames k := acc.balanced
  unfold Counted.before at prepared
  split at prepared
  · rename_i code
    exact acc.beforeInstr orderly swaps ran alive (by simp [Thread.nextInstr, code]) prepared
  · rename_i code
    exact acc.beforeInstr orderly swaps ran alive (by simp [Thread.nextInstr, code]) prepared
  · rename_i cur ending code
    cases prepared
    suffices kept : Tallied ⟨t, s.uses.modify cur (· - 1), s.held, s.yields⟩ from kept
    refine acc.middle orderly swaps ran alive ?_ (modify_balanced one cur (· - 1) ?_ ?_) (fun k => .inl) (.inl rfl)
    · simp [Thread.nextInstr, code, Thread.made]
    · intro child
      rcases orderly.mainCur swaps ran alive child with ⟨entry, _⟩ | ⟨_, _, before, after⟩ | ⟨_, goes, _⟩
      · cases code.symm.trans entry
      · rw [frames, before, after]
        omega
      · exact absurd code (goes ending)
    · intro k child other
      rcases orderly.mainCur swaps ran alive child with ⟨entry, _⟩ | ⟨_, same, _⟩ | ⟨_, _, same⟩
      · cases code.symm.trans entry
      · cases code.symm.trans same
        exact absurd rfl other
      · rw [frames, same]
  · rename_i code
    cases prepared
    obtain ⟨cur, current, _, executing⟩ := orderly.current
    rw [Thread.getThis_current current]
    suffices kept : Tallied ⟨t, s.uses.modify cur (· + 1), s.held, s.yields⟩ from kept
    refine acc.middle orderly swaps ran alive ?_ (modify_balanced one cur (· + 1) ?_ ?_) (fun k => .inl) (.inl rfl)
    · simp [Thread.nextInstr, code, Thread.made]
    · intro child
      have stack : s.thread.stack = some cur := executing.resolve_left fun zero => child zero.2
      rcases orderly.mainCur swaps ran alive child with ⟨_, _, before, after⟩ | ⟨_, ended, _⟩ | ⟨out, _⟩
      · rw [frames, before, after]
        omega
      · cases code.symm.trans ended
      · exact absurd stack (out code)
    · intro k child other
      rcases orderly.mainCur swaps ran alive child with ⟨_, stack, _⟩ | ⟨_, ended, _⟩ | ⟨_, _, same⟩
      · rcases executing with ⟨outside, _⟩ | here
        · cases outside.symm.trans stack
        · cases here.symm.trans stack
          exact absurd rfl other
      · cases code.symm.trans ended
      · rw [frames, same]
  · rename_i notMain notCallback notEnded notEntry
    cases prepared
    -- the last line of `MainFunc` aborts, and nothing else is left to run
    unfold Thread.step at ran
    split at ran
    · rename_i code
      exact absurd code (notMain _ _)
    · rename_i code
      exact absurd code notEntry
    · rename_i code
      exact absurd code (notCallback _ _ _ _)
    · rename_i code
      exact absurd code (notEnded _ _)
    · cases ran
      exact absurd rfl alive
    all_goals cases ran

/-- The last use of a fiber is in a variable only if no frame holds it. -/
theorem Accounted.dropped (acc : s.Accounted) (orderly : s.thread.Orderly) {instr : Instr RefOp F}
    (now : s.thread.nextInstr = some instr) (prepared : s.beforeInstr instr = some (first, s'))
    {e : Destruction} (member : e ∈ first) (child : e.fiber ≠ 0) :
    (e.state = .init ∨ e.state = .term ∨ e.state = .except) ∧ e.stack ≠ some e.fiber := by
  cases instr with
  | act op =>
    cases op with
    | copy f =>
      obtain ⟨_, same⟩ := Option.ite_none_right_eq_some.mp prepared
      cases same
      cases member
    | getThis =>
      cases prepared
      cases member
    | drop f =>
      obtain ⟨inside, dropped⟩ := Option.ite_none_right_eq_some.mp prepared
      have lost : e ∈ ({ s with held := s.held.erase f }.release f).1 := by
        rw [Option.some.inj dropped]
        exact member
      obtain ⟨last, fiber, found, rfl⟩ := mem_release lost
      have total := acc.balanced f child 1 last
      have positive := List.count_pos_iff.mpr inside
      have none_left : s.thread.mainCur f = 0 := by
        rw [frames] at total
        omega
      have away : s.thread.stack ≠ some f := by
        intro stack
        have running := (orderly.mainCur_running now stack).2
        rw [none_left] at running
        cases running
      exact ⟨orderly.idle child away found none_left, away⟩
  | yieldToHold | yieldToReady | swapOut | create =>
    cases prepared
    cases member
  | swapIn f | reset f cb =>
    obtain ⟨_, same⟩ := Option.ite_none_right_eq_some.mp prepared
    cases same
    cases member

/-- What a destructor that a step runs finds: an idle fiber; and if control is on its
stack, then its body has just ended and no variable holds it. -/
theorem Accounted.destructions (acc : s.Accounted) (orderly : s.thread.Orderly)
    (prepared : s.before = some (first, s')) {e : Destruction} (member : e ∈ first) (child : e.fiber ≠ 0) :
    (e.state = .init ∨ e.state = .term ∨ e.state = .except) ∧
      (e.stack = some e.fiber →
        ∃ ending, s.thread.code = .callback e.fiber [] ending ∧ e.fiber ∉ s.held) := by
  unfold Counted.before at prepared
  split at prepared
  · rename_i code
    obtain ⟨idle, away⟩ := acc.dropped orderly (by simp [Thread.nextInstr, code]) prepared member child
    exact ⟨idle, fun own => absurd own away⟩
  · rename_i code
    obtain ⟨idle, away⟩ := acc.dropped orderly (by simp [Thread.nextInstr, code]) prepared member child
    exact ⟨idle, fun own => absurd own away⟩
  · rename_i cur ending code
    have lost : e ∈ ((s.setEnded cur ending).release cur).1 := by
      rw [Option.some.inj prepared]
      exact member
    obtain ⟨last, fiber, found, rfl⟩ := mem_release lost
    have total : 1 = s.held.count cur + s.frames cur := acc.balanced cur child 1 last
    rw [frames, orderly.mainCur_ended code] at total
    refine ⟨?_, fun _ => ⟨ending, code, ?_⟩⟩
    · simp only [setEnded, List.getElem?_modify, if_true] at found
      obtain ⟨before, _, rfl⟩ := Option.map_eq_some_iff.mp found
      cases ending with
      | returns => exact .inr (.inl rfl)
      | throws => exact .inr (.inr rfl)
    · intro inside
      have positive : 0 < s.held.count cur := List.count_pos_iff.mpr inside
      omega
  all_goals
    cases prepared
    cases member

/-- When a body ends that no variable refers to, `cur.reset()` destroys the fiber. -/
theorem Accounted.ended (acc : s.Accounted) (orderly : s.thread.Orderly) {cur : Nat} {ending : Ending}
    (code : s.thread.code = .callback cur [] ending) (unheld : cur ∉ s.held)
    (prepared : s.before = some (first, s')) : ∃ e ∈ first, e.fiber = cur ∧ e.stack = some cur := by
  obtain ⟨main, children, d, busy, _⟩ := orderly
  have stack := d.running.callback code
  obtain ⟨fiber, found, _⟩ := busy cur stack
  have child := (d.running.child stack).1
  have bound : cur < s.uses.length := by
    rw [acc.length]
    exact (List.getElem?_eq_some_iff.mp found).1
  have total := acc.balanced cur child _ (List.getElem?_eq_getElem bound)
  have outside : (s.yields.map Prod.snd).count cur = 0 := by
    apply List.count_eq_zero_of_not_mem
    intro member
    obtain ⟨entry, inside, points⟩ := List.mem_map.mp member
    rcases acc.suspended entry inside with rfl | ⟨k, _, rfl, _⟩
    · exact child points.symm
    · cases points
      exact acc.away _ inside stack.symm
  have orderly : s.thread.Orderly := ⟨main, children, d, busy, by assumption⟩
  rw [frames, orderly.mainCur_ended code, outside, List.count_eq_zero_of_not_mem unheld] at total
  have last : s.uses[cur]? = some 1 := by rw [List.getElem?_eq_getElem bound, total]
  have state : (s.thread.fibers.modify cur (Thread.ended ending))[cur]? = some (Thread.ended ending fiber) := by
    simp [found]
  rw [Counted.before, code] at prepared
  have result : ((s.setEnded cur ending).release cur).1 = first :=
    congrArg Prod.fst (Option.some.inj prepared)
  rw [← result]
  simp only [release, setEnded, last, state]
  exact ⟨_, List.mem_singleton.mpr rfl, rfl, stack⟩

end Before

end Counted

end Sylar
