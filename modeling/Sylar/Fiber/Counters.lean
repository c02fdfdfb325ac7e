import Mathlib.Algebra.BigOperators.Group.Finset.Basic
import Mathlib.Data.Fintype.Basic
import Sylar.Library.Machine
import Sylar.Fiber.Uses

/-! Fibers of several threads. The threads share two counters: `s_fiber_id`, which gives
every child its id, and `s_fiber_count`, which constructors and destructors keep. Each
change of a counter is a step of its own, in any order with what other threads do. -/
namespace Sylar

open Library

/-- How many fibers have a use. -/
def live (uses : List Nat) : Nat := uses.countP (· ≠ 0)

theorem live_modify {uses : List Nat} {f n : Nat} (found : uses[f]? = some n) (change : Nat → Nat) :
    live (uses.modify f change) + (if n ≠ 0 then 1 else 0) = live uses + (if change n ≠ 0 then 1 else 0) := by
  induction uses generalizing f with
  | nil => cases found
  | cons head rest ih =>
    cases f with
    | zero =>
      cases found
      simp only [live, List.modify_zero_cons, List.countP_cons]
      simp
      omega
    | succ f =>
      have later := ih found
      simp only [live, List.modify_succ_cons, List.countP_cons] at later ⊢
      omega

theorem modify_missing {uses : List Nat} {f : Nat} (missing : uses[f]? = none) (change : Nat → Nat) :
    uses.modify f change = uses := by
  apply List.ext_getElem?
  intro i
  rw [List.getElem?_modify]
  split_ifs with here
  · subst here
    rw [missing]
    rfl
  · simp

/-- Fibers are constructed with a use, and destroyed with their last one. -/
theorem UseChange.live {uses next : List Nat} {events : List Destruction} (change : UseChange uses events next) :
    live next + events.length + uses.length = live uses + next.length := by
  cases change with
  | same => rfl
  | acquired f used =>
    rw [List.length_modify]
    cases found : uses[f]? with
    | none => simp [modify_missing found]
    | some n =>
      have total := live_modify found (· + 1)
      have positive : n ≠ 0 := fun zero => used (by rw [found, zero])
      simp only [List.length_nil]
      split_ifs at total <;> omega
  | dropped f more =>
    rw [List.length_modify]
    cases found : uses[f]? with
    | none => simp [modify_missing found]
    | some n =>
      have total := live_modify found (· - 1)
      have above : n ≠ 1 := fun one => more (by rw [found, one])
      simp only [List.length_nil]
      split_ifs at total <;> omega
  | destroyed e last =>
    rw [List.length_modify]
    have total := live_modify last (· - 1)
    simp only [List.length_singleton]
    simp at total
    omega
  | created =>
    simp [Sylar.live]
    omega

namespace Counted

variable {F : Type v} {program : F → Callback RefOp F} {s next : Counted F} {events : List Destruction}

/-- Only a construction makes a count. -/
theorem before_length {s' : Counted F} {first : List Destruction} (prepared : s.before = some (first, s')) :
    s'.uses.length = s.uses.length + Thread.made s.thread.nextInstr := by
  cases now : s.thread.nextInstr with
  | some instr =>
    rw [before_instr now] at prepared
    cases instr with
    | act op =>
      cases op with
      | copy f =>
        obtain ⟨_, done⟩ := Option.ite_none_right_eq_some.mp prepared
        rw [← (Prod.mk.inj (Option.some.inj done)).2]
        simp [acquire, Thread.made]
      | drop f =>
        obtain ⟨_, done⟩ := Option.ite_none_right_eq_some.mp prepared
        rw [← (Prod.mk.inj (Option.some.inj done)).2]
        simp [Thread.made]
      | getThis =>
        cases prepared
        simp [acquire, Thread.made]
    | yieldToHold | yieldToReady | swapOut | create =>
      cases prepared
      simp [acquire, Thread.made]
    | swapIn f | reset f cb =>
      obtain ⟨_, same⟩ := Option.ite_none_right_eq_some.mp prepared
      cases same
      simp [Thread.made]
  | none =>
    cases code : s.thread.code with
    | main rest =>
      cases rest with
      | cons => simp [Thread.nextInstr, code] at now
      | nil =>
        simp only [before, code] at prepared
        cases prepared
        simp [Thread.made]
    | callback cur rest ending =>
      cases rest with
      | cons => simp [Thread.nextInstr, code] at now
      | nil =>
        simp only [before, code] at prepared
        rw [← (Prod.mk.inj (Option.some.inj prepared)).2]
        simp [setEnded, Thread.made]
    | constructed | entry | neverReach | aborted =>
      simp only [before, code] at prepared
      cases prepared
      simp [acquire, Thread.made]

theorem returned_length (s : Counted F) : s.returned.2.uses.length = s.uses.length := by
  unfold returned
  split
  · rfl
  · rfl
  · simp [release]

theorem step_uses (taken : s.step program = some (events, next)) :
    next.uses.length = s.uses.length + Thread.made s.thread.nextInstr := by
  obtain ⟨first, s', ops, t, prepared, _, _, rfl⟩ := step_cases taken
  have longer := before_length prepared
  rw [returned_length]
  exact longer

/-- One step of a thread: constructions and destructions account for the fibers in use. -/
theorem Sound.lives (sound : s.Sound) (swaps : s.thread.Swaps) (taken : s.step program = some (events, next)) :
    live next.uses + events.length = live s.uses + Thread.made s.thread.nextInstr := by
  have alive := Sound.alive taken
  have acc := sound.accounted alive
  have longer := step_uses taken
  obtain ⟨first, s', ops, t, prepared, ran, rfl, rfl⟩ := step_cases taken
  have front := (sound.change_before alive prepared).live
  by_cases aborted : t.code = .aborted
  · rw [returned_aborted (s := { s' with thread := t }) aborted] at longer ⊢
    simp only [List.append_nil] at longer ⊢
    omega
  · have length := (acc.before sound.orderly swaps ran aborted prepared).length
    have back := (change_returned (s := { s' with thread := t }) length).live
    simp only [List.length_append] at front back longer ⊢
    omega

end Counted

/-- What a constructor or the destructor of `Fiber` does to the counters. -/
inductive CountOp where
  /-- `m_id(++s_fiber_id)` -/
  | nextId
  /-- `++s_fiber_count` -/
  | construct
  /-- `--s_fiber_count` -/
  | destruct
  deriving DecidableEq, Repr

/-- The counters, and the threads that have called `GetThis`, each with the `m_id` of its
fibers by position and what its last step still has to do to the counters. -/
structure FiberThreads (T : Type u) (F : Type v) where
  fiberId : Nat
  fiberCount : Nat
  thread : T → Option (Counted F)
  ids : T → List Nat
  owed : T → List CountOp

/-- Whose step is next: the first `GetThis` of a thread, an instruction, or one that changes
a counter. -/
inductive FiberMove (T : Type u) where
  | getThis (t : T)
  | work (t : T)
  | count (t : T)

namespace FiberThreads

variable {T : Type u} {F : Type v} [DecidableEq T]

def create : FiberThreads T F := ⟨0, 0, fun _ => none, fun _ => [], fun _ => []⟩

/-- The counters have 64 bits. -/
def perform (t : T) (s : FiberThreads T F) : CountOp → FiberThreads T F
  | .nextId =>
    let id := (s.fiberId + 1) % 2 ^ 64
    { s with fiberId := id, ids := Function.update s.ids t (s.ids t ++ [id]) }
  | .construct => { s with fiberCount := (s.fiberCount + 1) % 2 ^ 64 }
  | .destruct => { s with fiberCount := if s.fiberCount = 0 then 2 ^ 64 - 1 else s.fiberCount - 1 }

/-- What an instruction does to the counters. -/
def owes (instr : Option (Instr RefOp F)) (lost : List Destruction) : List CountOp :=
  (match instr with
    | some (.create _) => [.nextId, .construct]
    | _ => []) ++ lost.map fun _ => .destruct

def step (program : F → Callback RefOp F) (main : T → List (Instr RefOp F)) (s : FiberThreads T F) :
    FiberMove T → Option (List (T × Destruction) × FiberThreads T F)
  | .getThis t =>
    match s.thread t with
    | some _ => none
    | none => some ([], { s with
        thread := Function.update s.thread t (some (.create (main t)))
        ids := Function.update s.ids t [0]
        owed := Function.update s.owed t [.construct] })
  | .work t =>
    match s.thread t, s.owed t with
    | some c, [] =>
      match c.step program with
      | none => none
      | some (lost, next) => some (lost.map fun e => (t, e), { s with
          thread := Function.update s.thread t (some next)
          owed := Function.update s.owed t (owes c.thread.nextInstr lost) })
    | _, _ => none
  | .count t =>
    match s.owed t with
    | [] => none
    | op :: rest => some ([], { s.perform t op with owed := Function.update s.owed t rest })

/-- `TotalFibers` -/
def totalFibers (s : FiberThreads T F) : Nat := s.fiberCount

/-- `GetFiberId` on a thread. -/
def getFiberId (s : FiberThreads T F) (t : T) : Nat :=
  match (s.thread t).bind fun c => c.thread.tFiber with
  | some f => ((s.ids t)[f]?).getD 0
  | none => 0

/-- A `swapIn` is called by the main fiber of its thread, on a child that passes the assertion. -/
def SwapsNext (s : FiberThreads T F) (move : FiberMove T) : Prop :=
  ∀ t c, move = .work t → s.thread t = some c → c.thread.Swaps

variable {program : F → Callback RefOp F} {main : T → List (Instr RefOp F)} {s next : FiberThreads T F}

theorem step_cases {move : FiberMove T} {events : List (T × Destruction)}
    (taken : s.step program main move = some (events, next)) :
    (∃ t, move = .getThis t ∧ s.thread t = none ∧ events = [] ∧ next = { s with
      thread := Function.update s.thread t (some (.create (main t)))
      ids := Function.update s.ids t [0]
      owed := Function.update s.owed t [.construct] }) ∨
    (∃ t c lost after, move = .work t ∧ s.thread t = some c ∧ s.owed t = [] ∧
      c.step program = some (lost, after) ∧ events = lost.map (fun e => (t, e)) ∧ next = { s with
        thread := Function.update s.thread t (some after)
        owed := Function.update s.owed t (owes c.thread.nextInstr lost) }) ∨
    (∃ t op rest, move = .count t ∧ s.owed t = op :: rest ∧ events = [] ∧
      next = { s.perform t op with owed := Function.update s.owed t rest }) := by
  cases move with
  | getThis t =>
    simp only [step] at taken
    split at taken
    · cases taken
    · rename_i fresh
      simp only [Option.some.injEq, Prod.mk.injEq] at taken
      exact .inl ⟨t, rfl, fresh, taken.1.symm, taken.2.symm⟩
  | work t =>
    simp only [step] at taken
    split at taken
    · rename_i c here ready
      split at taken
      · cases taken
      · rename_i lost after ran
        simp only [Option.some.injEq, Prod.mk.injEq] at taken
        exact .inr (.inl ⟨t, c, lost, after, rfl, here, ready, ran, taken.1.symm, taken.2.symm⟩)
    · cases taken
  | count t =>
    simp only [step] at taken
    split at taken
    · cases taken
    · rename_i op rest owed
      simp only [Option.some.injEq, Prod.mk.injEq] at taken
      exact .inr (.inr ⟨t, op, rest, rfl, owed, taken.1.symm, taken.2.symm⟩)

theorem owes_count (instr : Option (Instr RefOp F)) (lost : List Destruction) :
    (owes instr lost).count .nextId = Thread.made instr ∧ (owes instr lost).count .construct = Thread.made instr ∧
      (owes instr lost).count .destruct = lost.length := by
  unfold owes
  split
  · simp [List.count_replicate, Thread.made]
  · rename_i other
    have none_made : Thread.made instr = 0 := by
      unfold Thread.made
      split
      · rename_i cb
        exact absurd rfl (other cb)
      · rfl
    simp [List.count_replicate, none_made]

section Counts

variable [Fintype T]

/-- The fibers of a thread that have a use. -/
def inUse (s : FiberThreads T F) (t : T) : Nat :=
  match s.thread t with
  | some c => live c.uses
  | none => 0

/-- The ids of the children of a thread. -/
def childIds (s : FiberThreads T F) (t : T) : List Nat := (s.ids t).tail

/-- How many ids were ever given, to children of any thread. -/
def given (s : FiberThreads T F) : Nat := ∑ t, (s.childIds t).length

/-- No two children have one id, and no child has that of a main fiber. -/
structure Distinct (s : FiberThreads T F) : Prop where
  counted : s.fiberId = s.given
  bounded : ∀ t, ∀ id ∈ s.childIds t, 1 ≤ id ∧ id ≤ s.fiberId
  apart : ∀ (t u : T) (k j id : Nat), (s.childIds t)[k]? = some id → (s.childIds u)[j]? = some id → t = u ∧ k = j

structure Counts (s : FiberThreads T F) : Prop where
  sound : ∀ t c, s.thread t = some c → c.Sound
  blank : ∀ t, s.thread t = none → s.ids t = [] ∧ s.owed t = []
  length : ∀ t c, s.thread t = some c → (s.ids t).length + (s.owed t).count .nextId = c.uses.length
  first : ∀ t c, s.thread t = some c → (s.ids t)[0]? = some 0
  small : s.fiberCount < 2 ^ 64
  total : (s.fiberCount + ∑ t, (s.owed t).count .construct) % 2 ^ 64 =
    (∑ t, (s.inUse t + (s.owed t).count .destruct)) % 2 ^ 64
  distinct : s.given < 2 ^ 64 → s.Distinct

omit [DecidableEq T] in
theorem create_counts : (create : FiberThreads T F).Counts where
  sound t c found := by cases found
  blank t _ := ⟨rfl, rfl⟩
  length t c found := by cases found
  first t c found := by cases found
  small := by simp [create]
  total := by simp [create, inUse]
  distinct _ := by
    refine ⟨by simp [create, given, childIds], ?_, ?_⟩
    · intro t id member
      cases member
    · intro t u k j id found
      cases found

/-- A sum in which one term changes. -/
theorem sum_change {f g : T → Nat} (t : T) (others : ∀ u, u ≠ t → g u = f u) :
    ∑ u, g u + f t = ∑ u, f u + g t := by
  rw [← Finset.add_sum_erase Finset.univ f (Finset.mem_univ t),
    ← Finset.add_sum_erase Finset.univ g (Finset.mem_univ t)]
  have rest : ∑ u ∈ Finset.univ.erase t, g u = ∑ u ∈ Finset.univ.erase t, f u :=
    Finset.sum_congr rfl fun u member => others u (Finset.ne_of_mem_erase member)
  omega

/-- What a step of a thread does to the ids: nothing, or its next fiber is given one. -/
def Gives (t : T) (s next : FiberThreads T F) : Prop :=
  next.childIds t = s.childIds t ∧ next.fiberId = s.fiberId ∨
    next.childIds t = s.childIds t ++ [next.fiberId] ∧ next.fiberId = (s.fiberId + 1) % 2 ^ 64

theorem Distinct.gives (distinct : s.given < 2 ^ 64 → s.Distinct) {t : T}
    (others : ∀ u, u ≠ t → next.childIds u = s.childIds u) (gives : Gives t s next)
    (bound : next.given < 2 ^ 64) : next.Distinct := by
  have sums : next.given + (s.childIds t).length = s.given + (next.childIds t).length :=
    sum_change t fun u other => congrArg List.length (others u other)
  rcases gives with ⟨same, fiberId⟩ | ⟨longer, fiberId⟩
  · have all (u : T) : next.childIds u = s.childIds u := by
      by_cases here : u = t
      · rw [here, same]
      · exact others u here
    obtain ⟨counted, bounded, apart⟩ := distinct (by rw [same] at sums; omega)
    refine ⟨by rw [same] at sums; omega, ?_, ?_⟩
    · intro u id
      rw [all u, fiberId]
      exact bounded u id
    · intro u v k j id
      rw [all u, all v]
      exact apart u v k j id
  · rw [longer, List.length_append, List.length_singleton] at sums
    obtain ⟨counted, bounded, apart⟩ := distinct (by omega)
    have new : next.fiberId = s.fiberId + 1 := by omega
    have known (u : T) (k id : Nat) (found : (next.childIds u)[k]? = some id) :
        (s.childIds u)[k]? = some id ∨ u = t ∧ k = (s.childIds t).length ∧ id = next.fiberId := by
      by_cases here : u = t
      · rw [here, longer] at found
        rcases getElem?_allocated.mp found with old | ⟨position, same⟩
        · exact .inl (by rw [here]; exact old)
        · exact .inr ⟨here, position, same.symm⟩
      · rw [others u here] at found
        exact .inl found
    have old (u : T) (k id : Nat) (found : (s.childIds u)[k]? = some id) : id ≠ next.fiberId := by
      have inside := (bounded u id (List.mem_of_getElem? found)).2
      omega
    refine ⟨by omega, ?_, ?_⟩
    · intro u id member
      obtain ⟨k, found⟩ := List.mem_iff_getElem?.mp member
      rcases known u k id found with before | ⟨_, _, rfl⟩
      · have inside := bounded u id (List.mem_of_getElem? before)
        omega
      · omega
    · intro u v k j id here there
      rcases known u k id here with before | ⟨rfl, rfl, rfl⟩ <;>
        rcases known v j _ there with after | ⟨rfl, rfl, same⟩
      · exact apart u v k j id before after
      · exact absurd same (old u k id before)
      · exact absurd rfl (old v j _ after)
      · exact ⟨rfl, rfl⟩

/-- A step of a thread changes its own part and the counters. -/
theorem Counts.change (counts : s.Counts) {t : T} {after : Counted F} (thread : next.thread = Function.update s.thread t (some after))
    (others : ∀ u, u ≠ t → next.ids u = s.ids u ∧ next.owed u = s.owed u) (sound : after.Sound)
    (length : (next.ids t).length + (next.owed t).count .nextId = after.uses.length)
    (first : (next.ids t)[0]? = some 0) (small : next.fiberCount < 2 ^ 64)
    (account : (next.fiberCount + (next.owed t).count .construct + (s.inUse t + (s.owed t).count .destruct)) % 2 ^ 64 =
      (s.fiberCount + (s.owed t).count .construct + (live after.uses + (next.owed t).count .destruct)) % 2 ^ 64)
    (gives : Gives t s next) : next.Counts := by
  have here : next.thread t = some after := by rw [thread, Function.update_self]
  have away (u : T) (other : u ≠ t) : next.thread u = s.thread u := by
    rw [thread, Function.update_of_ne other]
  refine ⟨?_, ?_, ?_, ?_, small, ?_, Distinct.gives counts.distinct ?_ gives⟩
  · intro u c found
    by_cases same : u = t
    · rw [same, here] at found
      cases found
      exact sound
    · exact counts.sound u c ((away u same).symm.trans found)
  · intro u fresh
    by_cases same : u = t
    · rw [same, here] at fresh
      cases fresh
    · rw [(others u same).1, (others u same).2]
      exact counts.blank u ((away u same).symm.trans fresh)
  · intro u c found
    by_cases same : u = t
    · rw [same, here] at found
      cases found
      rw [same]
      exact length
    · rw [(others u same).1, (others u same).2]
      exact counts.length u c ((away u same).symm.trans found)
  · intro u c found
    by_cases same : u = t
    · rw [same]
      exact first
    · rw [(others u same).1]
      exact counts.first u c ((away u same).symm.trans found)
  · have constructs := sum_change (f := fun u => (s.owed u).count .construct)
      (g := fun u => (next.owed u).count .construct) t fun u other => by rw [(others u other).2]
    have rest := sum_change (f := fun u => s.inUse u + (s.owed u).count .destruct)
      (g := fun u => next.inUse u + (next.owed u).count .destruct) t
      fun u other => by rw [(others u other).2, inUse, inUse, away u other]
    have total := counts.total
    have now : next.inUse t = live after.uses := by rw [inUse, here]
    simp only [now] at rest
    omega
  · intro u other
    rw [childIds, childIds, (others u other).1]

theorem Counts.getThis (counts : s.Counts) {t : T} (fresh : s.thread t = none) :
    Counts { s with
      thread := Function.update s.thread t (some (.create (main t)))
      ids := Function.update s.ids t [0]
      owed := Function.update s.owed t [.construct] } := by
  obtain ⟨noIds, nothing⟩ := counts.blank t fresh
  refine counts.change (t := t) rfl ?_ (Counted.create_sound (main t)) ?_ ?_ counts.small ?_ ?_
  · intro u other
    exact ⟨Function.update_of_ne other _ _, Function.update_of_ne other _ _⟩
  · simp [Counted.create]
  · simp
  · simp [inUse, fresh, nothing, Counted.create, live]
  · exact .inl ⟨by simp [childIds, noIds], rfl⟩

theorem Counts.work (counts : s.Counts) {t : T} {c after : Counted F} {lost : List Destruction}
    (here : s.thread t = some c) (ready : s.owed t = []) (swaps : c.thread.Swaps)
    (ran : c.step program = some (lost, after)) :
    Counts { s with
      thread := Function.update s.thread t (some after)
      owed := Function.update s.owed t (owes c.thread.nextInstr lost) } := by
  have sound := counts.sound t c here
  obtain ⟨nextId, construct, destruct⟩ := owes_count c.thread.nextInstr lost
  refine counts.change (t := t) rfl ?_ (sound.step swaps ran) ?_ (counts.first t c here) counts.small ?_ ?_
  · intro u other
    exact ⟨rfl, Function.update_of_ne other _ _⟩
  · have before := counts.length t c here
    have longer := Counted.step_uses ran
    simp only [Function.update_self, nextId, ready, List.count_nil] at before ⊢
    omega
  · have lives := sound.lives swaps ran
    have used : s.inUse t = live c.uses := by rw [inUse, here]
    simp only [Function.update_self, construct, destruct, ready, List.count_nil, used]
    omega
  · exact .inl ⟨rfl, rfl⟩

theorem Counts.count (counts : s.Counts) {t : T} {op : CountOp} {rest : List CountOp} (owed : s.owed t = op :: rest) :
    Counts { s.perform t op with owed := Function.update s.owed t rest } := by
  obtain ⟨c, here⟩ : ∃ c, s.thread t = some c := by
    cases found : s.thread t with
    | some c => exact ⟨c, rfl⟩
    | none => cases owed.symm.trans (counts.blank t found).2
  have same : s.thread = Function.update s.thread t (some c) := by rw [← here, Function.update_eq_self]
  have used : s.inUse t = live c.uses := by rw [inUse, here]
  have sound := counts.sound t c here
  have before := counts.length t c here
  have first := counts.first t c here
  have small := counts.small
  rw [owed] at before
  cases op with
  | nextId =>
    refine counts.change (t := t) same ?_ sound ?_ ?_ small ?_ (.inr ⟨?_, rfl⟩)
    · intro u other
      exact ⟨Function.update_of_ne other _ _, Function.update_of_ne other _ _⟩
    · simp only [perform, Function.update_self, List.length_append, List.length_singleton] at before ⊢
      simp at before
      omega
    · simp only [perform, Function.update_self]
      rw [List.getElem?_append_left (List.getElem?_eq_some_iff.mp first).1, first]
    · simp [perform, owed, used]
    · simp only [childIds, perform, Function.update_self]
      cases ids : s.ids t with
      | nil => simp [ids] at first
      | cons head tail => rfl
  | construct =>
    refine counts.change (t := t) same ?_ sound ?_ first ?_ ?_ (.inl ⟨rfl, rfl⟩)
    · intro u other
      exact ⟨rfl, Function.update_of_ne other _ _⟩
    · simp only [perform, Function.update_self] at before ⊢
      simpa using before
    · simp only [perform]
      omega
    · simp only [perform, Function.update_self, owed, used]
      simp
      omega
  | destruct =>
    refine counts.change (t := t) same ?_ sound ?_ first ?_ ?_ (.inl ⟨rfl, rfl⟩)
    · intro u other
      exact ⟨rfl, Function.update_of_ne other _ _⟩
    · simp only [perform, Function.update_self] at before ⊢
      simpa using before
    · simp only [perform]
      split_ifs <;> omega
    · simp only [perform, Function.update_self, owed, used]
      simp
      split_ifs <;> omega

theorem Counts.step {move : FiberMove T} {events : List (T × Destruction)} (counts : s.Counts)
    (swaps : s.SwapsNext move) (taken : s.step program main move = some (events, next)) : next.Counts := by
  rcases step_cases taken with
    ⟨t, _, fresh, _, rfl⟩ | ⟨t, c, lost, after, work, here, ready, ran, _, rfl⟩ | ⟨t, op, rest, _, owed, _, rfl⟩
  · exact counts.getThis fresh
  · exact counts.work here ready (swaps t c work here) ran
  · exact counts.count owed

omit [DecidableEq T] in
/-- The fiber that executes has the id that `GetFiberId` returns, which is 0 for a main
fiber and for no other. -/
theorem Counts.getFiberId (counts : s.Counts) (few : s.given < 2 ^ 64) {t : T} {c : Counted F}
    (here : s.thread t = some c) (alive : c.thread.code ≠ .aborted) (settled : .nextId ∉ s.owed t) :
    ∃ f, c.thread.executing = some f ∧ (s.ids t)[f]? = some (s.getFiberId t) ∧ (s.getFiberId t = 0 ↔ f = 0) := by
  have sound := counts.sound t c here
  obtain ⟨f, current, bound, _⟩ := sound.orderly.current
  obtain ⟨_, _, d, _⟩ := sound.orderly
  have length := counts.length t c here
  rw [List.count_eq_zero_of_not_mem settled, (sound.accounted alive).length] at length
  obtain ⟨id, found⟩ : ∃ id, (s.ids t)[f]? = some id := ⟨_, List.getElem?_eq_getElem (by omega)⟩
  have own : s.getFiberId t = id := by
    simp only [FiberThreads.getFiberId, here, Option.bind_some, current, found, Option.getD_some]
  refine ⟨f, d.current.symm.trans current, by rw [own, found], ?_⟩
  rw [own]
  cases f with
  | zero =>
    have first := counts.first t c here
    rw [found] at first
    simpa using Option.some.inj first
  | succ f =>
    have child : (s.childIds t)[f]? = some id := by
      rw [childIds, List.getElem?_tail]
      exact found
    have positive := ((counts.distinct few).bounded t _ (List.mem_of_getElem? child)).1
    simp only [Nat.add_eq_zero_iff, one_ne_zero, and_false, iff_false]
    omega

theorem Counts.run {moves : List (FiberMove T)} {events : List (T × Destruction)}
    (ran : run (FiberThreads.step program main) moves create = some (events, s))
    (swaps : Throughout (FiberThreads.step program main) SwapsNext moves create) : s.Counts :=
  run_invariant_throughout SwapsNext Counts (fun _ _ _ _ swaps counts taken => Counts.step counts swaps taken) ran
    swaps create_counts

/-- However the steps of threads interleave, children of all threads have different ids,
none of them 0; whenever no constructor or destructor is under way, `TotalFibers` is the
number of fibers with a use, up to the size of the counter; and `GetFiberId` is the id of
the fiber that executes on its thread, 0 exactly for the main one. -/
theorem fibers_counted (program : F → Callback RefOp F) (main : T → List (Instr RefOp F))
    {moves : List (FiberMove T)} {events : List (T × Destruction)}
    (ran : run (step program main) moves create = some (events, s))
    (swaps : Throughout (step program main) SwapsNext moves create) :
    (s.given < 2 ^ 64 → ∀ (t u : T) (k j id : Nat), (s.childIds t)[k]? = some id → (s.childIds u)[j]? = some id →
      id ≠ 0 ∧ t = u ∧ k = j) ∧
    ((∀ t, s.owed t = []) → s.totalFibers = (∑ t, s.inUse t) % 2 ^ 64) ∧
    (s.given < 2 ^ 64 → ∀ t c, s.thread t = some c → c.thread.code ≠ .aborted → .nextId ∉ s.owed t →
      ∃ f, c.thread.executing = some f ∧ (s.ids t)[f]? = some (s.getFiberId t) ∧
        (s.getFiberId t = 0 ↔ f = 0)) := by
  have counts := Counts.run ran swaps
  refine ⟨?_, ?_, ?_⟩
  · intro few t u k j id here there
    have positive := ((counts.distinct few).bounded t id (List.mem_of_getElem? here)).1
    exact ⟨by omega, (counts.distinct few).apart t u k j id here there⟩
  · intro settled
    have total := counts.total
    have small := counts.small
    simp only [settled, List.count_nil, Finset.sum_const_zero, Nat.add_zero] at total
    rw [totalFibers, ← total, Nat.mod_eq_of_lt small]
  · intro few t c here alive settled
    exact counts.getFiberId few here alive settled

end Counts

/-- Two threads make a fiber each, and one drops its own. -/
def twoMains : Bool → List (Instr RefOp Unit)
  | false => [.create (), .act (.drop 1)]
  | true => [.create ()]

def twoMoves : List (FiberMove Bool) :=
  [.getThis false, .getThis true, .count true, .work true, .count true, .count false, .work false, .count false,
    .count true, .count false, .work false, .count false]

theorem fibers_counted_two :
    ∃ events s, run (step Counted.onceProgram twoMains) twoMoves create = some (events, s) ∧
    events = [(false, ⟨1, .init, none⟩)] ∧ s.childIds false = [2] ∧ s.childIds true = [1] ∧
      s.totalFibers = (∑ t, s.inUse t) % 2 ^ 64 := by
  have swaps : Throughout (step Counted.onceProgram twoMains) SwapsNext twoMoves create := by
    refine (throughout_cons rfl).mpr ⟨?_, (throughout_cons rfl).mpr ⟨?_, (throughout_cons rfl).mpr ⟨?_,
      (throughout_cons rfl).mpr ⟨?_, (throughout_cons rfl).mpr ⟨?_, (throughout_cons rfl).mpr ⟨?_,
      (throughout_cons rfl).mpr ⟨?_, (throughout_cons rfl).mpr ⟨?_, (throughout_cons rfl).mpr ⟨?_,
      (throughout_cons rfl).mpr ⟨?_, (throughout_cons rfl).mpr ⟨?_, (throughout_cons rfl).mpr ⟨?_,
      trivial⟩⟩⟩⟩⟩⟩⟩⟩⟩⟩⟩⟩
    all_goals
      intro t c work here f now
      cases work
    all_goals
      cases here
      cases now
  have ran : ∃ events s, run (step Counted.onceProgram twoMains) twoMoves create = some (events, s) ∧
      events = [(false, ⟨1, .init, none⟩)] ∧ s.childIds false = [2] ∧ s.childIds true = [1] ∧
        ∀ t, s.owed t = [] := by
    refine ⟨_, _, rfl, rfl, rfl, rfl, ?_⟩
    intro t
    cases t <;> rfl
  obtain ⟨events, s, ran, lost, ids, others, settled⟩ := ran
  exact ⟨events, s, ran, lost, ids, others, (fibers_counted Counted.onceProgram twoMains ran swaps).2.1 settled⟩

end FiberThreads

end Sylar
