import Mathlib.Data.List.Basic
import Mathlib.Logic.Function.Basic
import Mathlib.Order.WellFounded
import Sylar.Library.Machine

/-! Threads that take locks. Between taking and giving back locks a thread performs
actions on shared data; an action may leave more for its thread to do. If locks are
taken in the order of their ranks, no threads wait for each other in a cycle. -/
namespace Library

inductive LockInstr (K A : Type) where
  | acquire (lock : K)
  | release (lock : K)
  | act (action : A)

/-- What a thread still has to do, and the locks it holds, the last one first. -/
structure LockThread (K A : Type) where
  code : List (LockInstr K A)
  held : List K

structure LockSystem (T K A D : Type) where
  data : D
  thread : T → LockThread K A
  owner : K → Option T

/-- A thread with nothing to do is given a call, or a thread takes its next step. -/
inductive Turn (T C : Type) where
  | call (thread : T) (call : C)
  | step (thread : T)

namespace LockSystem

/-- A system at rest. -/
def idle (data : D) : LockSystem T K A D := ⟨data, fun _ => ⟨[], []⟩, fun _ => none⟩

/-- A thread's next step takes a lock that is not free. -/
def Waits (s : LockSystem T K A D) (t : T) (k : K) : Prop :=
  (∃ rest, (s.thread t).code = .acquire k :: rest) ∧ ∃ u, s.owner k = some u

section Step

variable [DecidableEq T]

def setThread (s : LockSystem T K A D) (t : T) (thread : LockThread K A) : LockSystem T K A D :=
  { s with thread := Function.update s.thread t thread }

@[simp] theorem setThread_data (s : LockSystem T K A D) (t : T) (thread : LockThread K A) :
    (s.setThread t thread).data = s.data := rfl

variable [DecidableEq K]

/-- A lock that another thread, or the thread itself, holds cannot be taken. -/
def stepThread (perform : A → D → Option (List E × D × List (LockInstr K A))) (s : LockSystem T K A D)
    (t : T) : Option (List E × LockSystem T K A D) :=
  match s.thread t with
  | ⟨[], _⟩ => none
  | ⟨.acquire k :: rest, held⟩ =>
    match s.owner k with
    | some _ => none
    | none =>
      some ([], { s.setThread t ⟨rest, k :: held⟩ with owner := Function.update s.owner k (some t) })
  | ⟨.release k :: rest, held⟩ =>
    some ([], { s.setThread t ⟨rest, held.erase k⟩ with owner := Function.update s.owner k none })
  | ⟨.act a :: rest, held⟩ =>
    match perform a s.data with
    | none => none
    | some (events, data, more) => some (events, { s.setThread t ⟨more ++ rest, held⟩ with data := data })

def step (code : C → List (LockInstr K A)) (perform : A → D → Option (List E × D × List (LockInstr K A)))
    (s : LockSystem T K A D) : Turn T C → Option (List E × LockSystem T K A D)
  | .call t c =>
    match s.thread t with
    | ⟨[], held⟩ => some ([], s.setThread t ⟨code c, held⟩)
    | _ => none
  | .step t => s.stepThread perform t

variable {code : C → List (LockInstr K A)} {perform : A → D → Option (List E × D × List (LockInstr K A))}
variable {s next : LockSystem T K A D} {t : T} {events : List E}

/-- What a turn of the system can be. -/
theorem step_cases {turn : Turn T C} (taken : s.step code perform turn = some (events, next)) :
    (∃ t c held, turn = .call t c ∧ s.thread t = ⟨[], held⟩ ∧ events = [] ∧
      next = s.setThread t ⟨code c, held⟩) ∨
    (∃ t k rest held, turn = .step t ∧ s.thread t = ⟨.acquire k :: rest, held⟩ ∧ s.owner k = none ∧
      events = [] ∧
      next = { s.setThread t ⟨rest, k :: held⟩ with owner := Function.update s.owner k (some t) }) ∨
    (∃ t k rest held, turn = .step t ∧ s.thread t = ⟨.release k :: rest, held⟩ ∧ events = [] ∧
      next = { s.setThread t ⟨rest, held.erase k⟩ with owner := Function.update s.owner k none }) ∨
    ∃ t a rest held data more, turn = .step t ∧ s.thread t = ⟨.act a :: rest, held⟩ ∧
      perform a s.data = some (events, data, more) ∧
      next = { s.setThread t ⟨more ++ rest, held⟩ with data := data } := by
  cases turn with
  | call t c =>
    simp only [step] at taken
    split at taken
    · rename_i held idle
      cases taken
      exact .inl ⟨t, c, held, rfl, idle, rfl, rfl⟩
    · cases taken
  | step t =>
    simp only [step, stepThread] at taken
    split at taken
    · cases taken
    · rename_i k rest held thread
      split at taken
      · cases taken
      · rename_i free
        cases taken
        exact .inr (.inl ⟨t, k, rest, held, rfl, thread, free, rfl, rfl⟩)
    · rename_i k rest held thread
      cases taken
      exact .inr (.inr (.inl ⟨t, k, rest, held, rfl, thread, rfl, rfl⟩))
    · rename_i a rest held thread
      split at taken
      · cases taken
      · rename_i result performed
        cases taken
        exact .inr (.inr (.inr ⟨t, a, rest, held, _, _, rfl, thread, performed, rfl⟩))

end Step

end LockSystem

section Order

variable [Preorder R] (rank : K → R) (admits : A → List K → List K → Prop)

/-- Code that takes locks by rank and leads from some locks held to others. An action
leads where `admits` says. -/
inductive LockOrdered : List K → List (LockInstr K A) → List K → Prop
  | nil (held : List K) : LockOrdered held [] held
  | acquire {k : K} {held final : List K} {rest : List (LockInstr K A)}
      (above : ∀ h ∈ held, rank h < rank k) (later : LockOrdered (k :: held) rest final) :
      LockOrdered held (.acquire k :: rest) final
  | release {k : K} {held final : List K} {rest : List (LockInstr K A)}
      (later : LockOrdered held rest final) : LockOrdered (k :: held) (.release k :: rest) final
  | act {a : A} {held middle final : List K} {rest : List (LockInstr K A)}
      (admitted : admits a held middle) (later : LockOrdered middle rest final) :
      LockOrdered held (.act a :: rest) final

variable {rank admits}

namespace LockOrdered

theorem append {held middle final : List K} {front back : List (LockInstr K A)}
    (first : LockOrdered rank admits held front middle) (second : LockOrdered rank admits middle back final) :
    LockOrdered rank admits held (front ++ back) final := by
  induction first with
  | nil => exact second
  | acquire above _ ih => exact .acquire above (ih second)
  | release _ ih => exact .release (ih second)
  | act admitted _ ih => exact .act admitted (ih second)

/-- Pieces of code that each give back what they take. -/
theorem flatMap {held : List K} {code : α → List (LockInstr K A)} {xs : List α}
    (each : ∀ x ∈ xs, LockOrdered rank admits held (code x) held) :
    LockOrdered rank admits held (xs.flatMap code) held := by
  induction xs with
  | nil => exact .nil held
  | cons x xs ih =>
    obtain ⟨first, others⟩ := List.forall_mem_cons.mp each
    exact first.append (ih others)

/-- An action under a lock of its own. -/
theorem guarded {k : K} {held : List K} {a : A} (above : ∀ h ∈ held, rank h < rank k)
    (admitted : admits a (k :: held) (k :: held)) :
    LockOrdered rank admits held [.acquire k, .act a, .release k] held :=
  .acquire above (.act admitted (.release (.nil held)))

end LockOrdered

namespace LockSystem

variable (rank admits)

/-- Owners hold their locks, and every thread has ordered code ahead of it. -/
structure Disciplined (invariant : D → Prop) (s : LockSystem T K A D) : Prop where
  data : invariant s.data
  owners : ∀ k t, s.owner k = some t ↔ k ∈ (s.thread t).held
  sorted : ∀ t, (s.thread t).held.Pairwise fun a b => rank b < rank a
  code : ∀ t, LockOrdered rank admits (s.thread t).held (s.thread t).code []

variable {rank admits} {invariant : D → Prop}

theorem idle_disciplined {data : D} (holds : invariant data) :
    Disciplined rank admits invariant (idle (T := T) data) where
  data := holds
  owners k t := by simp [idle]
  sorted t := .nil
  code t := .nil []

namespace Disciplined

variable {s : LockSystem T K A D}

/-- A lock about to be taken ranks above those held. -/
theorem above (disciplined : s.Disciplined rank admits invariant) {t : T} {k : K} {rest : List (LockInstr K A)}
    (ahead : (s.thread t).code = .acquire k :: rest) : ∀ h ∈ (s.thread t).held, rank h < rank k := by
  have ordered := disciplined.code t
  generalize (s.thread t).held = held at ordered
  rw [ahead] at ordered
  cases ordered with
  | acquire above _ => exact above

/-- No set of threads waits in a cycle: one of them waits for a thread outside. -/
theorem no_cycle [WellFoundedGT R] (disciplined : s.Disciplined rank admits invariant) (waiting : T → Prop)
    {t : T} (member : waiting t)
    (cycle : ∀ t, waiting t → ∃ k u, s.Waits t k ∧ s.owner k = some u ∧ waiting u) : False := by
  -- locks on which members of the cycle are waited for have ever higher ranks
  have none_owned (r : R) : ∀ k u, s.owner k = some u → waiting u → rank k = r → False := by
    induction r using WellFoundedGT.induction with
    | ind r ih =>
      rintro k u owner next rfl
      obtain ⟨k', u', ⟨⟨rest, ahead⟩, _⟩, owner', next'⟩ := cycle u next
      have higher := disciplined.above ahead k ((disciplined.owners k u).mp owner)
      exact ih (rank k') higher k' u' owner' next' rfl
  obtain ⟨k, u, _, owner, next⟩ := cycle t member
  exact none_owned (rank k) k u owner next rfl

/-- Where a thread waits, there is one that holds a lock and does not. -/
theorem exists_runner [WellFoundedGT R] (disciplined : s.Disciplined rank admits invariant) {t : T} {k : K}
    (waits : s.Waits t k) : ∃ u, (∃ k, s.owner k = some u) ∧ ∀ k, ¬ s.Waits u k := by
  by_contra nobody
  refine disciplined.no_cycle (fun u => ∃ k, s.Waits u k) ⟨k, waits⟩ ?_
  rintro u ⟨k', waits'⟩
  obtain ⟨v, owner⟩ := waits'.2
  refine ⟨k', v, waits', owner, ?_⟩
  by_contra free
  exact nobody ⟨v, ⟨k', owner⟩, not_exists.mp free⟩

section Step

variable [DecidableEq T]

/-- One thread changes, and owners are as the locks held. -/
theorem update (disciplined : s.Disciplined rank admits invariant) {t : T} {thread : LockThread K A}
    {data : D} {owner : K → Option T} (holds : invariant data)
    (owners : ∀ k u, owner k = some u ↔ k ∈ (Function.update s.thread t thread u).held)
    (sorted : thread.held.Pairwise fun a b => rank b < rank a)
    (ahead : LockOrdered rank admits thread.held thread.code []) :
    Disciplined rank admits invariant ⟨data, Function.update s.thread t thread, owner⟩ where
  data := holds
  owners := owners
  sorted u := by
    by_cases same : u = t
    · simpa [same] using sorted
    · simpa [same] using disciplined.sorted u
  code u := by
    by_cases same : u = t
    · simpa [same] using ahead
    · simpa [same] using disciplined.code u

/-- Owners do not change where the locks held do not. -/
theorem owners_update (disciplined : s.Disciplined rank admits invariant) {t : T} {thread : LockThread K A}
    (same : thread.held = (s.thread t).held) (k : K) (u : T) :
    s.owner k = some u ↔ k ∈ (Function.update s.thread t thread u).held := by
  rw [disciplined.owners]
  by_cases here : u = t
  · simp [here, same]
  · simp [here]

variable [DecidableEq K]
variable {code : C → List (LockInstr K A)} {perform : A → D → Option (List E × D × List (LockInstr K A))}

/-- If calls and what actions leave to do are ordered code, every turn keeps the discipline. -/
theorem step (codes : ∀ c, LockOrdered rank admits [] (code c) [])
    (performs : ∀ a held middle data events data' more, admits a held middle → invariant data →
      perform a data = some (events, data', more) →
      invariant data' ∧ LockOrdered rank admits held more middle)
    (disciplined : s.Disciplined rank admits invariant) {turn : Turn T C} {next : LockSystem T K A D}
    {events : List E} (taken : s.step code perform turn = some (events, next)) :
    next.Disciplined rank admits invariant := by
  rcases step_cases taken with ⟨t, c, held, rfl, thread, _, rfl⟩ |
    ⟨t, k, rest, held, rfl, thread, free, _, rfl⟩ | ⟨t, k, rest, held, rfl, thread, _, rfl⟩ |
    ⟨t, a, rest, held, data, more, rfl, thread, performed, rfl⟩
  all_goals
    have ordered := disciplined.code t
    have sorted := disciplined.sorted t
    rw [thread] at ordered sorted
  · cases ordered
    exact disciplined.update disciplined.data (disciplined.owners_update (by rw [thread])) .nil (codes c)
  · cases ordered with
    | acquire above later =>
      refine disciplined.update disciplined.data ?_ (List.pairwise_cons.mpr ⟨above, sorted⟩) later
      intro k' u
      have before := disciplined.owners k' u
      by_cases lock : k' = k
      · subst lock
        by_cases same : u = t
        · simp [same]
        · have unowned : k' ∉ (s.thread u).held := fun member => by
            rw [before.mpr member] at free
            cases free
          simp [same, Ne.symm same, unowned]
      · by_cases same : u = t
        · subst same
          simpa [lock, thread] using before
        · simpa [lock, same] using before
  · cases ordered with
    | @release _ others _ _ later =>
      obtain ⟨above, sorted⟩ := List.pairwise_cons.mp sorted
      have gone : (k :: others).erase k = others := by simp
      have once : k ∉ others := fun member => lt_irrefl _ (above k member)
      rw [gone]
      refine disciplined.update disciplined.data ?_ sorted later
      intro k' u
      have before := disciplined.owners k' u
      by_cases lock : k' = k
      · subst lock
        by_cases same : u = t
        · simp [same, once]
        · have owned : s.owner k' = some t := (disciplined.owners k' t).mpr (by simp [thread])
          have unowned : k' ∉ (s.thread u).held := fun member => by
            rw [before.mpr member] at owned
            exact same (Option.some.inj owned)
          simp [same, unowned]
      · by_cases same : u = t
        · subst same
          simpa [lock, thread] using before
        · simpa [lock, same] using before
  · cases ordered with
    | act admitted later =>
      obtain ⟨holds, leaves⟩ := performs a held _ s.data events data more admitted disciplined.data performed
      exact disciplined.update holds (disciplined.owners_update (by rw [thread])) sorted (leaves.append later)

end Step

end Disciplined

end LockSystem

end Order

end Library
