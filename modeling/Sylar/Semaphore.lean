import Mathlib.Algebra.Order.BigOperators.Group.Finset
import Mathlib.Data.Fintype.Basic
import Mathlib.Logic.Function.Basic
import Sylar.Library.Machine
import Sylar.Outcome

/-! `Semaphore` under threads. Each call on the semaphore of the system is one step; a
call that fails there throws. -/
namespace Sylar

open Library

/-- `SEM_VALUE_MAX` -/
def semValueMax : Nat := 2 ^ 31 - 1

/-- A `wait` that a signal ends is a step of its own. -/
inductive SemaphoreCall (T : Type u) where
  | wait (t : T)
  | interrupt (t : T)
  | notify (t : T)

/-- A `std::logic_error` and the thread it is thrown to. -/
structure SemaphoreError (T : Type u) where
  thread : T
  what : String
  deriving DecidableEq

/-- The value, and how often each thread came back from `wait` and from `notify`. -/
structure Semaphore (T : Type u) where
  value : Nat
  waits : T → Nat
  notifies : T → Nat

namespace Semaphore

variable {T : Type u}

/-- `Semaphore::Semaphore(count)` -/
def create (count : UInt32) : Except Exn (Semaphore T) :=
  if count.toNat ≤ semValueMax then .ok ⟨count.toNat, fun _ => 0, fun _ => 0⟩ else .error .standard

variable [DecidableEq T]

def step (s : Semaphore T) : SemaphoreCall T → Option (List (SemaphoreError T) × Semaphore T)
  | .wait t =>
    if s.value = 0 then none
    else some ([], { s with value := s.value - 1, waits := Function.update s.waits t (s.waits t + 1) })
  | .interrupt t => if s.value = 0 then some ([⟨t, "sem_wait error"⟩], s) else none
  | .notify t =>
    if s.value = semValueMax then some ([⟨t, "sem_post error"⟩], s)
    else some ([], { s with value := s.value + 1, notifies := Function.update s.notifies t (s.notifies t + 1) })

/-- A thread gives back no more than it took. -/
def Paired (s : Semaphore T) : SemaphoreCall T → Prop
  | .wait _ => True
  | .interrupt _ => True
  | .notify t => s.notifies t < s.waits t

variable {s next : Semaphore T} {events : List (SemaphoreError T)}

theorem step_cases {call : SemaphoreCall T} (taken : s.step call = some (events, next)) :
    (∃ t, call = .wait t ∧ 0 < s.value ∧ events = [] ∧
      next = { s with value := s.value - 1, waits := Function.update s.waits t (s.waits t + 1) }) ∨
    (∃ t, call = .interrupt t ∧ s.value = 0 ∧ events = [⟨t, "sem_wait error"⟩] ∧ next = s) ∨
    (∃ t, call = .notify t ∧ s.value = semValueMax ∧ events = [⟨t, "sem_post error"⟩] ∧ next = s) ∨
    (∃ t, call = .notify t ∧ s.value ≠ semValueMax ∧ events = [] ∧
      next = { s with value := s.value + 1, notifies := Function.update s.notifies t (s.notifies t + 1) }) := by
  cases call with
  | wait t =>
    simp only [step] at taken
    split at taken
    · cases taken
    · rename_i positive
      cases taken
      exact .inl ⟨t, rfl, Nat.pos_of_ne_zero positive, rfl, rfl⟩
  | interrupt t =>
    simp only [step] at taken
    split at taken
    · rename_i none
      cases taken
      exact .inr (.inl ⟨t, rfl, none, rfl, rfl⟩)
    · cases taken
  | notify t =>
    simp only [step] at taken
    split at taken
    · rename_i full
      cases taken
      exact .inr (.inr (.inl ⟨t, rfl, full, rfl, rfl⟩))
    · rename_i room
      cases taken
      exact .inr (.inr (.inr ⟨t, rfl, room, rfl, rfl⟩))

variable [Fintype T]

theorem sum_update (f : T → Nat) (t : T) : ∑ u, Function.update f t (f t + 1) u = ∑ u, f u + 1 := by
  have here := Finset.add_sum_erase Finset.univ (Function.update f t (f t + 1)) (Finset.mem_univ t)
  have before := Finset.add_sum_erase Finset.univ f (Finset.mem_univ t)
  have others : ∑ u ∈ Finset.univ.erase t, Function.update f t (f t + 1) u = ∑ u ∈ Finset.univ.erase t, f u := by
    apply Finset.sum_congr rfl
    intro u member
    exact Function.update_of_ne (Finset.ne_of_mem_erase member) _ _
  rw [Function.update_self, others] at here
  omega

/-- Nothing is lost: the value is what was there and what was given, less what was taken. -/
def Balanced (count : Nat) (s : Semaphore T) : Prop := s.value + ∑ t, s.waits t = count + ∑ t, s.notifies t

theorem Balanced.step {count : Nat} (balanced : s.Balanced count) {call : SemaphoreCall T}
    (taken : s.step call = some (events, next)) : next.Balanced count := by
  rcases step_cases taken with ⟨t, _, positive, _, rfl⟩ | ⟨_, _, _, _, rfl⟩ | ⟨_, _, _, _, rfl⟩ | ⟨t, _, _, _, rfl⟩
  · simp only [Balanced, sum_update] at balanced ⊢
    omega
  · exact balanced
  · exact balanced
  · simp only [Balanced, sum_update] at balanced ⊢
    omega

/-- No thread has given back more than it took. -/
def Owing (s : Semaphore T) : Prop := ∀ t, s.notifies t ≤ s.waits t

omit [Fintype T] in
theorem Owing.step (owing : s.Owing) {call : SemaphoreCall T} (paired : s.Paired call)
    (taken : s.step call = some (events, next)) : next.Owing := by
  rcases step_cases taken with ⟨t, _, _, _, rfl⟩ | ⟨_, _, _, _, rfl⟩ | ⟨_, _, _, _, rfl⟩ | ⟨t, rfl, _, _, rfl⟩
  · intro u
    by_cases self : u = t
    · subst self
      simp only [Function.update_self]
      exact Nat.le_succ_of_le (owing u)
    · simp only [Function.update_of_ne self]
      exact owing u
  · exact owing
  · exact owing
  · intro u
    by_cases self : u = t
    · subst self
      simp only [Function.update_self]
      exact paired
    · simp only [Function.update_of_ne self]
      exact owing u

omit [DecidableEq T] in
/-- How much is taken and not given back. -/
theorem Balanced.held {count : Nat} (balanced : s.Balanced count) (owing : s.Owing) :
    ∑ t, (s.waits t - s.notifies t) + s.value = count := by
  have split : ∑ t, (s.waits t - s.notifies t) + ∑ t, s.notifies t = ∑ t, s.waits t := by
    rw [← Finset.sum_add_distrib]
    apply Finset.sum_congr rfl
    intro t _
    exact Nat.sub_add_cancel (owing t)
  unfold Balanced at balanced
  omega

omit [DecidableEq T] in
/-- A thread that has taken something leaves room for what it gives back. -/
theorem Balanced.room {count : Nat} (balanced : s.Balanced count) (owing : s.Owing) (small : count ≤ semValueMax) {t : T}
    (paired : s.notifies t < s.waits t) : s.value < semValueMax := by
  have held := balanced.held owing
  have own : s.waits t - s.notifies t ≤ ∑ u, (s.waits u - s.notifies u) :=
    Finset.single_le_sum (f := fun u => s.waits u - s.notifies u) (fun _ _ => Nat.zero_le _) (Finset.mem_univ t)
  omega

/-- However the calls interleave, no notification is lost and none counts twice, whatever the
signals end: a `wait` waits exactly while all that was given is taken. If each thread gives
back what it has taken, `notify` never throws, and never is more taken than the semaphore
began with. -/
theorem permits (count : UInt32) {start : Semaphore T} (created : create count = .ok start)
    {calls : List (SemaphoreCall T)} (ran : run step calls start = some (events, s)) :
    s.value + ∑ t, s.waits t = count.toNat + ∑ t, s.notifies t ∧
      (∀ t, s.step (.wait t) = none ↔ ∑ t, s.waits t = count.toNat + ∑ t, s.notifies t) ∧
      (Throughout step Paired calls start →
        (∀ error ∈ events, error.what ≠ "sem_post error") ∧ ∑ t, (s.waits t - s.notifies t) ≤ count.toNat) := by
  obtain ⟨small, rfl⟩ : count.toNat ≤ semValueMax ∧ start = ⟨count.toNat, fun _ => 0, fun _ => 0⟩ := by
    unfold create at created
    split at created
    · rename_i small
      cases created
      exact ⟨small, rfl⟩
    · cases created
  have fresh : Balanced count.toNat (⟨count.toNat, fun _ => 0, fun _ => 0⟩ : Semaphore T) := rfl
  have balanced : s.Balanced count.toNat :=
    run_invariant (Balanced count.toNat) (fun _ _ _ _ balanced taken => balanced.step taken) ran fresh
  refine ⟨balanced, ?_, ?_⟩
  · intro t
    unfold Balanced at balanced
    simp only [step]
    split
    · exact iff_of_true rfl (by omega)
    · refine iff_of_false (fun none => by cases none) (by omega)
  · intro paired
    have kept := run_history_throughout Paired
      (fun s events => (∀ error ∈ events, error.what ≠ "sem_post error") ∧ s.Balanced count.toNat ∧ s.Owing) ?_ ran paired
      ⟨List.forall_mem_nil _, fresh, fun _ => Nat.le_refl 0⟩
    · obtain ⟨silent, balanced, owing⟩ := kept
      have held := balanced.held owing
      exact ⟨silent, by omega⟩
    · intro s call past events next paired ⟨silent, balanced, owing⟩ taken
      refine ⟨?_, balanced.step taken, owing.step paired taken⟩
      rcases step_cases taken with ⟨_, _, _, rfl, _⟩ | ⟨_, _, _, rfl, _⟩ | ⟨_, rfl, full, _, _⟩ | ⟨_, _, _, rfl, _⟩
      · simpa using silent
      · rw [List.forall_mem_append, List.forall_mem_singleton]
        exact ⟨silent, by simp⟩
      · have room := balanced.room owing small paired
        omega
      · simpa using silent

/-- A semaphore with one permit, taken by two threads in turn. A signal ends the first `wait` of
the second. -/
def inTurn : List (SemaphoreCall Bool) :=
  [.wait true, .interrupt false, .notify true, .wait false, .notify false]

theorem permits_inTurn :
    ∃ start s, create 1 = .ok start ∧ run step inTurn start = some ([⟨false, "sem_wait error"⟩], s) ∧
      s.value + ∑ t, s.waits t = 1 + ∑ t, s.notifies t ∧ ∑ t, (s.waits t - s.notifies t) ≤ 1 := by
  have paired : Throughout step Paired inTurn ⟨1, fun _ => 0, fun _ => 0⟩ := by
    refine (throughout_cons rfl).mpr ⟨trivial, (throughout_cons rfl).mpr ⟨trivial, (throughout_cons rfl).mpr ⟨?_,
      (throughout_cons rfl).mpr ⟨trivial, (throughout_cons rfl).mpr ⟨?_, trivial⟩⟩⟩⟩⟩
    · exact Nat.zero_lt_one
    · exact Nat.zero_lt_one
  have ran : ∃ s, run step inTurn (⟨1, fun _ => 0, fun _ => 0⟩ : Semaphore Bool) = some ([⟨false, "sem_wait error"⟩], s) := ⟨_, rfl⟩
  obtain ⟨s, ran⟩ := ran
  obtain ⟨balanced, _, held⟩ := permits 1 rfl ran
  exact ⟨_, s, rfl, ran, balanced, (held paired).2⟩

end Semaphore

end Sylar
