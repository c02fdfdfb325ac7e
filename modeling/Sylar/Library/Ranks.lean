import Sylar.Library.Locks
import Sylar.Library.ReadWrite

/-! Threads that take readers-writer locks, some of them shared. The code is that of
`LockSystem` with the access asked for; the order of the locks does not look at the access. -/
namespace Library

inductive GuardInstr (K A : Type) where
  | take (lock : K) (access : Access)
  | give (lock : K)
  | act (action : A)

/-- What matters for the order of the locks. -/
def GuardInstr.plain : GuardInstr K A → LockInstr K A
  | .take k _ => .acquire k
  | .give k => .release k
  | .act a => .act a

/-- What a thread still has to do, and the locks it holds, the last one first. -/
structure GuardThread (K A : Type) where
  code : List (GuardInstr K A)
  held : List (K × Access)

/-- The locks held, whatever the access. -/
def GuardThread.locks (thread : GuardThread K A) : List K := thread.held.map Prod.fst

structure GuardSystem (T K A D : Type) where
  data : D
  thread : T → GuardThread K A
  lock : K → RWLock T

namespace GuardSystem

def idle (data : D) : GuardSystem T K A D := ⟨data, fun _ => ⟨[], []⟩, fun _ => .free⟩

/-- The thread has something to do, and its next step does not need a lock that is taken.
No lock refuses it, whether readers or writers are preferred. -/
def Runs (s : GuardSystem T K A D) (t : T) : Prop :=
  (s.thread t).code ≠ [] ∧
    ∀ k access rest, (s.thread t).code = .take k access :: rest → ¬ (s.lock k).Taken

variable [DecidableEq T] [DecidableEq K]

def setThread (s : GuardSystem T K A D) (t : T) (thread : GuardThread K A) : GuardSystem T K A D :=
  { s with thread := Function.update s.thread t thread }

def stepThread (perform : A → D → Option (List E × D × List (GuardInstr K A))) (s : GuardSystem T K A D) (t : T) :
    Option (List E × GuardSystem T K A D) :=
  match s.thread t with
  | ⟨[], _⟩ => none
  | ⟨.take k access :: rest, held⟩ =>
    match (s.lock k).take t access with
    | none => none
    | some lock =>
      some ([], { s.setThread t ⟨rest, (k, access) :: held⟩ with lock := Function.update s.lock k lock })
  | ⟨.give k :: rest, held⟩ =>
    some ([], { s.setThread t ⟨rest, held.eraseP fun entry => entry.1 = k⟩ with
      lock := Function.update s.lock k ((s.lock k).release t) })
  | ⟨.act a :: rest, held⟩ =>
    match perform a s.data with
    | none => none
    | some (events, data, more) => some (events, { s.setThread t ⟨more ++ rest, held⟩ with data := data })

def step (code : C → List (GuardInstr K A)) (perform : A → D → Option (List E × D × List (GuardInstr K A)))
    (s : GuardSystem T K A D) : Turn T C → Option (List E × GuardSystem T K A D)
  | .call t c =>
    match s.thread t with
    | ⟨[], held⟩ => some ([], s.setThread t ⟨code c, held⟩)
    | _ => none
  | .step t => s.stepThread perform t

variable {code : C → List (GuardInstr K A)} {perform : A → D → Option (List E × D × List (GuardInstr K A))}
variable {s next : GuardSystem T K A D} {t : T} {events : List E}

/-- What a turn of the system can be. -/
theorem step_cases {turn : Turn T C} (taken : s.step code perform turn = some (events, next)) :
    (∃ t c held, turn = .call t c ∧ s.thread t = ⟨[], held⟩ ∧ next = s.setThread t ⟨code c, held⟩) ∨
    (∃ t k access rest held lock, s.thread t = ⟨.take k access :: rest, held⟩ ∧
      (s.lock k).take t access = some lock ∧
      next = { s.setThread t ⟨rest, (k, access) :: held⟩ with lock := Function.update s.lock k lock }) ∨
    (∃ t k rest held, s.thread t = ⟨.give k :: rest, held⟩ ∧
      next = { s.setThread t ⟨rest, held.eraseP fun entry => entry.1 = k⟩ with
        lock := Function.update s.lock k ((s.lock k).release t) }) ∨
    ∃ t a rest held data more, s.thread t = ⟨.act a :: rest, held⟩ ∧
      perform a s.data = some (events, data, more) ∧
      next = { s.setThread t ⟨more ++ rest, held⟩ with data := data } := by
  cases turn with
  | call t c =>
    simp only [step] at taken
    split at taken
    · rename_i held idle
      cases taken
      exact .inl ⟨t, c, held, rfl, idle, rfl⟩
    · cases taken
  | step t =>
    simp only [step, stepThread] at taken
    split at taken
    · cases taken
    · rename_i k access rest held thread
      split at taken
      · cases taken
      · rename_i lock given
        cases taken
        exact .inr (.inl ⟨t, k, access, rest, held, lock, thread, given, rfl⟩)
    · rename_i k rest held thread
      cases taken
      exact .inr (.inr (.inl ⟨t, k, rest, held, thread, rfl⟩))
    · rename_i a rest held thread
      split at taken
      · cases taken
      · rename_i performed
        cases taken
        exact .inr (.inr (.inr ⟨t, a, rest, held, _, _, thread, performed, rfl⟩))

end GuardSystem

section Order

variable [Preorder R] {rank : K → R} {admits : A → List K → List K → Prop} {invariant : D → Prop}

namespace LockOrdered

theorem of_acquire {k : K} {held final : List K} {rest : List (LockInstr K A)}
    (ordered : LockOrdered rank admits held (.acquire k :: rest) final) :
    (∀ h ∈ held, rank h < rank k) ∧ LockOrdered rank admits (k :: held) rest final := by
  cases ordered with
  | acquire above later => exact ⟨above, later⟩

theorem of_act {a : A} {held final : List K} {rest : List (LockInstr K A)}
    (ordered : LockOrdered rank admits held (.act a :: rest) final) :
    ∃ middle, admits a held middle ∧ LockOrdered rank admits middle rest final := by
  cases ordered with
  | act admitted later => exact ⟨_, admitted, later⟩

end LockOrdered

variable (rank admits) in
/-- The locks are held by the threads that hold them, and every thread takes locks by rank. -/
structure GuardSystem.Disciplined (invariant : D → Prop) (s : GuardSystem T K A D) : Prop where
  data : invariant s.data
  holders : ∀ k t access, (s.lock k).Holds t access ↔ (k, access) ∈ (s.thread t).held
  single : ∀ k, (s.lock k).Single
  sorted : ∀ t, (s.thread t).locks.Pairwise fun a b => rank b < rank a
  code : ∀ t, LockOrdered rank admits (s.thread t).locks ((s.thread t).code.map GuardInstr.plain) []

namespace GuardSystem

theorem idle_disciplined {data : D} (holds : invariant data) :
    Disciplined rank admits invariant (idle (T := T) data) where
  data := holds
  holders k t access := by simp [idle]
  single k := List.nodup_nil
  sorted t := .nil
  code t := .nil []

namespace Disciplined

variable {s : GuardSystem T K A D}

/-- A lock about to be taken ranks above those held. -/
theorem above (disciplined : s.Disciplined rank admits invariant) {t : T} {k : K} {access : Access}
    {rest : List (GuardInstr K A)} (ahead : (s.thread t).code = .take k access :: rest) :
    ∀ h ∈ (s.thread t).locks, rank h < rank k := by
  have ordered := disciplined.code t
  rw [ahead] at ordered
  exact ordered.of_acquire.1

/-- A thread that holds a lock has something to do. -/
theorem busy (disciplined : s.Disciplined rank admits invariant) {t : T} {k : K} {access : Access}
    (holds : (s.lock k).Holds t access) : (s.thread t).code ≠ [] ∧ k ∈ (s.thread t).locks := by
  have member : k ∈ (s.thread t).locks := List.mem_map_of_mem ((disciplined.holders k t access).mp holds)
  refine ⟨?_, member⟩
  intro nothing
  have ordered := disciplined.code t
  rw [nothing] at ordered
  generalize (s.thread t).locks = locks at ordered member
  cases ordered
  cases member

/-- A thread that writes excludes all others from the lock. -/
theorem writer_alone (disciplined : s.Disciplined rank admits invariant) {t u : T} {k : K} {access : Access}
    (writes : (k, .exclusive) ∈ (s.thread t).held) (holds : (k, access) ∈ (s.thread u).held) : u = t :=
  (((disciplined.holders k t .exclusive).mpr writes).alone ((disciplined.holders k u access).mpr holds)).1

/-- Where a thread has something to do, some thread can go on, whatever the locks prefer. -/
theorem exists_runner [WellFoundedGT R] (disciplined : s.Disciplined rank admits invariant) {t : T}
    (active : (s.thread t).code ≠ []) : ∃ u, s.Runs u := by
  by_contra nobody
  have stuck (u : T) (active : (s.thread u).code ≠ []) :
      ∃ k access rest, (s.thread u).code = .take k access :: rest ∧ (s.lock k).Taken := by
    by_contra free
    refine nobody ⟨u, active, fun k access rest ahead taken => free ⟨k, access, rest, ahead, taken⟩⟩
  -- who holds a lock waits for one of higher rank, so that no lock is held
  have untaken (r : R) : ∀ k, rank k = r → ¬ (s.lock k).Taken := by
    induction r using WellFoundedGT.induction with
    | ind r ih =>
      rintro k rfl ⟨u, access, holds⟩
      obtain ⟨active, member⟩ := disciplined.busy holds
      obtain ⟨k', access', rest, ahead, taken⟩ := stuck u active
      exact ih (rank k') (disciplined.above ahead k member) k' rfl taken
  obtain ⟨k, access, rest, _, taken⟩ := stuck t active
  exact untaken (rank k) k rfl taken

section Step

variable [DecidableEq T]

/-- One thread changes, and the holders are as the locks held. -/
theorem update (disciplined : s.Disciplined rank admits invariant) {t : T} {thread : GuardThread K A} {data : D}
    {lock : K → RWLock T} (holds : invariant data)
    (holders : ∀ k u access, (lock k).Holds u access ↔ (k, access) ∈ (Function.update s.thread t thread u).held)
    (single : ∀ k, (lock k).Single) (sorted : thread.locks.Pairwise fun a b => rank b < rank a)
    (ahead : LockOrdered rank admits thread.locks (thread.code.map GuardInstr.plain) []) :
    Disciplined rank admits invariant ⟨data, Function.update s.thread t thread, lock⟩ where
  data := holds
  holders := holders
  single := single
  sorted u := by
    by_cases same : u = t
    · simpa [same] using sorted
    · simpa [same] using disciplined.sorted u
  code u := by
    by_cases same : u = t
    · simpa [same] using ahead
    · simpa [same] using disciplined.code u

/-- The holders do not change where the locks held do not. -/
theorem holders_update (disciplined : s.Disciplined rank admits invariant) {t : T} {thread : GuardThread K A}
    (same : thread.held = (s.thread t).held) (k : K) (u : T) (access : Access) :
    (s.lock k).Holds u access ↔ (k, access) ∈ (Function.update s.thread t thread u).held := by
  rw [disciplined.holders]
  by_cases here : u = t
  · simp [here, same]
  · simp [here]

variable [DecidableEq K] {code : C → List (GuardInstr K A)}
  {perform : A → D → Option (List E × D × List (GuardInstr K A))}

theorem take (disciplined : s.Disciplined rank admits invariant) {t : T} {k : K} {access : Access}
    {rest : List (GuardInstr K A)} {held : List (K × Access)} {lock : RWLock T}
    (thread : s.thread t = ⟨.take k access :: rest, held⟩) (given : (s.lock k).take t access = some lock) :
    Disciplined rank admits invariant
      { s.setThread t ⟨rest, (k, access) :: held⟩ with lock := Function.update s.lock k lock } := by
  have ordered := disciplined.code t
  have sorted := disciplined.sorted t
  rw [thread] at ordered sorted
  obtain ⟨above, later⟩ := ordered.of_acquire
  have outside (other : Access) : ¬ (s.lock k).Holds t other := by
    intro holds
    have member : (k, other) ∈ held := by
      have inside := (disciplined.holders k t other).mp holds
      rwa [thread] at inside
    exact lt_irrefl _ (above k (List.mem_map_of_mem member))
  refine disciplined.update disciplined.data ?_ ?_ (List.pairwise_cons.mpr ⟨above, sorted⟩) later
  · intro k' u other
    have before := disciplined.holders k' u other
    by_cases same : k' = k
    · subst same
      simp only [Function.update_self, RWLock.take_holds given]
      by_cases self : u = t
      · subst self
        simp [before, thread, or_comm]
      · simp [before, self]
    · simp only [Function.update_of_ne same]
      by_cases self : u = t
      · subst self
        simp [before, thread, same]
      · simp [before, self]
  · intro k'
    by_cases same : k' = k
    · subst same
      simp only [Function.update_self]
      exact RWLock.take_single given (disciplined.single k') outside
    · simpa only [Function.update_of_ne same] using disciplined.single k'

theorem give (disciplined : s.Disciplined rank admits invariant) {t : T} {k : K} {rest : List (GuardInstr K A)}
    {held : List (K × Access)} (thread : s.thread t = ⟨.give k :: rest, held⟩) :
    Disciplined rank admits invariant { s.setThread t ⟨rest, held.eraseP fun entry => entry.1 = k⟩ with
      lock := Function.update s.lock k ((s.lock k).release t) } := by
  have ordered := disciplined.code t
  have sorted := disciplined.sorted t
  rw [thread] at ordered sorted
  cases held with
  | nil => cases ordered
  | cons entry others =>
    obtain ⟨lock, access⟩ := entry
    cases ordered with
    | release later =>
      obtain ⟨below, sorted⟩ := List.pairwise_cons.mp sorted
      have once (other : Access) : (lock, other) ∉ others := fun member =>
        lt_irrefl _ (below lock (List.mem_map_of_mem member))
      have holds : (s.lock lock).Holds t access := (disciplined.holders lock t access).mpr (by simp [thread])
      have gone : ((lock, access) :: others).eraseP (fun entry => entry.1 = lock) = others := by simp
      rw [gone]
      refine disciplined.update disciplined.data ?_ ?_ sorted later
      · intro k' u other
        have before := disciplined.holders k' u other
        by_cases same : k' = lock
        · subst same
          simp only [Function.update_self, RWLock.release_holds holds (disciplined.single k')]
          by_cases self : u = t
          · subst self
            simp [once]
          · simp [before, self]
        · simp only [Function.update_of_ne same]
          by_cases self : u = t
          · subst self
            simp [before, thread, same]
          · simp [before, self]
      · intro k'
        by_cases same : k' = lock
        · subst same
          simp only [Function.update_self]
          exact RWLock.release_single (disciplined.single k')
        · simpa only [Function.update_of_ne same] using disciplined.single k'

/-- If calls and what actions leave to do are ordered code, every turn keeps the discipline. -/
theorem step (codes : ∀ c, LockOrdered rank admits [] ((code c).map GuardInstr.plain) [])
    (performs : ∀ a held middle data events data' more, admits a held middle → invariant data →
      perform a data = some (events, data', more) →
      invariant data' ∧ LockOrdered rank admits held (more.map GuardInstr.plain) middle)
    (disciplined : s.Disciplined rank admits invariant) {turn : Turn T C} {next : GuardSystem T K A D}
    {events : List E} (taken : s.step code perform turn = some (events, next)) :
    next.Disciplined rank admits invariant := by
  rcases step_cases taken with ⟨t, c, held, _, thread, rfl⟩ | ⟨t, k, access, rest, held, lock, thread, given, rfl⟩ |
    ⟨t, k, rest, held, thread, rfl⟩ | ⟨t, a, rest, held, data, more, thread, performed, rfl⟩
  · have ordered := disciplined.code t
    have nothing : held = [] := by
      rw [thread] at ordered
      cases held with
      | nil => rfl
      | cons entry others => cases ordered
    subst nothing
    exact disciplined.update disciplined.data (disciplined.holders_update (by rw [thread])) disciplined.single .nil
      (codes c)
  · exact disciplined.take thread given
  · exact disciplined.give thread
  · have ordered := disciplined.code t
    have sorted := disciplined.sorted t
    rw [thread] at ordered sorted
    obtain ⟨middle, admitted, later⟩ := ordered.of_act
    obtain ⟨holds, leaves⟩ := performs a _ _ s.data events data more admitted disciplined.data performed
    refine disciplined.update holds (disciplined.holders_update (by rw [thread])) disciplined.single sorted ?_
    rw [List.map_append]
    exact leaves.append later

end Step

end Disciplined

end GuardSystem

end Order

end Library
