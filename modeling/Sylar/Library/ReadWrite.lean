import Mathlib.Data.List.Basic
import Mathlib.Data.List.Nodup

/-! A readers-writer lock. The type has no state with a writer beside other holders. A
mutex is such a lock of which only exclusive access is asked. -/
namespace Library

inductive Access where
  | shared
  | exclusive
  deriving DecidableEq, Repr

/-- `reading []` is the free lock. -/
inductive RWLock (T : Type u) where
  | reading (readers : List T)
  | writing (writer : T)
  deriving DecidableEq, Repr

namespace RWLock

variable {T : Type u}

def free : RWLock T := .reading []

/-- What the lock becomes, if it can be taken now. -/
def take (t : T) : Access → RWLock T → Option (RWLock T)
  | .shared, .reading readers => some (.reading (t :: readers))
  | .exclusive, .reading [] => some (.writing t)
  | _, _ => none

def Holds (lock : RWLock T) (t : T) : Access → Prop
  | .shared => ∃ readers, lock = .reading readers ∧ t ∈ readers
  | .exclusive => lock = .writing t

/-- Some thread holds it. -/
def Taken (lock : RWLock T) : Prop := ∃ t access, lock.Holds t access

/-- No thread holds it more than once. -/
def Single : RWLock T → Prop
  | .reading readers => readers.Nodup
  | .writing _ => True

@[simp] theorem free_holds (t : T) (access : Access) : ¬ (free : RWLock T).Holds t access := by
  cases access <;> simp [Holds, free]

theorem not_taken {lock : RWLock T} : ¬ lock.Taken ↔ lock = free := by
  constructor
  · intro untaken
    cases lock with
    | writing writer => exact absurd ⟨writer, .exclusive, rfl⟩ untaken
    | reading readers =>
      cases readers with
      | nil => rfl
      | cons t readers => exact absurd ⟨t, .shared, _, rfl, List.mem_cons_self⟩ untaken
  · rintro rfl ⟨t, access, holds⟩
    exact free_holds t access holds

/-- A writer is alone. -/
theorem Holds.alone {lock : RWLock T} {t u : T} {access : Access} (writes : lock.Holds t .exclusive)
    (holds : lock.Holds u access) : u = t ∧ access = .exclusive := by
  rw [Holds] at writes
  subst writes
  cases access with
  | shared =>
    obtain ⟨readers, reading, _⟩ := holds
    cases reading
  | exclusive =>
    cases holds
    exact ⟨rfl, rfl⟩

/-- A free lock is given to whoever asks. -/
theorem take_free (t : T) (access : Access) : ∃ lock, take t access free = some lock := by
  cases access
  · exact ⟨_, rfl⟩
  · exact ⟨_, rfl⟩

section Take

variable {lock next : RWLock T} {t : T} {access : Access}

theorem take_holds (given : take t access lock = some next) (u : T) (other : Access) :
    next.Holds u other ↔ lock.Holds u other ∨ u = t ∧ other = access := by
  cases lock with
  | writing writer => cases access <;> cases given
  | reading readers =>
    cases access with
    | shared =>
      cases given
      cases other with
      | shared => simp [Holds, or_comm]
      | exclusive => simp [Holds]
    | exclusive =>
      cases readers with
      | cons _ _ => cases given
      | nil =>
        cases given
        cases other with
        | shared => simp [Holds]
        | exclusive => simp [Holds, eq_comm]

theorem take_single (given : take t access lock = some next) (single : lock.Single)
    (outside : ∀ other, ¬ lock.Holds t other) : next.Single := by
  cases lock with
  | writing writer => cases access <;> cases given
  | reading readers =>
    cases access with
    | shared =>
      cases given
      exact List.nodup_cons.mpr ⟨fun member => outside .shared ⟨readers, rfl, member⟩, single⟩
    | exclusive =>
      cases readers with
      | cons _ _ => cases given
      | nil =>
        cases given
        trivial

/-- Exclusive access is given to a lock that nobody holds. -/
theorem take_exclusive (given : take t .exclusive lock = some next) : lock = free := by
  cases lock with
  | writing writer => cases given
  | reading readers =>
    cases readers with
    | cons _ _ => cases given
    | nil => rfl

/-- Shared access is given while nobody writes. -/
theorem take_shared (given : take t .shared lock = some next) (u : T) : ¬ lock.Holds u .exclusive := by
  rintro rfl
  cases given

end Take

section Release

variable [DecidableEq T]

/-- A holder gives the lock back. -/
def release (t : T) : RWLock T → RWLock T
  | .reading readers => .reading (readers.erase t)
  | .writing _ => free

/-- Whether a thread may give it back. -/
def heldBy (t : T) : RWLock T → Bool
  | .reading readers => readers.contains t
  | .writing writer => writer == t

variable {lock : RWLock T} {t : T} {access : Access}

theorem heldBy_iff : lock.heldBy t = true ↔ ∃ access, lock.Holds t access := by
  cases lock with
  | reading readers =>
    constructor
    · intro member
      exact ⟨.shared, readers, rfl, by simpa [heldBy] using member⟩
    · rintro ⟨access, holds⟩
      cases access with
      | exclusive => cases holds
      | shared =>
        obtain ⟨_, same, member⟩ := holds
        cases same
        simpa [heldBy] using member
  | writing writer =>
    constructor
    · intro same
      have own : writer = t := by simpa [heldBy] using same
      exact ⟨.exclusive, congrArg RWLock.writing own⟩
    · rintro ⟨access, holds⟩
      cases access with
      | shared =>
        obtain ⟨_, same, _⟩ := holds
        cases same
      | exclusive =>
        cases holds
        simp [heldBy]

theorem release_holds (held : lock.Holds t access) (single : lock.Single) (u : T) (other : Access) :
    (lock.release t).Holds u other ↔ lock.Holds u other ∧ u ≠ t := by
  cases lock with
  | writing writer =>
    have same : writer = t := by
      cases access with
      | shared =>
        obtain ⟨_, reading, _⟩ := held
        cases reading
      | exclusive =>
        cases held
        rfl
    subst same
    refine iff_of_false (free_holds u other) ?_
    rintro ⟨holds, apart⟩
    exact apart (Holds.alone rfl holds).1
  | reading readers =>
    cases other with
    | shared => simp [Holds, release, List.Nodup.mem_erase_iff single, and_comm]
    | exclusive => simp [Holds, release]

theorem release_single (single : lock.Single) : (lock.release t).Single := by
  cases lock with
  | writing writer => exact List.nodup_nil
  | reading readers => exact List.Nodup.erase t single

end Release

section Shows

variable {H : Type v} {owner owner' : H → Option T} {fine : RWLock H} {lock next : RWLock T}
variable {h : H} {t : T} {access : Access}

/-- Two views of one lock: `fine` tells holders apart that are one and the same to `lock`. -/
def Shows (owner : H → Option T) : RWLock H → RWLock T → Prop
  | .reading holders, .reading readers => (readers.map some).Perm (holders.map owner)
  | .writing holder, .writing writer => owner holder = some writer
  | _, _ => False

theorem Shows.free (shows : Shows owner free lock) : lock = .free := by
  cases lock with
  | writing writer => exact shows.elim
  | reading readers =>
    have none_left : readers.map some = [] := List.perm_nil.mp shows
    rw [List.map_eq_nil_iff.mp none_left]
    rfl

/-- Only the holders matter. -/
theorem Shows.congr (shows : Shows owner fine lock) (same : ∀ h access, fine.Holds h access → owner h = owner' h) :
    Shows owner' fine lock := by
  cases fine with
  | writing holder =>
    cases lock with
    | reading readers => exact shows.elim
    | writing writer => exact (same holder .exclusive rfl).symm.trans shows
  | reading holders =>
    cases lock with
    | writing writer => exact shows.elim
    | reading readers =>
      have maps : holders.map owner = holders.map owner' :=
        List.map_congr_left fun h member => same h .shared ⟨holders, rfl, member⟩
      have perm : (readers.map some).Perm (holders.map owner) := shows
      rwa [maps] at perm

theorem Shows.holds (shows : Shows owner fine lock) (own : owner h = some t) (held : fine.Holds h access) :
    lock.Holds t access := by
  cases access with
  | shared =>
    obtain ⟨holders, rfl, member⟩ := held
    cases lock with
    | writing writer => exact shows.elim
    | reading readers =>
      refine ⟨readers, rfl, ?_⟩
      have among : some t ∈ holders.map owner := List.mem_map.mpr ⟨h, member, own⟩
      simpa using (List.Perm.mem_iff shows).mpr among
  | exclusive =>
    cases held
    cases lock with
    | reading readers => exact shows.elim
    | writing writer =>
      cases shows.symm.trans own
      rfl

theorem Shows.take (shows : Shows owner fine lock) (own : owner h = some t)
    (given : lock.take t access = some next) : ∃ fine', fine.take h access = some fine' ∧ Shows owner fine' next := by
  cases access with
  | exclusive =>
    cases take_exclusive given
    cases fine with
    | writing holder => exact shows.elim
    | reading holders =>
      have none_held : holders.map owner = [] := List.nil_perm.mp shows
      cases List.map_eq_nil_iff.mp none_held
      cases given
      exact ⟨_, rfl, own⟩
  | shared =>
    cases lock with
    | writing writer => cases given
    | reading readers =>
      cases given
      cases fine with
      | writing holder => exact shows.elim
      | reading holders =>
        refine ⟨_, rfl, ?_⟩
        have perm : (readers.map some).Perm (holders.map owner) := shows
        change ((t :: readers).map some).Perm ((h :: holders).map owner)
        rw [List.map_cons, List.map_cons, own]
        exact perm.cons (some t)

/-- Who is refused finds a holder in the way. -/
theorem Shows.refused (shows : Shows owner fine lock) (refused : lock.take t access = none) :
    ∃ h other, fine.Holds h other ∧ (access = .exclusive ∨ other = .exclusive) := by
  cases fine with
  | writing holder => exact ⟨holder, .exclusive, rfl, .inr rfl⟩
  | reading holders =>
    cases holders with
    | nil =>
      rw [Shows.free shows] at refused
      obtain ⟨lock', given⟩ := take_free t access
      cases refused.symm.trans given
    | cons h holders =>
      refine ⟨h, .shared, ⟨_, rfl, List.mem_cons_self⟩, .inl ?_⟩
      cases lock with
      | writing writer => exact shows.elim
      | reading readers =>
        cases access with
        | shared => cases refused
        | exclusive => rfl

theorem Shows.release [DecidableEq T] [DecidableEq H] (shows : Shows owner fine lock) (own : owner h = some t)
    (held : fine.Holds h access) : Shows owner (fine.release h) (lock.release t) := by
  cases access with
  | exclusive =>
    cases held
    cases lock with
    | reading readers => exact shows.elim
    | writing writer => exact List.Perm.nil
  | shared =>
    obtain ⟨holders, rfl, member⟩ := held
    cases lock with
    | writing writer => exact shows.elim
    | reading readers =>
      have perm : (readers.map some).Perm (holders.map owner) := shows
      have split : (holders.map owner).Perm (some t :: (holders.erase h).map owner) := by
        have moved := (List.perm_cons_erase member).map owner
        rwa [List.map_cons, own] at moved
      have rest := (perm.trans split).erase (some t)
      rw [List.erase_cons_head, ← List.map_erase (fun _ _ => Option.some.inj)] at rest
      exact rest

end Shows

end RWLock

end Library
