import Mathlib.Logic.Function.Basic
import Sylar.Library.Machine
import Sylar.Library.ReadWrite

/-! Threads whose work on shared data stands in sections, each under one readers-writer
lock. Sections of many threads interleave step by step; what comes of it is what comes of
whole sections, one at a time, in the order in which the locks are given back. -/
namespace Library

/-- The code of the threads. `L` is what a thread has of its own: its variables and where
it stands. -/
structure Sections (K D L E : Type*) where
  /-- outside: the lock of the next section -/
  wants : L → Option (K × Access)
  /-- a step of a section with shared access; it cannot change the data -/
  read : L → D → Option (List E × L)
  write : L → D → Option (List E × D × L)
  /-- the section is over, and this is where it leaves the thread -/
  exit : L → Option L

/-- Each lock protects its own data. -/
structure Contended (T K D L : Type*) where
  lock : K → RWLock T
  data : K → D
  thread : T → L
  inside : T → Option (K × Access)

/-- The same threads with sections that are one step each. -/
structure Atomic (T K D L : Type*) where
  data : K → D
  thread : T → L

inductive Move (T : Type*) where
  | enter (t : T)
  | work (t : T)
  | leave (t : T)
  deriving DecidableEq, Repr

/-- The section that a move ends. -/
def Move.left : Move T → Option T
  | .leave t => some t
  | _ => none

namespace Sections

variable {T K D L E : Type*} (code : Sections K D L E)

/-- A step inside a section. -/
def body : Access → L → D → Option (List E × D × L)
  | .shared, l, d => (code.read l d).map fun (events, l') => (events, d, l')
  | .exclusive, l, d => code.write l d

/-- The steps of a section so far, from its begin. -/
inductive Inside (access : Access) (l : L) (d : D) : List E → D → L → Prop
  | start : Inside access l d [] d l
  | step {past events : List E} {d₁ d₂ : D} {l₁ l₂ : L} (before : Inside access l d past d₁ l₁)
      (taken : code.body access l₁ d₁ = some (events, d₂, l₂)) : Inside access l d (past ++ events) d₂ l₂

variable {code}

/-- A section with shared access leaves the data as it is. -/
theorem Inside.unchanged {l l' : L} {d d' : D} {events : List E}
    (ran : code.Inside .shared l d events d' l') : d' = d := by
  induction ran with
  | start => rfl
  | step before taken ih =>
    obtain ⟨result, _, same⟩ := Option.map_eq_some_iff.mp taken
    cases same
    exact ih

/-- A property of the thread and the data that every step of a section keeps. -/
theorem Inside.invariant {access : Access} {l l' : L} {d d' : D} {events : List E}
    (property : List E → D → L → Prop)
    (kept : ∀ past d l events d' l', property past d l → code.body access l d = some (events, d', l') →
      property (past ++ events) d' l')
    (ran : code.Inside access l d events d' l') (initial : property [] d l) : property events d' l' := by
  induction ran with
  | start => exact initial
  | step before taken ih => exact kept _ _ _ _ _ _ ih taken

variable (code)

/-- `effect` is what a section does as a whole. -/
def Meets (effect : Access → L → D → Option (List E × D × L)) : Prop :=
  ∀ k access l d events d' l' after, code.wants l = some (k, access) →
    code.Inside access l d events d' l' → code.exit l' = some after → effect access l d = some (events, d', after)

end Sections

namespace Contended

variable {T K D L E : Type*}

def start (data : K → D) (thread : T → L) : Contended T K D L :=
  ⟨fun _ => .free, data, thread, fun _ => none⟩

/-- The locks are held by the threads inside. -/
structure Guarded (s : Contended T K D L) : Prop where
  holders : ∀ k t access, (s.lock k).Holds t access ↔ s.inside t = some (k, access)
  single : ∀ k, (s.lock k).Single

theorem start_guarded (data : K → D) (thread : T → L) : (start data thread).Guarded where
  holders k t access := by simp [start]
  single k := List.nodup_nil

/-- While a thread writes no other thread is at the same data. -/
theorem Guarded.alone {s : Contended T K D L} (guarded : s.Guarded) {t u : T} {k : K} {access : Access}
    (writes : s.inside t = some (k, .exclusive)) (inside : s.inside u = some (k, access)) : u = t :=
  (((guarded.holders k t .exclusive).mpr writes).alone ((guarded.holders k u access).mpr inside)).1

variable [DecidableEq T] [DecidableEq K]

/-- Events carry the thread that they are of. -/
def step (code : Sections K D L E) (s : Contended T K D L) : Move T → Option (List (T × E) × Contended T K D L)
  | .enter t =>
    match s.inside t, code.wants (s.thread t) with
    | none, some (k, access) =>
      match (s.lock k).take t access with
      | some lock =>
        some ([], { s with
          lock := Function.update s.lock k lock
          inside := Function.update s.inside t (some (k, access)) })
      | none => none
    | _, _ => none
  | .work t =>
    match s.inside t with
    | some (k, access) =>
      match code.body access (s.thread t) (s.data k) with
      | some (events, d, l) =>
        some (events.map fun e => (t, e), { s with
          data := Function.update s.data k d
          thread := Function.update s.thread t l })
      | none => none
    | none => none
  | .leave t =>
    match s.inside t, code.exit (s.thread t) with
    | some (k, _), some l =>
      some ([], { s with
        lock := Function.update s.lock k ((s.lock k).release t)
        thread := Function.update s.thread t l
        inside := Function.update s.inside t none })
    | _, _ => none

variable {code : Sections K D L E} {s next : Contended T K D L} {events : List (T × E)}

/-- What a move can be. -/
theorem step_cases {move : Move T} (taken : s.step code move = some (events, next)) :
    (∃ t k access lock, move = .enter t ∧ s.inside t = none ∧ code.wants (s.thread t) = some (k, access) ∧
      (s.lock k).take t access = some lock ∧ events = [] ∧
      next = { s with
        lock := Function.update s.lock k lock
        inside := Function.update s.inside t (some (k, access)) }) ∨
    (∃ t k access emitted d l, move = .work t ∧ s.inside t = some (k, access) ∧
      code.body access (s.thread t) (s.data k) = some (emitted, d, l) ∧
      events = emitted.map (fun e => (t, e)) ∧
      next = { s with data := Function.update s.data k d, thread := Function.update s.thread t l }) ∨
    ∃ t k access l, move = .leave t ∧ s.inside t = some (k, access) ∧ code.exit (s.thread t) = some l ∧
      events = [] ∧
      next = { s with
        lock := Function.update s.lock k ((s.lock k).release t)
        thread := Function.update s.thread t l
        inside := Function.update s.inside t none } := by
  cases move with
  | enter t =>
    simp only [step] at taken
    split at taken
    · rename_i k access outside wants
      split at taken
      · rename_i lock given
        cases taken
        exact .inl ⟨t, k, access, lock, rfl, outside, wants, given, rfl, rfl⟩
      · cases taken
    · cases taken
  | work t =>
    simp only [step] at taken
    split at taken
    · rename_i k access inside
      split at taken
      · rename_i emitted d l worked
        cases taken
        exact .inr (.inl ⟨t, k, access, emitted, d, l, rfl, inside, worked, rfl, rfl⟩)
      · cases taken
    · cases taken
  | leave t =>
    simp only [step] at taken
    split at taken
    · rename_i k access l inside ended
      cases taken
      exact .inr (.inr ⟨t, k, access, l, rfl, inside, ended, rfl, rfl⟩)
    · cases taken

theorem Guarded.step (guarded : s.Guarded) {move : Move T} (taken : s.step code move = some (events, next)) :
    next.Guarded := by
  rcases step_cases taken with ⟨t, k, access, lock, _, outside, _, given, _, rfl⟩ |
    ⟨t, k, access, emitted, d, l, _, _, _, _, rfl⟩ | ⟨t, k, access, l, _, inside, _, _, rfl⟩
  · have free (other : Access) : ¬ (s.lock k).Holds t other := fun holds => by
      rw [(guarded.holders k t other).mp holds] at outside
      cases outside
    refine ⟨?_, ?_⟩
    · intro k' u other
      by_cases same : k' = k
      · subst same
        simp only [Function.update_self, RWLock.take_holds given, guarded.holders]
        by_cases self : u = t
        · subst self
          simp [outside, eq_comm]
        · simp [self]
      · simp only [Function.update_of_ne same, guarded.holders]
        by_cases self : u = t
        · subst self
          simp [outside, Ne.symm same]
        · simp [self]
    · intro k'
      by_cases same : k' = k
      · subst same
        simp only [Function.update_self]
        exact RWLock.take_single given (guarded.single k') free
      · simp only [Function.update_of_ne same]
        exact guarded.single k'
  · exact ⟨guarded.holders, guarded.single⟩
  · have held := (guarded.holders k t access).mpr inside
    refine ⟨?_, ?_⟩
    · intro k' u other
      by_cases same : k' = k
      · subst same
        simp only [Function.update_self, RWLock.release_holds held (guarded.single k'), guarded.holders]
        by_cases self : u = t
        · simp [self]
        · simp [self]
      · simp only [Function.update_of_ne same, guarded.holders]
        by_cases self : u = t
        · subst self
          simp [inside, Ne.symm same]
        · simp [self]
    · intro k'
      by_cases same : k' = k
      · subst same
        simp only [Function.update_self]
        exact RWLock.release_single (guarded.single k')
      · simp only [Function.update_of_ne same]
        exact guarded.single k'

end Contended

namespace Atomic

variable {T K D L E : Type*} [DecidableEq T] [DecidableEq K]

/-- A thread runs its next section as a whole. -/
def step (code : Sections K D L E) (effect : Access → L → D → Option (List E × D × L)) (s : Atomic T K D L) (t : T) :
    Option (List (T × E) × Atomic T K D L) :=
  match code.wants (s.thread t) with
  | some (k, access) =>
    match effect access (s.thread t) (s.data k) with
    | some (events, d, l) =>
      some (events.map fun e => (t, e), ⟨Function.update s.data k d, Function.update s.thread t l⟩)
    | none => none
  | none => none

end Atomic

section Refinement

variable {T K D L E : Type*}

/-- What a thread has emitted. -/
def own [DecidableEq T] (t : T) (events : List (T × E)) : List E :=
  events.filterMap fun event => if event.1 = t then some event.2 else none

/-- `s` is `a` with some threads inside their sections; `pending` is what these have
emitted there. -/
structure Refines (code : Sections K D L E) (s : Contended T K D L) (a : Atomic T K D L) (pending : T → List E) :
    Prop where
  guarded : s.Guarded
  data : ∀ k, (∀ t, s.inside t ≠ some (k, .exclusive)) → s.data k = a.data k
  outside : ∀ t, s.inside t = none → s.thread t = a.thread t ∧ pending t = []
  inside : ∀ t k access, s.inside t = some (k, access) → code.wants (a.thread t) = some (k, access) ∧
    code.Inside access (a.thread t) (a.data k) (pending t) (s.data k) (s.thread t)

theorem refines_start (code : Sections K D L E) (data : K → D) (thread : T → L) :
    Refines code (.start data thread) ⟨data, thread⟩ fun _ => [] where
  guarded := Contended.start_guarded data thread
  data k _ := rfl
  outside t _ := ⟨rfl, rfl⟩
  inside t k access inside := by cases inside

variable {code : Sections K D L E} {effect : Access → L → D → Option (List E × D × L)}
variable {s next : Contended T K D L} {a : Atomic T K D L} {pending : T → List E} {events : List (T × E)}

variable [DecidableEq T]

@[simp] theorem own_nil (t : T) : own t ([] : List (T × E)) = [] := rfl

@[simp] theorem own_append (t : T) (front back : List (T × E)) : own t (front ++ back) = own t front ++ own t back :=
  List.filterMap_append

@[simp] theorem own_self (t : T) (events : List E) : own t (events.map fun e => (t, e)) = events := by
  simp [own, List.filterMap_map]

@[simp] theorem own_singleton (t u : T) (e : E) : own t [(u, e)] = if u = t then [e] else [] := by
  by_cases same : u = t <;> simp [own, same]

theorem mem_own {t : T} {e : E} {events : List (T × E)} : e ∈ own t events ↔ (t, e) ∈ events := by
  simp only [own, List.mem_filterMap]
  constructor
  · rintro ⟨⟨u, e'⟩, member, here⟩
    split at here
    · rename_i same
      cases same
      cases here
      exact member
    · cases here
  · intro member
    exact ⟨(t, e), member, if_pos rfl⟩

theorem own_other {t u : T} (other : u ≠ t) (events : List E) : own t (events.map fun e => (u, e)) = [] := by
  simp [own, List.filterMap_map, other]

variable [DecidableEq K]

/-- A thread goes in: nothing has happened yet in its section. -/
theorem Refines.enter (refines : Refines code s a pending) {t : T} {k : K} {access : Access} {lock : RWLock T}
    (outside : s.inside t = none) (wants : code.wants (s.thread t) = some (k, access))
    (given : (s.lock k).take t access = some lock)
    (guarded : Contended.Guarded { s with
      lock := Function.update s.lock k lock
      inside := Function.update s.inside t (some (k, access)) }) :
    Refines code { s with
      lock := Function.update s.lock k lock
      inside := Function.update s.inside t (some (k, access)) } a pending := by
  obtain ⟨same, silent⟩ := refines.outside t outside
  -- whoever gets the lock finds no writer
  have unwritten (u : T) : s.inside u ≠ some (k, .exclusive) := by
    intro writes
    have holds := (refines.guarded.holders k u .exclusive).mpr writes
    cases access with
    | shared => exact RWLock.take_shared given u holds
    | exclusive =>
      rw [RWLock.take_exclusive given] at holds
      exact RWLock.free_holds u .exclusive holds
  refine ⟨guarded, ?_, ?_, ?_⟩
  · intro k' others
    apply refines.data k'
    intro u writes
    have apart : u ≠ t := by
      rintro rfl
      rw [outside] at writes
      cases writes
    refine others u ?_
    simpa only [Function.update_of_ne apart] using writes
  · intro u out
    by_cases self : u = t
    · subst self
      simp at out
    · exact refines.outside u (by simpa only [Function.update_of_ne self] using out)
  · intro u k' other inside
    by_cases self : u = t
    · subst self
      simp only [Function.update_self, Option.some.injEq, Prod.mk.injEq] at inside
      obtain ⟨rfl, rfl⟩ := inside
      rw [← same, silent, refines.data k unwritten]
      exact ⟨wants, .start⟩
    · exact refines.inside u k' other (by simpa only [Function.update_of_ne self] using inside)

/-- A step inside: with shared access the data stay, with exclusive access nobody else is there. -/
theorem Refines.work (refines : Refines code s a pending) {t : T} {k : K} {access : Access} {emitted : List E} {d : D} {l : L}
    (inside : s.inside t = some (k, access))
    (worked : code.body access (s.thread t) (s.data k) = some (emitted, d, l)) :
    Refines code { s with data := Function.update s.data k d, thread := Function.update s.thread t l } a
      (Function.update pending t (pending t ++ emitted)) := by
  obtain ⟨wants, ran⟩ := refines.inside t k access inside
  refine ⟨⟨refines.guarded.holders, refines.guarded.single⟩, ?_, ?_, ?_⟩
  · intro k' others
    by_cases same : k' = k
    · subst same
      cases access with
      | exclusive => exact absurd inside (others t)
      | shared =>
        simp only [Function.update_self]
        exact (ran.step worked).unchanged
    · simpa only [Function.update_of_ne same] using refines.data k' others
  · intro u out
    have apart : u ≠ t := by
      rintro rfl
      rw [inside] at out
      cases out
    simpa only [Function.update_of_ne apart] using refines.outside u out
  · intro u k' other within
    by_cases self : u = t
    · subst self
      cases inside.symm.trans within
      simp only [Function.update_self]
      exact ⟨wants, ran.step worked⟩
    · simp only [Function.update_of_ne self]
      obtain ⟨wants', ran'⟩ := refines.inside u k' other within
      by_cases same : k' = k
      · subst same
        cases access with
        | exclusive => exact absurd (refines.guarded.alone inside within) self
        | shared =>
          have kept : d = s.data k' := (ran.step worked).unchanged.trans ran.unchanged.symm
          simp only [Function.update_self, kept]
          exact ⟨wants', ran'⟩
      · simp only [Function.update_of_ne same]
        exact ⟨wants', ran'⟩

/-- A thread comes out, and its section is done as a whole. -/
theorem Refines.leave (meets : code.Meets effect) (refines : Refines code s a pending) {t : T} {k : K}
    {access : Access} {l : L} (inside : s.inside t = some (k, access)) (ended : code.exit (s.thread t) = some l)
    (guarded : Contended.Guarded { s with
      lock := Function.update s.lock k ((s.lock k).release t)
      thread := Function.update s.thread t l
      inside := Function.update s.inside t none }) :
    ∃ a', a.step code effect t = some ((pending t).map fun e => (t, e), a') ∧
      Refines code { s with
        lock := Function.update s.lock k ((s.lock k).release t)
        thread := Function.update s.thread t l
        inside := Function.update s.inside t none } a' (Function.update pending t []) := by
  obtain ⟨wants, ran⟩ := refines.inside t k access inside
  have whole := meets k access _ _ _ _ _ l wants ran ended
  refine ⟨⟨Function.update a.data k (s.data k), Function.update a.thread t l⟩, ?_, guarded, ?_, ?_, ?_⟩
  · simp only [Atomic.step, wants, whole]
  · intro k' others
    by_cases same : k' = k
    · subst same
      simp only [Function.update_self]
    · simp only [Function.update_of_ne same]
      apply refines.data k'
      intro u writes
      have apart : u ≠ t := by
        rintro rfl
        cases inside.symm.trans writes
        exact same rfl
      refine others u ?_
      simpa only [Function.update_of_ne apart] using writes
  · intro u out
    by_cases self : u = t
    · subst self
      simp only [Function.update_self, and_self]
    · simp only [Function.update_of_ne self] at out ⊢
      exact refines.outside u out
  · intro u k' other within
    by_cases self : u = t
    · subst self
      simp at within
    · simp only [Function.update_of_ne self] at within ⊢
      obtain ⟨wants', ran'⟩ := refines.inside u k' other within
      refine ⟨wants', ?_⟩
      by_cases same : k' = k
      · subst same
        cases access with
        | exclusive => exact absurd (refines.guarded.alone inside within) self
        | shared =>
          simp only [Function.update_self, ran.unchanged]
          rwa [ran.unchanged] at ran'
      · simpa only [Function.update_of_ne same] using ran'

/-- A move is nothing to the whole sections, or it is one of them. -/
theorem Refines.step (meets : code.Meets effect) (refines : Refines code s a pending) {move : Move T}
    (taken : s.step code move = some (events, next)) :
    ∃ a' pending' whole, run (Atomic.step code effect) move.left.toList a = some (whole, a') ∧
      Refines code next a' pending' ∧ ∀ t, pending t ++ own t events = own t whole ++ pending' t := by
  have guarded := refines.guarded.step taken
  rcases Contended.step_cases taken with ⟨t, k, access, lock, rfl, outside, wants, given, rfl, rfl⟩ |
    ⟨t, k, access, emitted, d, l, rfl, inside, worked, rfl, rfl⟩ | ⟨t, k, access, l, rfl, inside, ended, rfl, rfl⟩
  · exact ⟨a, pending, [], rfl, refines.enter outside wants given guarded, by simp⟩
  · refine ⟨a, _, [], rfl, refines.work inside worked, ?_⟩
    intro u
    by_cases self : u = t
    · simp [self]
    · simp [self, own_other (Ne.symm self)]
  · obtain ⟨a', whole, refines'⟩ := refines.leave meets inside ended guarded
    refine ⟨a', _, _, run_cons_eq_some.mpr ⟨_, a', [], whole, rfl, rfl⟩, refines', ?_⟩
    intro u
    by_cases self : u = t
    · simp [self]
    · simp [self, own_other (Ne.symm self)]

/-- A run by many threads does what whole sections do in the order in which they end, and
each thread emits the same. -/
theorem Refines.run (meets : code.Meets effect) (refines : Refines code s a pending) {moves : List (Move T)}
    (ran : run (Contended.step code) moves s = some (events, next)) :
    ∃ a' pending' whole, run (Atomic.step code effect) (moves.filterMap Move.left) a = some (whole, a') ∧
      Refines code next a' pending' ∧ ∀ t, pending t ++ own t events = own t whole ++ pending' t := by
  induction moves generalizing s a pending events with
  | nil =>
    cases ran
    exact ⟨a, pending, [], rfl, refines, by simp⟩
  | cons move moves ih =>
    obtain ⟨first, middle, later, taken, rest, rfl⟩ := run_cons_eq_some.mp ran
    obtain ⟨a₁, pending₁, whole₁, one, refines₁, emitted₁⟩ := refines.step meets taken
    obtain ⟨a₂, pending₂, whole₂, others, refines₂, emitted₂⟩ := ih refines₁ rest
    refine ⟨a₂, pending₂, whole₁ ++ whole₂, ?_, refines₂, ?_⟩
    · have split : (move :: moves).filterMap Move.left = move.left.toList ++ moves.filterMap Move.left := by
        cases left : move.left <;> simp [left]
      rw [split]
      exact run_append_eq_some.mpr ⟨whole₁, a₁, whole₂, one, others, rfl⟩
    · intro t
      rw [own_append, ← List.append_assoc, emitted₁, List.append_assoc, emitted₂, own_append, List.append_assoc]

/-- Where no thread is inside, nothing is left but the effect of the whole sections. -/
theorem run_atomic (meets : code.Meets effect) {data : K → D} {thread : T → L} {moves : List (Move T)}
    (ran : Library.run (Contended.step code) moves (.start data thread) = some (events, s))
    (ended : ∀ t, s.inside t = none) :
    ∃ whole, Library.run (Atomic.step code effect) (moves.filterMap Move.left) ⟨data, thread⟩ =
      some (whole, ⟨s.data, s.thread⟩) ∧ ∀ t, own t events = own t whole := by
  obtain ⟨a, pending, whole, atomic, refines, emitted⟩ := (refines_start code data thread).run meets ran
  have sameData : a.data = s.data := by
    funext k
    refine (refines.data k fun t => ?_).symm
    rw [ended t]
    exact fun inside => by cases inside
  have sameThread : a.thread = s.thread := funext fun t => ((refines.outside t (ended t)).1).symm
  refine ⟨whole, ?_, ?_⟩
  · rw [← sameData, ← sameThread]
    exact atomic
  · intro t
    have silent := (refines.outside t (ended t)).2
    simpa [silent] using emitted t

end Refinement

end Library
