import Sylar.Library.Locks

/-! A thread that works alone: with no lock of another thread in its way it runs its
code through. -/
namespace Library

namespace LockSystem

/-- All locks taken are those of one thread. -/
def alone [DecidableEq T] [DecidableEq K] (others : T → LockThread K A) (t : T) (code : List (LockInstr K A))
    (held : List K) (data : D) : LockSystem T K A D :=
  ⟨data, Function.update others t ⟨code, held⟩, fun k => if k ∈ held then some t else none⟩

/-- Some turns of a thread that works alone lead through the code, from some locks to
others. -/
def Finishes (T : Type) [DecidableEq T] [DecidableEq K]
    (perform : A → D → Option (List E × D × List (LockInstr K A))) (held : List K)
    (code : List (LockInstr K A)) (kept : List K) (data final : D) (events : List E) : Prop :=
  ∀ (others : T → LockThread K A) (t : T) (rest : List (LockInstr K A)),
    ∃ turns, run (stepThread perform) turns (alone others t (code ++ rest) held data) =
      some (events, alone others t rest kept final)

variable {T : Type} [DecidableEq T] [DecidableEq K]
variable {perform : A → D → Option (List E × D × List (LockInstr K A))}

namespace Finishes

variable {held middle kept : List K} {data between final : D} {events later : List E}

theorem one {code : List (LockInstr K A)} (step : ∀ (others : T → LockThread K A) (t : T) rest,
    stepThread perform (alone others t (code ++ rest) held data) t = some (events, alone others t rest kept final)) :
    Finishes T perform held code kept data final events := by
  intro others t rest
  exact ⟨[t], run_cons_eq_some.mpr ⟨events, _, [], step others t rest, rfl, (List.append_nil events).symm⟩⟩

theorem nil : Finishes T perform held [] held data data [] := fun _ _ _ => ⟨[], rfl⟩

theorem append {front back : List (LockInstr K A)}
    (first : Finishes T perform held front middle data between events)
    (second : Finishes T perform middle back kept between final later) :
    Finishes T perform held (front ++ back) kept data final (events ++ later) := by
  intro others t rest
  obtain ⟨turns, ran⟩ := first others t (back ++ rest)
  obtain ⟨more, ranMore⟩ := second others t rest
  rw [List.append_assoc]
  exact ⟨turns ++ more, run_append_eq_some.mpr ⟨events, _, later, ran, ranMore, rfl⟩⟩

theorem acquire {k : K} (free : k ∉ held) :
    Finishes T perform held [.acquire k] (k :: held) data data [] := by
  refine one fun others t rest => ?_
  have owner : Function.update (fun j => if j ∈ held then some t else none) k (some t) =
      fun j => if j ∈ k :: held then some t else none := by
    funext j
    by_cases same : j = k
    · simp [same]
    · simp [same]
  simp [stepThread, alone, setThread, free, owner]

theorem release {k : K} (once : k ∉ held) :
    Finishes T perform (k :: held) [.release k] held data data [] := by
  refine one fun others t rest => ?_
  have owner : Function.update (fun j => if j ∈ k :: held then some t else none) k none =
      fun j => if j ∈ held then some t else none := by
    funext j
    by_cases same : j = k
    · simp [same, once]
    · simp [same]
  simpa [stepThread, alone, setThread] using owner

/-- An action and what it leaves to do. -/
theorem act {a : A} {more : List (LockInstr K A)} (performed : perform a data = some (events, between, more))
    (rest : Finishes T perform held more kept between final later) :
    Finishes T perform held [.act a] kept data final (events ++ later) := by
  intro others t behind
  obtain ⟨turns, ran⟩ := rest others t behind
  have first : stepThread perform (alone others t ([.act a] ++ behind) held data) t =
      some (events, alone others t (more ++ behind) held between) := by
    simp [stepThread, alone, setThread, performed]
  exact ⟨t :: turns, run_cons_eq_some.mpr ⟨events, _, later, first, ran, rfl⟩⟩

/-- A lock is taken around a piece of code. -/
theorem locked {k : K} {code : List (LockInstr K A)} (free : k ∉ held)
    (inside : Finishes T perform (k :: held) code (k :: held) data final events) :
    Finishes T perform held (.acquire k :: (code ++ [.release k])) held data final events := by
  have whole := (acquire free).append (inside.append (release free))
  rwa [List.append_nil, List.nil_append] at whole

end Finishes

/-- The turns of a thread are turns of the system. -/
theorem run_stepThread (code : C → List (LockInstr K A)) {turns : List T} {s next : LockSystem T K A D}
    {events : List E} (ran : run (stepThread perform) turns s = some (events, next)) :
    run (step code perform) (turns.map .step) s = some (events, next) := by
  induction turns generalizing s events with
  | nil => exact ran
  | cons t turns ih =>
    obtain ⟨first, middle, later, taken, rest, rfl⟩ := run_cons_eq_some.mp ran
    exact run_cons_eq_some.mpr ⟨first, middle, later, taken, ih rest, rfl⟩

/-- A call whose code finishes has that effect while no lock is taken. -/
theorem Finishes.call {code : C → List (LockInstr K A)} {c : C} {s : LockSystem T K A D} {final : D}
    {events : List E} (finishes : Finishes T perform [] (code c) [] s.data final events) {t : T}
    (idle : s.thread t = ⟨[], []⟩) (free : ∀ k, s.owner k = none) :
    ∃ turns, run (step code perform) turns s = some (events, { s with data := final }) := by
  have owner : s.owner = fun k => if k ∈ ([] : List K) then some t else none := by
    funext k
    simp [free k]
  have given : s.step code perform (.call t c) = some ([], alone s.thread t (code c ++ []) [] s.data) := by
    simp only [step, idle, setThread, alone, List.append_nil, owner]
  have back : alone s.thread t [] [] final = { s with data := final } := by
    simp only [alone, ← owner, ← idle, Function.update_eq_self]
  obtain ⟨turns, ran⟩ := finishes s.thread t []
  rw [back] at ran
  exact ⟨.call t c :: turns.map .step,
    run_cons_eq_some.mpr ⟨[], _, events, given, run_stepThread code ran, rfl⟩⟩

end LockSystem

end Library
