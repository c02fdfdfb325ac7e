import Mathlib.Logic.Function.Basic
import Sylar.Config.Var
import Sylar.Library.Since

/-! The listeners of all variables of one type `T`. The counter of `addListener` is
static and shared by them; each variable has its own map. A variable that is made
later starts like one that was not used yet. -/
namespace Sylar

open Library

inductive ListenerCall (I : Type u) (T : Type v) (W : Type w) where
  | addListener (i : I) (cb : OnChange T W)
  | delListener (i : I) (id : Nat)
  | clearListener (i : I)

/-- What a call did; `added` carries the id that the call returned. -/
inductive ListenerEvent (I : Type u) (T : Type v) (W : Type w) where
  | added (i : I) (id : Nat) (cb : OnChange T W)
  | removed (i : I) (id : Nat)
  | cleared (i : I)

structure Listeners (I : Type u) (T : Type v) (W : Type w) where
  funId : Nat
  vars : I → ConfigVar T W

namespace Listeners

variable {I : Type u} {T : Type v} {W : Type w} [DecidableEq I]

def step (s : Listeners I T W) : ListenerCall I T W →
    Option (List (ListenerEvent I T W) × Listeners I T W)
  | .addListener i cb =>
    let (id, var) := (s.vars i).addListener cb s.funId
    some ([.added i id cb], ⟨id, Function.update s.vars i var⟩)
  | .delListener i id =>
    some ([.removed i id], { s with vars := Function.update s.vars i ((s.vars i).delListener id) })
  | .clearListener i =>
    some ([.cleared i], { s with vars := Function.update s.vars i (s.vars i).clearListener })

/-- `s_fun_id` starts at 0 and a new variable has no listeners. -/
def initial (names : I → Text) (defaults : I → T) : Listeners I T W :=
  ⟨0, fun i => ⟨names i, defaults i, .empty⟩⟩

def getListener (s : Listeners I T W) (i : I) (id : Nat) : Option (OnChange T W) :=
  (s.vars i).getListener id

/-- The ids that registrations returned, in order. -/
def issued (events : List (ListenerEvent I T W)) : List Nat :=
  events.filterMap fun
    | .added _ id _ => some id
    | _ => none

def registrations (calls : List (ListenerCall I T W)) : Nat :=
  calls.countP fun
    | .addListener _ _ => true
    | _ => false

/-- The callback was registered under the id on the variable and not removed since. -/
def Registered (events : List (ListenerEvent I T W)) (i : I) (id : Nat) (cb : OnChange T W) : Prop :=
  Since (· = .added i id cb) (fun event => event = .removed i id ∨ event = .cleared i) events

/-- All that a call can do to the counter and to the lookups. -/
theorem step_cases {s next : Listeners I T W} {call : ListenerCall I T W}
    {events : List (ListenerEvent I T W)} (taken : step s call = some (events, next)) :
    (∃ i cb, call = .addListener i cb ∧ next.funId = (s.funId + 1) % 2 ^ 64 ∧
      events = [.added i next.funId cb] ∧
      ∀ j id, next.getListener j id = if j = i ∧ id = next.funId then some cb else s.getListener j id) ∨
    (∃ i old, call = .delListener i old ∧ next.funId = s.funId ∧ events = [.removed i old] ∧
      ∀ j id, next.getListener j id = if j = i ∧ id = old then none else s.getListener j id) ∨
    (∃ i, call = .clearListener i ∧ next.funId = s.funId ∧ events = [.cleared i] ∧
      ∀ j id, next.getListener j id = if j = i then none else s.getListener j id) := by
  cases call with
  | addListener i cb =>
    cases taken
    refine .inl ⟨i, cb, rfl, rfl, rfl, ?_⟩
    intro j id
    by_cases here : j = i
    · subst here
      simp only [getListener, Function.update_self, ConfigVar.getListener, Table.find?_put, true_and,
        eq_comm (a := id)]
      split_ifs
      · rfl
      · rfl
    · simp [getListener, here]
  | delListener i old =>
    cases taken
    refine .inr (.inl ⟨i, old, rfl, rfl, rfl, ?_⟩)
    intro j id
    by_cases here : j = i
    · subst here
      simp only [getListener, Function.update_self, ConfigVar.getListener, ConfigVar.delListener,
        Table.find?_erase, true_and, eq_comm (a := id)]
      split_ifs
      · rfl
      · rfl
    · simp [getListener, here]
  | clearListener i =>
    cases taken
    refine .inr (.inr ⟨i, rfl, rfl, rfl, ?_⟩)
    intro j id
    by_cases here : j = i
    · subst here
      simp [getListener, ConfigVar.getListener, ConfigVar.clearListener, Table.find?, Table.empty]
    · simp [getListener, here]

theorem length_issued {calls : List (ListenerCall I T W)} {s final : Listeners I T W}
    {events : List (ListenerEvent I T W)} (ran : run step calls s = some (events, final)) :
    (issued events).length = registrations calls := by
  induction calls generalizing s events with
  | nil =>
    cases ran
    rfl
  | cons call calls ih =>
    obtain ⟨first, next, later, taken, rest, rfl⟩ := run_cons_eq_some.mp ran
    have counted := ih rest
    rcases step_cases taken with ⟨i, cb, rfl, _, rfl, _⟩ | ⟨i, old, rfl, _, rfl, _⟩ | ⟨i, rfl, _, rfl, _⟩
    all_goals simpa [issued, registrations] using counted

omit [DecidableEq I] in
theorem Registered.issued {past : List (ListenerEvent I T W)} {i : I} {id : Nat} {cb : OnChange T W}
    (registered : Registered past i id cb) : id ∈ issued past := by
  obtain ⟨event, member, rfl⟩ := registered.member
  exact List.mem_filterMap.mpr ⟨_, member, rfl⟩

omit [DecidableEq I] in
theorem registered_concat {past : List (ListenerEvent I T W)} {i : I} {id : Nat} {cb : OnChange T W}
    (event : ListenerEvent I T W) :
    Registered (past ++ [event]) i id cb ↔ event = .added i id cb ∨
      (Registered past i id cb ∧ event ≠ .removed i id ∧ event ≠ .cleared i) := by
  rw [Registered, since_concat, not_or]
  rfl

/-- The ids returned so far are those up to the counter, and the maps hold what the
calls so far registered. -/
structure Recorded (s : Listeners I T W) (past : List (ListenerEvent I T W)) : Prop where
  counted : issued past = List.range' 1 s.funId
  kept : ∀ i id cb, s.getListener i id = some cb ↔ Registered past i id cb

omit [DecidableEq I] in
theorem Recorded.fresh {s : Listeners I T W} {past : List (ListenerEvent I T W)}
    (recorded : Recorded s past) (i : I) {id : Nat} (above : s.funId < id) :
    s.getListener i id = none := by
  cases found : s.getListener i id with
  | none => rfl
  | some cb =>
    have member := ((recorded.kept i id cb).mp found).issued
    rw [recorded.counted, List.mem_range'_1] at member
    omega

omit [DecidableEq I] in
theorem recorded_initial (names : I → Text) (defaults : I → T) :
    Recorded (initial names defaults : Listeners I T W) [] := by
  refine ⟨rfl, ?_⟩
  intro i id cb
  have absent : (initial names defaults : Listeners I T W).getListener i id = none := rfl
  rw [absent]
  constructor
  · intro found
    cases found
  · intro registered
    cases registered.issued

theorem recorded_step {s next : Listeners I T W} {call : ListenerCall I T W}
    {past events : List (ListenerEvent I T W)} (few : (issued (past ++ events)).length < 2 ^ 64)
    (recorded : Recorded s past) (taken : step s call = some (events, next)) :
    Recorded next (past ++ events) := by
  rcases step_cases taken with ⟨i, cb, rfl, counter, rfl, lookup⟩ | ⟨i, old, rfl, counter, rfl, lookup⟩ |
    ⟨i, rfl, counter, rfl, lookup⟩
  · have length : (issued past).length = s.funId := by rw [recorded.counted, List.length_range']
    have appended : issued (past ++ [.added i next.funId cb]) = issued past ++ [next.funId] := by
      simp [issued]
    rw [appended, List.length_append, length] at few
    have successor : next.funId = s.funId + 1 := by
      rw [counter]
      exact Nat.mod_eq_of_lt few
    constructor
    · rw [appended, recorded.counted, successor, List.range'_1_concat, Nat.add_comm]
    · intro j id cb'
      rw [lookup, registered_concat]
      split_ifs with here
      · obtain ⟨rfl, rfl⟩ := here
        have unused : ¬ Registered past j next.funId cb' := by
          intro registered
          have found := (recorded.kept j next.funId cb').mpr registered
          rw [recorded.fresh j (by omega)] at found
          cases found
        simp [unused]
      · rw [recorded.kept]
        constructor
        · intro registered
          exact .inr ⟨registered, by simp, by simp⟩
        · rintro (same | ⟨registered, _⟩)
          · cases same
            exact absurd ⟨rfl, rfl⟩ here
          · exact registered
  · constructor
    · rw [counter, ← recorded.counted]
      simp [issued]
    · intro j id cb
      rw [lookup, registered_concat]
      split_ifs with here
      · obtain ⟨rfl, rfl⟩ := here
        simp
      · rw [recorded.kept]
        simp only [reduceCtorEq, false_or, ne_eq, ListenerEvent.removed.injEq, not_false_eq_true,
          and_true, iff_self_and]
        rintro - ⟨rfl, rfl⟩
        exact here ⟨rfl, rfl⟩
  · constructor
    · rw [counter, ← recorded.counted]
      simp [issued]
    · intro j id cb
      rw [lookup, registered_concat]
      split_ifs with here
      · subst here
        simp
      · rw [recorded.kept]
        simp [Ne.symm here]

/-- In a run with fewer than 2^64 registrations all that was recorded holds throughout. -/
theorem recorded_run {names : I → Text} {defaults : I → T} {calls : List (ListenerCall I T W)}
    {events : List (ListenerEvent I T W)} {final : Listeners I T W}
    (ran : run step calls (initial names defaults) = some (events, final))
    (few : registrations calls < 2 ^ 64) : Recorded final events := by
  have start : (issued ([] : List (ListenerEvent I T W))).length < 2 ^ 64 →
      Recorded (initial names defaults : Listeners I T W) [] := fun _ => recorded_initial names defaults
  have held := run_history (fun s past => (issued past).length < 2 ^ 64 → Recorded s past) ?_ ran start
  · apply held
    rwa [List.nil_append, length_issued ran]
  · intro s call past events next held taken few
    have before : (issued past).length < 2 ^ 64 := by
      rw [issued, List.filterMap_append, List.length_append] at few
      rw [issued]
      omega
    exact recorded_step few (held before) taken

/-- What a run from `start` leaves behind: no id was returned twice, no registration
replaced a listener of any variable, and a lookup gives the callback registered under
the id on that variable and not removed since. -/
structure NeverClash (start : Listeners I T W) (calls : List (ListenerCall I T W))
    (events : List (ListenerEvent I T W)) (final : Listeners I T W) : Prop where
  distinct : (issued events).Nodup
  unused : ∀ front i cb back past middle, calls = front ++ .addListener i cb :: back →
    run step front start = some (past, middle) →
    ∀ j, middle.getListener j ((middle.vars i).addListener cb middle.funId).1 = none
  lookup : ∀ i id cb, final.getListener i id = some cb ↔ Registered events i id cb

theorem never_clash (names : I → Text) (defaults : I → T) {calls : List (ListenerCall I T W)}
    {events : List (ListenerEvent I T W)} {final : Listeners I T W}
    (ran : run step calls (initial names defaults) = some (events, final))
    (few : registrations calls < 2 ^ 64) :
    NeverClash (initial names defaults) calls events final := by
  have recorded := recorded_run ran few
  refine ⟨?_, ?_, recorded.kept⟩
  · rw [recorded.counted]
    exact List.nodup_range'
  · rintro front i cb back past middle rfl ranFront j
    have split : registrations (front ++ ListenerCall.addListener i cb :: back) =
        registrations front + (registrations back + 1) := by
      simp [registrations]
    have before := recorded_run ranFront (by omega)
    have length : middle.funId = registrations front := by
      rw [← length_issued ranFront, before.counted, List.length_range']
    have successor : ((middle.vars i).addListener cb middle.funId).1 = middle.funId + 1 := by
      apply Nat.mod_eq_of_lt
      omega
    rw [successor]
    apply before.fresh j
    omega

def quiet : OnChange Nat Unit := fun _ _ _ => .returns () ()

/-- Two variables; the first id is removed on the wrong one, then on its own. -/
def twoVariables : List (ListenerCall Bool Nat Unit) :=
  [.addListener true quiet, .addListener false quiet, .delListener false 1, .delListener true 1]

theorem never_clash_two :
    ∃ events final, run step twoVariables (initial (fun _ => ['a']) fun _ => 0) = some (events, final) ∧
      NeverClash (initial (fun _ => ['a']) fun _ => 0) twoVariables events final :=
  ⟨_, _, rfl, never_clash (fun _ => ['a']) (fun _ => 0) rfl (by decide)⟩

end Listeners

end Sylar
