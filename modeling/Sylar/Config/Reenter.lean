import Sylar.Config.Var
import Sylar.Library.Walk

/-! Listeners that use their own variable. `setValue` calls them under its read lock, and
every call they make takes the lock of the same variable once more. One thread is
followed call by call, with the read locks that it holds. While it holds one no other
thread writes, so that the variable is its own until it writes itself. -/
namespace Sylar

open Library

/-- A call on the variable. What a listener does is a list of calls that depends on the
values it is given. -/
inductive Use (T : Type u) where
  | getValue
  | getListener (id : Nat)
  | addListener (cb : T → T → List (Use T))
  | delListener (id : Nat)
  | clearListener
  | setValue (v : T)

abbrev Body (T : Type u) := T → T → List (Use T)

/-- `m_val` and `m_cbs`, with the counter of the ids. -/
structure OwnVar (T : Type u) where
  val : T
  cbs : Table (fun entry : Nat × Body T => entry.1)
  funId : Nat

/-- The write-locked sections. -/
inductive Change (T : Type u) where
  | store (v : T)
  | add (cb : Body T)
  | del (id : Nat)
  | clear

def OwnVar.change (var : OwnVar T) : Change T → OwnVar T
  | .store v => { var with val := v }
  | .add cb =>
    let id := (var.funId + 1) % 2 ^ 64
    { var with cbs := var.cbs.put (id, cb), funId := id }
  | .del id => { var with cbs := var.cbs.erase id }
  | .clear => { var with cbs := .empty }

/-- The variable with listeners that do not come back to it. -/
def OwnVar.plain (name : Text) (var : OwnVar T) : ConfigVar T Unit :=
  let quiet (entry : Nat × Body T) : Nat × OnChange T Unit := (entry.1, fun _ _ world => .returns () world)
  ⟨name, var.val, var.cbs.map quiet fun _ => rfl⟩

theorem OwnVar.plain_quiet (name : Text) (var : OwnVar T) : (var.plain name).AllQuiet := by
  intro entry member old new world
  obtain ⟨_, _, rfl⟩ := List.mem_map.mp member
  exact ⟨world, rfl⟩

/-- What a thread still has to do: make a call, go on with the loop over the listeners,
leave the scope of a read lock, or take the write lock for a change. -/
inductive Todo (T : Type u) where
  | call (use : Use T)
  | notify (old new : T) (rest : List (Nat × Body T))
  | unlock
  | write (change : Change T)

structure Caller (T : Type u) where
  tasks : List (Todo T)
  /-- read locks held -/
  held : Nat
  var : OwnVar T

section Step

variable {T : Type u} [BEq T]

/-- How a call begins: it takes the read lock, or it asks for the write lock. -/
def enter (use : Use T) (rest : List (Todo T)) (held : Nat) (var : OwnVar T) : Caller T :=
  match use with
  | .getValue => ⟨.unlock :: rest, held + 1, var⟩
  | .getListener _ => ⟨.unlock :: rest, held + 1, var⟩
  | .addListener cb => ⟨.write (.add cb) :: rest, held, var⟩
  | .delListener id => ⟨.write (.del id) :: rest, held, var⟩
  | .clearListener => ⟨.write .clear :: rest, held, var⟩
  | .setValue v =>
    if v == var.val then ⟨.unlock :: rest, held + 1, var⟩
    -- nothing changes the listeners while the loop runs under the read lock
    else ⟨.notify var.val v var.cbs.entries :: .unlock :: .write (.store v) :: rest, held + 1, var⟩

/-- The write lock is not given while a read lock is held. -/
def Caller.step (s : Caller T) : Option (Caller T) :=
  match s.tasks with
  | [] => none
  | .call use :: rest => some (enter use rest s.held s.var)
  | .notify _ _ [] :: rest => some ⟨rest, s.held, s.var⟩
  | .notify old new ((_, cb) :: more) :: rest =>
    some ⟨(cb old new).map .call ++ .notify old new more :: rest, s.held, s.var⟩
  | .unlock :: rest => some ⟨rest, s.held - 1, s.var⟩
  | .write change :: rest => if s.held = 0 then some ⟨rest, 0, s.var.change change⟩ else none

/-- The thread asks for the write lock while it holds the read lock. -/
def OwnWait (s : Caller T) : Prop := (∃ change rest, s.tasks = .write change :: rest) ∧ 0 < s.held

theorem OwnWait.stuck (s : Caller T) (waits : OwnWait s) : s.step = none := by
  obtain ⟨⟨change, rest, tasks⟩, held⟩ := waits
  simp [Caller.step, tasks, Nat.ne_of_gt held]

/-- A call that does not ask for the write lock. -/
def Use.harmless (val : T) : Use T → Bool
  | .getValue | .getListener _ => true
  | .setValue v => v == val
  | _ => false

namespace OwnVar

/-- The calls of all listeners, in the order of their ids. -/
def calls (var : OwnVar T) (v : T) : List (Use T) := var.cbs.entries.flatMap fun entry => entry.2 var.val v

/-- The first of them that asks for the write lock, at once or after its own listeners. -/
def firstHazard (var : OwnVar T) (v : T) : Option (Use T) :=
  (var.calls v).find? fun use => !use.harmless var.val

/-- The value of the `n`-th `setValue` inside `setValue(v)`, each the first hazard of the
one around it. -/
def nested (var : OwnVar T) (v : T) : Nat → Option T
  | 0 => some v
  | n + 1 =>
    match var.nested v n with
    | none => none
    | some w =>
      match var.firstHazard w with
      | some (.setValue next) => some next
      | _ => none

/-- The calls go deeper and deeper. -/
def Endless (var : OwnVar T) (v : T) : Prop := ∀ n, var.nested v n ≠ none

end OwnVar

section Runs

variable {var : OwnVar T} {held : Nat} {rest : List (Todo T)}

theorem Caller.reaches_step {s next final : Caller T} (taken : s.step = some next)
    (later : StateTransition.Reaches Caller.step next final) : StateTransition.Reaches Caller.step s final :=
  .head taken later

/-- A harmless call takes the read lock and gives it back. -/
theorem harmless_call {use : Use T} (harmless : use.harmless var.val = true) :
    StateTransition.Reaches Caller.step ⟨.call use :: rest, held, var⟩ ⟨rest, held, var⟩ := by
  have entered : enter use rest held var = ⟨.unlock :: rest, held + 1, var⟩ := by
    cases use with
    | getValue | getListener => rfl
    | setValue v => exact if_pos harmless
    | addListener | delListener | clearListener => cases harmless
  apply Caller.reaches_step rfl
  rw [entered]
  exact Caller.reaches_step rfl .refl

theorem harmless_calls (rest : List (Todo T)) (held : Nat) {uses : List (Use T)} (harmless : ∀ use ∈ uses, use.harmless var.val = true) :
    StateTransition.Reaches Caller.step ⟨uses.map .call ++ rest, held, var⟩ ⟨rest, held, var⟩ := by
  induction uses with
  | nil => exact .refl
  | cons use uses ih =>
    obtain ⟨first, later⟩ := List.forall_mem_cons.mp harmless
    exact (harmless_call first).trans (ih later)

/-- Of several calls the first hazard is reached. -/
theorem hazard_call (rest : List (Todo T)) (held : Nat) {uses : List (Use T)} {use : Use T}
    (first : uses.find? (fun use => !use.harmless var.val) = some use) :
    ∃ tail, StateTransition.Reaches Caller.step ⟨uses.map .call ++ rest, held, var⟩ ⟨.call use :: tail, held, var⟩ := by
  obtain ⟨_, front, back, rfl, before⟩ := List.find?_eq_some_iff_append.mp first
  have harmless : ∀ use ∈ front, use.harmless var.val = true := by simpa using before
  refine ⟨back.map .call ++ rest, ?_⟩
  have reached := harmless_calls (.call use :: (back.map .call ++ rest)) held harmless
  simpa using reached

/-- The loop over listeners that make harmless calls only. -/
theorem harmless_loop {old new : T} {entries : List (Nat × Body T)}
    (harmless : ∀ use ∈ entries.flatMap fun entry => entry.2 old new, use.harmless var.val = true) :
    StateTransition.Reaches Caller.step ⟨.notify old new entries :: rest, held, var⟩ ⟨rest, held, var⟩ := by
  induction entries with
  | nil => exact Caller.reaches_step rfl .refl
  | cons entry more ih =>
    simp only [List.flatMap_cons, List.forall_mem_append] at harmless
    obtain ⟨first, later⟩ := harmless
    exact Caller.reaches_step rfl ((harmless_calls _ held first).trans (ih later))

/-- The loop comes to the first hazard among all the calls of the listeners. -/
theorem hazard_loop (rest : List (Todo T)) (held : Nat) {old new : T} {entries : List (Nat × Body T)} {use : Use T}
    (first : (entries.flatMap fun entry => entry.2 old new).find? (fun use => !use.harmless var.val) = some use) :
    ∃ tail, StateTransition.Reaches Caller.step ⟨.notify old new entries :: rest, held, var⟩
      ⟨.call use :: tail, held, var⟩ := by
  induction entries with
  | nil => cases first
  | cons entry more ih =>
    obtain ⟨id, cb⟩ := entry
    rw [List.flatMap_cons, List.find?_append, Option.or_eq_some_iff] at first
    rcases first with here | ⟨none_here, later⟩
    · obtain ⟨tail, reached⟩ := hazard_call (.notify old new more :: rest) held here
      exact ⟨tail, Caller.reaches_step rfl reached⟩
    · have harmless : ∀ use ∈ cb old new, use.harmless var.val = true := by simpa using none_here
      obtain ⟨tail, reached⟩ := ih later
      exact ⟨tail, Caller.reaches_step rfl ((harmless_calls _ held harmless).trans reached)⟩

/-- A hazard is a `setValue` of another value, or it asks for the write lock at once. -/
theorem hazard_cases {val : T} {use : Use T} (hazard : use.harmless val = false) :
    (∃ w, use = .setValue w ∧ (w == val) = false) ∨
    ∃ change, ∀ rest held var, enter use rest held var = ⟨.write change :: rest, held, var⟩ := by
  cases use with
  | getValue | getListener => cases hazard
  | setValue w => exact .inl ⟨w, rfl, hazard⟩
  | addListener cb => exact .inr ⟨.add cb, fun _ _ _ => rfl⟩
  | delListener id => exact .inr ⟨.del id, fun _ _ _ => rfl⟩
  | clearListener => exact .inr ⟨.clear, fun _ _ _ => rfl⟩

/-- A `setValue` of another value begins the loop over the listeners. -/
theorem enter_setValue (rest : List (Todo T)) (held : Nat) {v : T} (differs : (v == var.val) = false) :
    enter (.setValue v) rest held var =
      ⟨.notify var.val v var.cbs.entries :: .unlock :: .write (.store v) :: rest, held + 1, var⟩ :=
  if_neg (by simp [differs])

/-- Without a hazard `setValue` comes to its own write with no more locks than before. -/
theorem setValue_harmless {v : T} (differs : (v == var.val) = false) (harmless : var.firstHazard v = none) :
    StateTransition.Reaches Caller.step ⟨.call (.setValue v) :: rest, held, var⟩
      ⟨.write (.store v) :: rest, held, var⟩ := by
  apply Caller.reaches_step rfl
  rw [enter_setValue rest held differs]
  refine (harmless_loop ?_).trans (Caller.reaches_step rfl .refl)
  intro use member
  simpa using List.find?_eq_none.mp harmless use member

/-- With one it comes to that call, and holds one lock more. -/
theorem setValue_hazard (rest : List (Todo T)) (held : Nat) {v : T} {use : Use T} (differs : (v == var.val) = false)
    (first : var.firstHazard v = some use) :
    ∃ tail, StateTransition.Reaches₁ Caller.step ⟨.call (.setValue v) :: rest, held, var⟩
      ⟨.call use :: tail, held + 1, var⟩ := by
  obtain ⟨tail, reached⟩ := hazard_loop (.unlock :: .write (.store v) :: rest) (held + 1) first
  refine ⟨tail, Relation.TransGen.head' (b := enter (.setValue v) rest held var) rfl ?_⟩
  rw [enter_setValue rest held differs]
  exact reached

theorem firstHazard_differs {v w : T} (first : var.firstHazard v = some (.setValue w)) :
    (w == var.val) = false := by
  simpa [Use.harmless] using List.find?_some first

/-- The call that begins it all. -/
def OwnVar.setValue (var : OwnVar T) (v : T) : Caller T := ⟨[.call (.setValue v)], 0, var⟩

/-- Every nested call is reached, under as many read locks as it is deep. -/
theorem nested_reached {v w : T} {n : Nat} (differs : (v == var.val) = false)
    (deep : var.nested v n = some w) :
    (w == var.val) = false ∧
    ∃ tail, StateTransition.Reaches Caller.step (var.setValue v) ⟨.call (.setValue w) :: tail, n, var⟩ := by
  induction n generalizing w with
  | zero =>
    cases deep
    exact ⟨differs, [], .refl⟩
  | succ n ih =>
    rw [OwnVar.nested] at deep
    cases outer : var.nested v n with
    | none => simp [outer] at deep
    | some u =>
      obtain ⟨differs', tail, reached⟩ := ih outer
      cases first : var.firstHazard u with
      | none => simp [outer, first] at deep
      | some use =>
        cases use with
        | setValue next =>
          simp only [outer, first, Option.some.injEq] at deep
          subst deep
          obtain ⟨tail', onward⟩ := setValue_hazard tail n differs' first
          exact ⟨firstHazard_differs first, tail', reached.trans onward.to_reflTransGen⟩
        | getValue | getListener | addListener | delListener | clearListener => simp [outer, first] at deep

theorem endless_avoids {v : T} (differs : (v == var.val) = false) (endless : var.Endless v) :
    Avoids Caller.step OwnWait (var.setValue v) := by
  refine avoids_of_recurs OwnWait.stuck (P := fun s => ∃ n w tail, var.nested v n = some w ∧
    (w == var.val) = false ∧ s = ⟨.call (.setValue w) :: tail, n, var⟩) ?_ ⟨0, v, [], rfl, differs, rfl⟩
  rintro _ ⟨n, w, tail, deep, differs', rfl⟩
  have next := endless (n + 1)
  rw [OwnVar.nested, deep] at next
  cases first : var.firstHazard w with
  | none => simp [first] at next
  | some use =>
    cases use with
    | setValue w' =>
      obtain ⟨tail', onward⟩ := setValue_hazard tail n differs' first
      refine ⟨_, ⟨n + 1, w', tail', ?_, firstHazard_differs first, rfl⟩, onward⟩
      simp [OwnVar.nested, deep, first]
    | getValue | getListener | addListener | delListener | clearListener => simp [first] at next

/-- If the calls do not go deeper and deeper, the innermost of them asks for the write
lock, or one of its listeners does. -/
theorem reaches_ownWait {v : T} (differs : (v == var.val) = false) (hazard : var.firstHazard v ≠ none)
    (ending : ¬ var.Endless v) :
    ∃ s, StateTransition.Reaches Caller.step (var.setValue v) s ∧ OwnWait s := by
  obtain ⟨n, absent, deeper⟩ : ∃ n, var.nested v n = none ∧ ∀ m < n, var.nested v m ≠ none := by
    have some_n : ∃ n, var.nested v n = none := by simpa [OwnVar.Endless] using ending
    exact ⟨Nat.find some_n, Nat.find_spec some_n, fun m less => Nat.find_min some_n less⟩
  cases n with
  | zero => cases absent
  | succ n =>
    obtain ⟨w, deep⟩ := Option.ne_none_iff_exists'.mp (deeper n (Nat.lt_succ_self n))
    obtain ⟨differs', tail, reached⟩ := nested_reached differs deep
    cases first : var.firstHazard w with
    | none =>
      have positive : 0 < n := by
        cases n with
        | zero =>
          cases deep
          exact absurd first hazard
        | succ n => exact Nat.succ_pos n
      exact ⟨_, reached.trans (setValue_harmless differs' first), ⟨.store w, tail, rfl⟩, positive⟩
    | some use =>
      have dangerous : use.harmless var.val = false := by simpa using List.find?_some first
      rcases hazard_cases dangerous with ⟨next, rfl, _⟩ | ⟨change, asks⟩
      · simp [OwnVar.nested, deep, first] at absent
      · obtain ⟨tail', onward⟩ := setValue_hazard tail n differs' first
        have entered : Caller.step ⟨.call use :: tail', n + 1, var⟩ =
            some ⟨.write change :: tail', n + 1, var⟩ := congrArg some (asks tail' (n + 1) var)
        exact ⟨_, (reached.trans onward.to_reflTransGen).tail entered, ⟨change, tail', rfl⟩, Nat.succ_pos n⟩

theorem finished_avoids : Avoids (Caller.step (T := T)) OwnWait ⟨[], held, var⟩ := by
  intro s reached waits
  rcases Relation.ReflTransGen.cases_head reached with rfl | ⟨next, taken, _⟩
  · obtain ⟨⟨change, rest, tasks⟩, _⟩ := waits
    cases tasks
  · cases taken

/-- Without hazards the call stores the value and ends with no lock. -/
theorem setValue_ends {v : T} (differs : (v == var.val) = false) (harmless : var.firstHazard v = none) :
    StateTransition.Reaches Caller.step (var.setValue v) ⟨[], 0, var.change (.store v)⟩ :=
  (setValue_harmless differs harmless).tail rfl

/-- Where the call ends it has done what `setValue` does for such listeners. -/
theorem setValue_plain (name : Text) {v : T}
    (harmless : (v == var.val) = true ∨ var.firstHazard v = none) :
    ∃ final events, StateTransition.Reaches Caller.step (var.setValue v) ⟨[], 0, final⟩ ∧
      (var.plain name).setValue v () = (events, final.plain name, .returns () ()) := by
  obtain ⟨events, after, next, set⟩ := (var.plain name).setValue_quiet v () (var.plain_quiet name)
  rcases ConfigVar.setValue_cases set with ⟨same, rfl, rfl, _⟩ | ⟨differs, _, rfl, _⟩
  · exact ⟨var, [], harmless_call same, set⟩
  · have quiet : var.firstHazard v = none := by
      rcases harmless with same | quiet
      · cases differs.symm.trans same
      · exact quiet
    exact ⟨var.change (.store v), events, setValue_ends differs quiet, set⟩

end Runs

/-- `setValue` never asks for the write lock under a read lock of its own thread exactly
if the value is the current one, or no listener makes a call that asks for the write lock,
or the first such call is a `setValue` whose first such call is again one, without end. -/
theorem own_lock_iff (var : OwnVar T) (v : T) :
    Avoids Caller.step OwnWait (var.setValue v) ↔
      (v == var.val) = true ∨ var.firstHazard v = none ∨ var.Endless v := by
  cases differs : v == var.val with
  | true =>
    have ends : StateTransition.Reaches Caller.step (var.setValue v) ⟨[], 0, var⟩ := harmless_call differs
    exact iff_of_true ((avoids_iff_of_reaches OwnWait.stuck ends).mpr finished_avoids) (.inl rfl)
  | false =>
    simp only [Bool.false_eq_true, false_or]
    constructor
    · intro avoids
      by_contra contra
      obtain ⟨hazard, ending⟩ := not_or.mp contra
      obtain ⟨s, reached, waits⟩ := reaches_ownWait differs hazard ending
      exact avoids s reached waits
    · rintro (harmless | endless)
      · exact (avoids_iff_of_reaches OwnWait.stuck (setValue_ends differs harmless)).mpr finished_avoids
      · exact endless_avoids differs endless

end Step

/-- A listener that reads the value. -/
def readerVar : OwnVar Nat := ⟨0, Table.empty.put (1, fun _ _ => [.getValue]), 1⟩

theorem setValue_plain_reader :
    ∃ final events, StateTransition.Reaches Caller.step (readerVar.setValue 1) ⟨[], 0, final⟩ ∧
      (readerVar.plain ['n']).setValue 1 () = (events, final.plain ['n'], .returns () ()) :=
  setValue_plain ['n'] (.inr rfl)

/-- A listener that is removed when it is called. -/
def oneShot : OwnVar Nat := ⟨0, Table.empty.put (1, fun _ _ => [.delListener 1]), 1⟩

/-- Its `delListener` waits for the read lock under which it is called. -/
theorem one_shot_stuck :
    ∃ s, StateTransition.Reaches Caller.step (oneShot.setValue 1) s ∧ OwnWait s ∧ s.step = none := by
  obtain ⟨s, reached, waits⟩ : ∃ s, StateTransition.Reaches Caller.step (oneShot.setValue 1) s ∧ OwnWait s := by
    have first : oneShot.firstHazard 1 = some (.delListener 1) := rfl
    apply reaches_ownWait rfl (by simp [first])
    intro endless
    exact endless 1 rfl
  exact ⟨s, reached, waits, waits.stuck⟩

end Sylar
