import Sylar.Config.Var
import Sylar.Library.Machine
import Sylar.Library.Chain

/-! Sequential runs on one configuration variable. What a variable does is stated
first without listeners (`effect`, `history`); a registered listener receives
exactly that history. -/
namespace Sylar

open Library

/-- A variable, the id counter of its type and the rest of the program. -/
structure Session (T : Type u) (W : Type v) where
  var : ConfigVar T W
  funId : Nat
  world : W

inductive Op (T : Type u) (W : Type v) where
  | setValue (v : T)
  | fromString (text : Text)
  | addListener (cb : OnChange T W)
  | delListener (id : Nat)
  | clearListener

/-- Registration never adds a listener that throws. -/
def Op.Quiet : Op T W → Prop
  | .addListener cb => Sylar.Quiet cb
  | _ => True

section Run

variable {T : Type u} {W : Type v} [BEq T] (fromStr : Text → Except Exn T)

/-- One public call; the caller goes on after an exception, not after a crash. -/
def Session.step (s : Session T W) : Op T W → Option (List (Event T) × Session T W)
  | .setValue v =>
    let (events, var, outcome) := s.var.setValue v s.world
    outcome.world?.map fun world => (events, { s with var := var, world := world })
  | .fromString text =>
    let (events, var, outcome) := s.var.fromString fromStr text s.world
    outcome.world?.map fun world => (events, { s with var := var, world := world })
  | .addListener cb =>
    let (id, var) := s.var.addListener cb s.funId
    some ([], { s with var := var, funId := id })
  | .delListener id => some ([], { s with var := s.var.delListener id })
  | .clearListener => some ([], { s with var := s.var.clearListener })

/-- The listeners after a call: only the three registration calls touch them. -/
def Session.listeners (s : Session T W) :
    Op T W → Table (fun entry : Nat × OnChange T W => entry.1)
  | .addListener cb => s.var.cbs.put ((s.funId + 1) % 2 ^ 64, cb)
  | .delListener id => s.var.cbs.erase id
  | .clearListener => .empty
  | .setValue _ | .fromString _ => s.var.cbs

/-- The value that a call puts in place of the current one, if it differs. -/
def effect (val : T) : Op T W → Option T
  | .setValue v => if v == val then none else some v
  | .fromString text =>
    match fromStr text with
    | .ok v => if v == val then none else some v
    | .error _ => none
  | _ => none

/-- The effective changes of a list of calls, from a given value on. -/
def history (val : T) : List (Op T W) → List (T × T)
  | [] => []
  | op :: ops =>
    match effect fromStr val op with
    | some v => (val, v) :: history v ops
    | none => history val ops

/-- The value after a list of calls. -/
def finalValue (val : T) : List (Op T W) → T
  | [] => val
  | op :: ops => finalValue ((effect fromStr val op).getD val) ops

end Run

/-- The notifications of one listener. -/
def received (id : Nat) (events : List (Event T)) : List (T × T) :=
  events.filterMap fun
    | .notified other old new => if other = id then some (old, new) else none
    | .stored _ => none

/-- The calls that take a listener out, the reuse of its id included. -/
def Removes (id : Nat) (s : Session T W) : Op T W → Prop
  | .delListener other => other = id
  | .clearListener => True
  | .addListener _ => (s.funId + 1) % 2 ^ 64 = id
  | _ => False

@[simp] theorem received_nil (id : Nat) : received id ([] : List (Event T)) = [] := rfl

@[simp] theorem received_append (id : Nat) (front back : List (Event T)) :
    received id (front ++ back) = received id front ++ received id back :=
  List.filterMap_append

/-- A listener among distinct ids is called exactly once in a loop over them. -/
theorem received_notices (id : Nat) (ids : List Nat) (distinct : ids.Nodup) (member : id ∈ ids)
    (old new : T) :
    received id (ids.map fun other => .notified other old new) = [(old, new)] := by
  induction ids with
  | nil => cases member
  | cons other ids ih =>
    obtain ⟨fresh, distinct⟩ := List.nodup_cons.mp distinct
    have none (absent : id ∉ ids) : received id (ids.map fun i => .notified i old new) = [] := by
      rw [received, List.filterMap_map]
      apply List.filterMap_eq_nil_iff.mpr
      intro i inside
      simpa using fun same : i = id => absent (same ▸ inside)
    rcases List.mem_cons.mp member with rfl | member
    · have rest := none fresh
      simp only [received, List.map_cons, List.filterMap_cons, if_true] at rest ⊢
      rw [rest]
    · have different : other ≠ id := fun same => fresh (same ▸ member)
      have rest := ih distinct member
      simp only [received, List.map_cons, List.filterMap_cons, if_neg different] at rest ⊢
      exact rest

/-- A complete notification delivers one pair to a registered listener. -/
theorem received_notified {var : ConfigVar T W} {id : Nat} (member : id ∈ var.ids) (v : T) :
    received id (var.notices v) = [(var.val, v)] :=
  received_notices id var.ids (var.ids_increasing.imp ne_of_lt) member var.val v

section Steps

variable {T : Type u} {W : Type v} [BEq T] {fromStr : Text → Except Exn T}

/-- All that a call can do: notify and replace, or leave the value alone in silence. -/
theorem step_cases {s next : Session T W} {op : Op T W} {events : List (Event T)}
    (quiet : s.var.AllQuiet) (taken : s.step fromStr op = some (events, next)) :
    next.var.cbs = s.listeners op ∧
    ((∃ v, effect fromStr s.var.val op = some v ∧ (v == s.var.val) = false ∧
      events = s.var.notices v ++ [.stored v] ∧ next.var.val = v ∧
      Called s.var.val v s.var.cbs.entries s.world next.world) ∨
    (effect fromStr s.var.val op = none ∧ events = [] ∧ next.var.val = s.var.val ∧
      next.world = s.world)) := by
  cases op with
  | setValue v =>
    obtain ⟨events', after, world, set⟩ := s.var.setValue_quiet v s.world quiet
    simp only [Session.step, set, Outcome.world?] at taken
    cases taken
    rcases ConfigVar.setValue_cases set with ⟨same, rfl, rfl, rfl⟩ | ⟨different, rfl, rfl, called⟩
    · exact ⟨rfl, .inr ⟨by simp [effect, same], rfl, rfl, rfl⟩⟩
    · exact ⟨rfl, .inl ⟨v, by simp [effect, different], different, rfl, rfl, called⟩⟩
  | fromString text =>
    obtain ⟨world, ended⟩ := s.var.fromString_quiet fromStr text s.world quiet
    simp only [Session.step, ended] at taken
    cases taken
    rcases ConfigVar.fromString_cases quiet rfl ended with ⟨_, failed, silent, kept, rfl⟩ | ⟨v, ok, set⟩
    · exact ⟨congrArg _ kept, .inr ⟨by simp [effect, failed], silent, congrArg _ kept, rfl⟩⟩
    · rcases ConfigVar.setValue_cases set with ⟨same, silent, kept, rfl⟩ | ⟨different, told, stored, called⟩
      · exact ⟨congrArg _ kept, .inr ⟨by simp [effect, ok, same], silent, congrArg _ kept, rfl⟩⟩
      · have cbs := congrArg ConfigVar.cbs stored
        exact ⟨cbs, .inl ⟨v, by simp [effect, ok, different], different, told,
          congrArg ConfigVar.val stored, called⟩⟩
  | addListener cb | delListener id | clearListener =>
    cases taken
    exact ⟨rfl, .inr ⟨rfl, rfl, rfl, rfl⟩⟩

/-- With quiet listeners no call crashes. -/
theorem step_some (fromStr : Text → Except Exn T) (s : Session T W) (op : Op T W) (quiet : s.var.AllQuiet) :
    ∃ events next, s.step fromStr op = some (events, next) := by
  cases op with
  | setValue v =>
    obtain ⟨events, after, world, set⟩ := s.var.setValue_quiet v s.world quiet
    simp [Session.step, set, Outcome.world?]
  | fromString text =>
    obtain ⟨world, ended⟩ := s.var.fromString_quiet fromStr text s.world quiet
    simp [Session.step, ended]
  | addListener cb | delListener id | clearListener => exact ⟨_, _, rfl⟩

theorem step_quiet {s next : Session T W} {op : Op T W} {events : List (Event T)}
    (quiet : s.var.AllQuiet) (quietOp : op.Quiet) (taken : s.step fromStr op = some (events, next)) :
    next.var.AllQuiet := by
  have cbs := (step_cases quiet taken).1
  intro entry member
  rw [cbs] at member
  cases op with
  | setValue v | fromString text => exact quiet entry member
  | addListener cb =>
    rcases (Table.mem_put _ _ _).mp member with rfl | ⟨member, _⟩
    · exact quietOp
    · exact quiet entry member
  | delListener id => exact quiet entry ((Table.mem_erase _ _ _).mp member).1
  | clearListener => cases member

/-- A listener stays registered under a call that does not remove it. -/
theorem step_kept {s next : Session T W} {op : Op T W} {events : List (Event T)}
    {entry : Nat × OnChange T W} (quiet : s.var.AllQuiet)
    (taken : s.step fromStr op = some (events, next)) (kept : ¬ Removes entry.1 s op)
    (member : entry ∈ s.var.cbs.entries) : entry ∈ next.var.cbs.entries := by
  rw [(step_cases quiet taken).1]
  cases op with
  | setValue v | fromString text => exact member
  | addListener cb =>
    apply (Table.mem_put _ _ _).mpr
    exact .inr ⟨member, fun same => kept same.symm⟩
  | delListener other =>
    apply (Table.mem_erase _ _ _).mpr
    exact ⟨member, fun same => kept same.symm⟩
  | clearListener => exact absurd trivial kept

/-- What one call delivers to a registered listener is its effective change. -/
theorem received_step {s next : Session T W} {op : Op T W} {events : List (Event T)} {id : Nat}
    (quiet : s.var.AllQuiet) (taken : s.step fromStr op = some (events, next))
    (member : id ∈ s.var.ids) :
    received id events = history fromStr s.var.val [op] ∧
      next.var.val = finalValue fromStr s.var.val [op] := by
  rcases (step_cases quiet taken).2 with ⟨v, changes, _, rfl, stored, _⟩ | ⟨silent, rfl, unchanged, _⟩
  · rw [received_append, received_notified member]
    simp [received, history, finalValue, changes, stored]
  · simp [history, finalValue, silent, unchanged]

theorem history_cons (val : T) (op : Op T W) (ops : List (Op T W)) :
    history fromStr val (op :: ops) =
      history fromStr val [op] ++ history fromStr (finalValue fromStr val [op]) ops := by
  cases changes : effect fromStr val op <;> simp [history, finalValue, changes]

/-- A run delivers to a listener that stays registered exactly the history. -/
theorem received_run {s final : Session T W} {ops : List (Op T W)} {events : List (Event T)}
    {entry : Nat × OnChange T W} (quiet : s.var.AllQuiet) (quietOps : ∀ op ∈ ops, op.Quiet)
    (ran : run (Session.step fromStr) ops s = some (events, final))
    (kept : Throughout (Session.step fromStr) (fun s op => ¬ Removes entry.1 s op) ops s)
    (member : entry ∈ s.var.cbs.entries) :
    received entry.1 events = history fromStr s.var.val ops ∧
      final.var.val = finalValue fromStr s.var.val ops ∧ entry ∈ final.var.cbs.entries := by
  induction ops generalizing s events with
  | nil =>
    cases ran
    exact ⟨rfl, rfl, member⟩
  | cons op ops ih =>
    obtain ⟨first, next, later, taken, rest, rfl⟩ := run_cons_eq_some.mp ran
    obtain ⟨now, value⟩ := received_step quiet taken (List.mem_map_of_mem member)
    have quietNext : next.var.AllQuiet := step_quiet quiet (quietOps op List.mem_cons_self) taken
    have stays : entry ∈ next.var.cbs.entries := step_kept quiet taken kept.1 member
    obtain ⟨after, last, stayed⟩ := ih quietNext
      (fun op' inside => quietOps op' (List.mem_cons_of_mem op inside)) rest (kept.2 first next taken) stays
    rw [value] at after last
    refine ⟨?_, last, stayed⟩
    rw [received_append, now, after, ← history_cons]

/-- Calls with quiet listeners always reach the end of the run. -/
theorem run_quiet (fromStr : Text → Except Exn T) (ops : List (Op T W)) (s : Session T W)
    (quiet : s.var.AllQuiet) (quietOps : ∀ op ∈ ops, op.Quiet) :
    ∃ events final, run (Session.step fromStr) ops s = some (events, final) ∧ final.var.AllQuiet := by
  induction ops generalizing s with
  | nil => exact ⟨[], s, rfl, quiet⟩
  | cons op ops ih =>
    obtain ⟨first, next, taken⟩ := step_some fromStr s op quiet
    have quietNext : next.var.AllQuiet := step_quiet quiet (quietOps op List.mem_cons_self) taken
    obtain ⟨later, final, rest, quietFinal⟩ :=
      ih next quietNext fun op' inside => quietOps op' (List.mem_cons_of_mem op inside)
    exact ⟨first ++ later, final, run_cons_eq_some.mpr ⟨first, next, later, taken, rest, rfl⟩, quietFinal⟩

/-- The history of a value leads from it to the value after the calls. -/
theorem history_linked (val : T) (ops : List (Op T W)) :
    Linked val (history fromStr val ops) (finalValue fromStr val ops) := by
  induction ops generalizing val with
  | nil => rfl
  | cons op ops ih =>
    cases changes : effect fromStr val op with
    | none => simpa [history, finalValue, changes] using ih val
    | some v =>
      simp only [history, finalValue, changes, Option.getD_some]
      exact ⟨rfl, ih v⟩

theorem effect_differs {val v : T} {op : Op T W} (changes : effect fromStr val op = some v) :
    (v == val) = false := by
  cases op with
  | setValue w =>
    rw [effect] at changes
    split at changes
    · cases changes
    · cases changes
      rename_i different
      simpa using different
  | fromString text =>
    rw [effect] at changes
    split at changes
    · split at changes
      · cases changes
      · cases changes
        rename_i different
        simpa using different
    · cases changes
  | addListener cb | delListener id | clearListener => cases changes

theorem history_differs (val : T) (ops : List (Op T W)) :
    ∀ pair ∈ history fromStr val ops, (pair.2 == pair.1) = false := by
  induction ops generalizing val with
  | nil =>
    intro pair member
    cases member
  | cons op ops ih =>
    intro pair member
    cases changes : effect fromStr val op with
    | none =>
      simp only [history, changes] at member
      exact ih val pair member
    | some v =>
      simp only [history, changes] at member
      rcases List.mem_cons.mp member with rfl | member
      · exact effect_differs changes
      · exact ih v pair member

/-- The events of a call: its change told to all listeners in order and then
stored, or nothing. -/
def deliveries (fromStr : Text → Except Exn T) (s : Session T W) (op : Op T W) : List (Event T) :=
  match effect fromStr s.var.val op with
  | some v => (s.var.ids.map fun id => .notified id s.var.val v) ++ [.stored v]
  | none => []

/-- The world after a call: what the listeners, called in order with its change, leave. -/
def Session.Tells (fromStr : Text → Except Exn T) (s : Session T W) (op : Op T W) (next : Session T W) : Prop :=
  match effect fromStr s.var.val op with
  | some v => Called s.var.val v s.var.cbs.entries s.world next.world
  | none => next.world = s.world

/-- From its registration on and until its removal a listener receives the exact
history of the variable, whatever the calls; all of them end. -/
theorem listener_history (fromStr : Text → Except Exn T) (s : Session T W) (cb : OnChange T W)
    (ops : List (Op T W)) {id : Nat} {var : ConfigVar T W} (registered : s.var.addListener cb s.funId = (id, var))
    (quiet : s.var.AllQuiet) (quietCb : Quiet cb) (quietOps : ∀ op ∈ ops, op.Quiet)
    (kept : Throughout (Session.step fromStr) (fun s op => ¬ Removes id s op) ops
      { s with var := var, funId := id }) :
    ∃ events final,
      run (Session.step fromStr) ops { s with var := var, funId := id } = some (events, final) ∧
      final.var.getListener id = some cb ∧
      received id events = history fromStr s.var.val ops ∧
      Linked s.var.val (received id events) final.var.val ∧
      (∀ pair ∈ received id events, (pair.2 == pair.1) = false) ∧
      ∀ front op back, ops = front ++ op :: back →
        ∃ past middle next,
          run (Session.step fromStr) front { s with var := var, funId := id } = some (past, middle) ∧
          middle.step fromStr op = some (deliveries fromStr middle op, next) ∧
          middle.Tells fromStr op next ∧
          middle.var.ids.Pairwise (· < ·) ∧ next.var.cbs = middle.listeners op ∧
          next.var.val = (effect fromStr middle.var.val op).getD middle.var.val := by
  have taken : s.step fromStr (.addListener cb) = some ([], { s with var := var, funId := id }) := by
    simp only [Session.step, registered]
  cases registered
  set start := ({ s with var := _, funId := _ } : Session T W)
  have quietOp : (Op.addListener cb).Quiet := quietCb
  have quietStart : start.var.AllQuiet := step_quiet quiet quietOp taken
  have member : ((s.funId + 1) % 2 ^ 64, cb) ∈ start.var.cbs.entries :=
    (Table.mem_put _ _ _).mpr (.inl rfl)
  obtain ⟨events, final, ran, _⟩ := run_quiet fromStr ops start quietStart quietOps
  obtain ⟨log, last, stayed⟩ := received_run quietStart quietOps ran kept member
  refine ⟨events, final, ran, ?_, log, ?_, ?_, ?_⟩
  · have found := (Table.find?_eq_some_iff _ _ _).mpr ⟨stayed, rfl⟩
    exact congrArg (Option.map Prod.snd) found
  · rw [log, last]
    exact history_linked s.var.val ops
  · rw [log]
    exact history_differs s.var.val ops
  · intro front op back split
    subst split
    obtain ⟨past, middle, ranFront, quietMiddle⟩ := run_quiet fromStr front start
      quietStart fun op' inside => quietOps op' (List.mem_append_left _ inside)
    obtain ⟨now, next, taken⟩ := step_some fromStr middle op quietMiddle
    obtain ⟨cbs, ways⟩ := step_cases quietMiddle taken
    refine ⟨past, middle, next, ranFront, ?_, ?_, middle.var.ids_increasing, cbs, ?_⟩
    · rcases ways with ⟨v, changes, _, rfl, _⟩ | ⟨silent, rfl, _⟩
      · rw [taken, deliveries, changes]
        rfl
      · rw [taken, deliveries, silent]
    · rcases ways with ⟨v, changes, _, _, _, called⟩ | ⟨silent, _, _, still⟩
      · rwa [Session.Tells, changes]
      · rwa [Session.Tells, silent]
    · rcases ways with ⟨v, changes, _, _, stored, _⟩ | ⟨silent, _, unchanged, _⟩
      · rw [changes, stored]
        rfl
      · rw [silent, unchanged]
        rfl

/-- A listener that counts its calls, on the variable of value 0, over a change, a
repetition, a failed conversion and a second change. -/
theorem listener_history_counter :
    ∃ events final, run (Session.step fun _ => .error .standard)
        [.setValue 1, .setValue 1, .fromString [], .setValue 2]
        (⟨⟨['n'], 0, Table.empty.put (1, fun _ _ n => .returns () (n + 1))⟩, 1, 0⟩ : Session Nat Nat)
        = some (events, final) ∧
      received 1 events = [(0, 1), (1, 2)] ∧ final.world = 2 := by
  have tells : Quiet fun (_ _ n : Nat) => Outcome.returns () (n + 1) := fun _ _ n => ⟨n + 1, rfl⟩
  obtain ⟨events, final, ran, _, log, _⟩ :=
    listener_history (fun _ => .error .standard)
      (⟨⟨['n'], 0, .empty⟩, 0, 0⟩ : Session Nat Nat) (fun _ _ n => .returns () (n + 1))
      [.setValue 1, .setValue 1, .fromString [], .setValue 2] rfl
      (by intro entry member; cases member) tells (by simp [Op.Quiet])
      (by simp [Throughout, Removes])
  have counted : some 2 = some final.world :=
    congrArg (Option.map fun (result : List (Event Nat) × Session Nat Nat) => result.2.world) ran
  exact ⟨events, final, ran, log, (Option.some.inj counted).symm⟩

end Steps

end Sylar
