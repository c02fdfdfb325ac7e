import Mathlib.Algebra.Group.Nat.Defs
import Sylar.Library.Table
import Sylar.Library.Text
import Sylar.Outcome

/-! `ConfigVar<T>`: a value and its listeners. Listeners act on the rest of the
program, a state of any type `W`, and may throw. `setValue` is its two critical
sections one after the other; each is a definition of its own. -/
namespace Sylar

open Library

/-- `on_change_cb`: a listener gets the old and the new value. -/
abbrev OnChange (T : Type u) (W : Type v) := T → T → W → Outcome Unit W

/-- What a listener can observe, in order: calls, and the replacement of the value. -/
inductive Event (T : Type u) where
  | notified (id : Nat) (old new : T)
  | stored (value : T)
  deriving DecidableEq, Repr

structure ConfigVar (T : Type u) (W : Type v) where
  name : Text
  val : T
  cbs : Table (fun entry : Nat × OnChange T W => entry.1)

/-- The loop over `m_cbs` in the order of the ids. An exception leaves the loop. -/
def notify (old new : T) : List (Nat × OnChange T W) → W → List (Event T) × Outcome Unit W
  | [], world => ([], .returns () world)
  | (id, cb) :: rest, world =>
    match cb old new world with
    | .returns () next =>
      let (events, outcome) := notify old new rest next
      (.notified id old new :: events, outcome)
    | outcome => ([.notified id old new], outcome)

/-- `next` is the world that the listeners leave, each called once, in order, and all returning. -/
def Called (old new : T) : List (Nat × OnChange T W) → W → W → Prop
  | [], world, next => next = world
  | (_, cb) :: rest, world, next => ∃ after, cb old new world = .returns () after ∧ Called old new rest after next

namespace ConfigVar

variable {T : Type u} {W : Type v}

def getValue (var : ConfigVar T W) : T := var.val

/-- The read-locked section of `setValue`; it returns whether the value differs. -/
def compareAndNotify [BEq T] (v : T) (var : ConfigVar T W) (world : W) :
    List (Event T) × Outcome Bool W :=
  if v == var.val then ([], .returns false world)
  else
    match notify var.val v var.cbs.entries world with
    | (events, .returns () next) => (events, .returns true next)
    | (events, .throws exn next) => (events, .throws exn next)
    | (events, .crashes) => (events, .crashes)

/-- The write-locked section of `setValue`. -/
def store (v : T) (var : ConfigVar T W) : ConfigVar T W := { var with val := v }

def setValue [BEq T] (v : T) (var : ConfigVar T W) (world : W) :
    List (Event T) × ConfigVar T W × Outcome Unit W :=
  match var.compareAndNotify v world with
  | (events, .returns false next) => (events, var, .returns () next)
  | (events, .returns true next) => (events ++ [.stored v], var.store v, .returns () next)
  | (events, .throws exn next) => (events, var, .throws exn next)
  | (events, .crashes) => (events, var, .crashes)

/-- `fromString` with the conversion `FromStr`. It returns `false` on every path
and swallows standard exceptions of the conversion and of the listeners. -/
def fromString [BEq T] (fromStr : Text → Except Exn T) (text : Text) (var : ConfigVar T W)
    (world : W) : List (Event T) × ConfigVar T W × Outcome Bool W :=
  match fromStr text with
  | .error .standard => ([], var, .returns false world)
  | .error .other => ([], var, .throws .other world)
  | .ok v =>
    match var.setValue v world with
    | (events, next, .returns () after) => (events, next, .returns false after)
    | (events, next, .throws .standard after) => (events, next, .returns false after)
    | (events, next, .throws .other after) => (events, next, .throws .other after)
    | (events, next, .crashes) => (events, next, .crashes)

/-- `addListener`; `funId` is the static counter of the template instance, a 64-bit
number, and its new value is the id that the call returns. -/
def addListener (cb : OnChange T W) (funId : Nat) (var : ConfigVar T W) : Nat × ConfigVar T W :=
  let id := (funId + 1) % 2 ^ 64
  (id, { var with cbs := var.cbs.put (id, cb) })

def delListener (id : Nat) (var : ConfigVar T W) : ConfigVar T W :=
  { var with cbs := var.cbs.erase id }

def getListener (id : Nat) (var : ConfigVar T W) : Option (OnChange T W) :=
  (var.cbs.find? id).map Prod.snd

def clearListener (var : ConfigVar T W) : ConfigVar T W := { var with cbs := .empty }

/-- The ids that `notify` goes through, in its order. -/
def ids (var : ConfigVar T W) : List Nat := var.cbs.entries.map Prod.fst

theorem ids_increasing (var : ConfigVar T W) : var.ids.Pairwise (· < ·) := by
  unfold ids
  rw [List.pairwise_map]
  exact var.cbs.sorted

end ConfigVar

/-- The notification of a listener. -/
def notice (old new : T) (entry : Nat × OnChange T W) : Event T := .notified entry.1 old new

/-- A loop that returns has called every listener once, in order. -/
theorem notify_returns {old new : T} {entries : List (Nat × OnChange T W)} {world next : W}
    {events : List (Event T)}
    (returned : notify old new entries world = (events, .returns () next)) :
    events = entries.map (notice old new) ∧ Called old new entries world next := by
  induction entries generalizing world events with
  | nil =>
    cases returned
    exact ⟨rfl, rfl⟩
  | cons entry rest ih =>
    obtain ⟨id, cb⟩ := entry
    cases called : cb old new world with
    | returns value after =>
      simp only [notify, called, Prod.mk.injEq] at returned
      obtain ⟨rfl, outcome⟩ := returned
      obtain ⟨told, all⟩ := ih (Prod.ext rfl outcome)
      exact ⟨congrArg (_ :: ·) told, after, called, all⟩
    | throws | crashes =>
      simp only [notify, called] at returned
      cases returned

/-- A loop that throws has called the listeners up to the one that threw. -/
theorem notify_throws {old new : T} {entries : List (Nat × OnChange T W)} {world next : W}
    {events : List (Event T)} {exn : Exn}
    (threw : notify old new entries world = (events, .throws exn next)) :
    ∃ front thrower back middle, entries = front ++ thrower :: back ∧
      notify old new front world = (front.map (notice old new), .returns () middle) ∧
      thrower.2 old new middle = .throws exn next ∧
      events = (front ++ [thrower]).map (notice old new) := by
  induction entries generalizing world events with
  | nil => cases threw
  | cons entry rest ih =>
    obtain ⟨id, cb⟩ := entry
    cases called : cb old new world with
    | returns value after =>
      simp only [notify, called, Prod.mk.injEq] at threw
      obtain ⟨rfl, outcome⟩ := threw
      obtain ⟨front, thrower, back, middle, rfl, before, throws, later⟩ := ih (Prod.ext rfl outcome)
      refine ⟨(id, cb) :: front, thrower, back, middle, rfl, ?_, throws, ?_⟩
      · simp only [notify, called, before]
        rfl
      · exact congrArg (_ :: ·) later
    | throws exn' after =>
      simp only [notify, called, Prod.mk.injEq] at threw
      obtain ⟨rfl, outcome⟩ := threw
      cases outcome
      exact ⟨[], (id, cb), rest, world, rfl, rfl, called, rfl⟩
    | crashes =>
      simp only [notify, called] at threw
      cases threw

/-- A loop crashes only if a listener does. -/
theorem notify_crashes {old new : T} {entries : List (Nat × OnChange T W)} {world : W}
    {events : List (Event T)} (crashed : notify old new entries world = (events, .crashes)) :
    ∃ entry ∈ entries, ∃ world, entry.2 old new world = .crashes := by
  induction entries generalizing world events with
  | nil => cases crashed
  | cons entry rest ih =>
    obtain ⟨id, cb⟩ := entry
    cases called : cb old new world with
    | returns value after =>
      simp only [notify, called, Prod.mk.injEq] at crashed
      obtain ⟨other, member, at_, crashes⟩ := ih (Prod.ext rfl crashed.2)
      exact ⟨other, List.mem_cons_of_mem _ member, at_, crashes⟩
    | throws exn after =>
      simp only [notify, called] at crashed
      cases crashed
    | crashes => exact ⟨(id, cb), List.mem_cons_self, world, called⟩

/-- A listener that does not throw. -/
def Quiet (cb : OnChange T W) : Prop := ∀ old new world, ∃ next, cb old new world = .returns () next

theorem notify_quiet (old new : T) (entries : List (Nat × OnChange T W)) (world : W)
    (quiet : ∀ entry ∈ entries, Quiet entry.2) :
    ∃ events next, notify old new entries world = (events, .returns () next) := by
  induction entries generalizing world with
  | nil => exact ⟨[], world, rfl⟩
  | cons entry rest ih =>
    obtain ⟨id, cb⟩ := entry
    obtain ⟨after, called⟩ : ∃ after, cb old new world = .returns () after :=
      quiet (id, cb) List.mem_cons_self old new world
    obtain ⟨events, next, returned⟩ := ih after fun entry member => quiet entry (by simp [member])
    exact ⟨.notified id old new :: events, next, by simp [notify, called, returned]⟩

namespace ConfigVar

variable {T : Type u} {W : Type v} [BEq T]

/-- None of the registered listeners throws. -/
def AllQuiet (var : ConfigVar T W) : Prop := ∀ entry ∈ var.cbs.entries, Quiet entry.2

/-- The events of a complete notification of the registered listeners. -/
def notices (var : ConfigVar T W) (v : T) : List (Event T) :=
  var.ids.map fun id => .notified id var.val v

omit [BEq T] in
theorem notices_entries (var : ConfigVar T W) (v : T) :
    var.cbs.entries.map (notice var.val v) = var.notices v := by
  rw [notices, ids, List.map_map]
  rfl

/-- All that the read-locked section can do when it returns. -/
theorem compareAndNotify_cases {v : T} {var : ConfigVar T W} {world next : W}
    {events : List (Event T)} {differs : Bool}
    (returned : var.compareAndNotify v world = (events, .returns differs next)) :
    (differs = false ∧ (v == var.val) = true ∧ events = [] ∧ next = world) ∨
    (differs = true ∧ (v == var.val) = false ∧ events = var.notices v ∧
      Called var.val v var.cbs.entries world next) := by
  unfold compareAndNotify at returned
  split at returned
  · rename_i same
    cases returned
    exact .inl ⟨rfl, same, rfl, rfl⟩
  · rename_i different
    split at returned
    · rename_i called
      cases returned
      obtain ⟨told, all⟩ := notify_returns called
      exact .inr ⟨rfl, by simpa using different, told.trans (var.notices_entries v), all⟩
    · cases returned
    · cases returned

theorem setValue_name (v : T) (var : ConfigVar T W) (world : W) :
    (var.setValue v world).2.1.name = var.name := by
  unfold setValue
  split <;> rfl

theorem fromString_name (fromStr : Text → Except Exn T) (text : Text) (var : ConfigVar T W) (world : W) :
    (var.fromString fromStr text world).2.1.name = var.name := by
  cases converted : fromStr text with
  | error exn => cases exn <;> simp [fromString, converted]
  | ok v =>
    have kept := setValue_name v var world
    simp only [fromString, converted]
    split <;> simp_all

/-- All that `setValue` can do when it returns. -/
theorem setValue_cases {v : T} {var after : ConfigVar T W} {world next : W}
    {events : List (Event T)} (returned : var.setValue v world = (events, after, .returns () next)) :
    ((v == var.val) = true ∧ events = [] ∧ after = var ∧ next = world) ∨
    ((v == var.val) = false ∧ events = var.notices v ++ [.stored v] ∧ after = var.store v ∧
      Called var.val v var.cbs.entries world next) := by
  unfold setValue at returned
  split at returned
  · rename_i compared
    cases returned
    rcases compareAndNotify_cases compared with ⟨_, same, events, next⟩ | ⟨differs, _⟩
    · exact .inl ⟨same, events, rfl, next⟩
    · cases differs
  · rename_i compared
    cases returned
    rcases compareAndNotify_cases compared with ⟨differs, _⟩ | ⟨_, different, rfl, all⟩
    · cases differs
    · exact .inr ⟨different, rfl, rfl, all⟩
  · cases returned
  · cases returned

/-- A value that differs is stored after every listener was called, or it is not stored
and the listeners up to the first that throws were called. The world is what they leave. -/
theorem setValue_stores_or_throws (v : T) (var : ConfigVar T W) (world : W)
    (differs : (v == var.val) = false)
    (sound : ∀ entry ∈ var.cbs.entries, ∀ old new world, entry.2 old new world ≠ .crashes) :
    (∃ next, Called var.val v var.cbs.entries world next ∧
      var.setValue v world = (var.notices v ++ [.stored v], var.store v, .returns () next)) ∨
    ∃ front thrower back middle exn next, var.cbs.entries = front ++ thrower :: back ∧
      Called var.val v front world middle ∧
      notify var.val v front world = (front.map (notice var.val v), .returns () middle) ∧
      thrower.2 var.val v middle = .throws exn next ∧
      var.setValue v world = ((front ++ [thrower]).map (notice var.val v), var, .throws exn next) := by
  cases called : notify var.val v var.cbs.entries world with
  | mk events outcome =>
    cases outcome with
    | returns value next =>
      obtain ⟨told, all⟩ := notify_returns called
      refine .inl ⟨next, all, ?_⟩
      have notified : events = var.notices v := told.trans (var.notices_entries v)
      simp [setValue, compareAndNotify, differs, called, notified]
    | throws exn next =>
      obtain ⟨front, thrower, back, middle, split, before, throws, rfl⟩ := notify_throws called
      refine .inr ⟨front, thrower, back, middle, exn, next, split, (notify_returns before).2, before, throws, ?_⟩
      simp [setValue, compareAndNotify, differs, called]
    | crashes =>
      obtain ⟨entry, member, at_, crashes⟩ := notify_crashes called
      exact absurd crashes (sound entry member _ _ _)

/-- A variable with two listeners: the first counts its calls and the second throws. -/
def failing : ConfigVar Nat Nat :=
  ⟨['a'], 0, (Table.empty.put (1, fun _ _ n => .returns () (n + 1))).put
    (2, fun _ _ n => .throws .standard n)⟩

theorem failing_cases {entry : Nat × OnChange Nat Nat} (member : entry ∈ failing.cbs.entries) :
    entry = (1, fun _ _ n => .returns () (n + 1)) ∨ entry = (2, fun _ _ n => .throws .standard n) := by
  rcases List.mem_cons.mp member with first | member
  · exact .inl first
  · exact .inr (List.mem_singleton.mp member)

theorem setValue_stores_or_throws_failing :
    (1 == failing.val) = false ∧
    ((∃ next, Called failing.val 1 failing.cbs.entries 0 next ∧
      failing.setValue 1 0 = (failing.notices 1 ++ [.stored 1], failing.store 1, .returns () next)) ∨
    ∃ front thrower back middle exn next, failing.cbs.entries = front ++ thrower :: back ∧
      Called failing.val 1 front 0 middle ∧
      notify failing.val 1 front 0 = (front.map (notice failing.val 1), .returns () middle) ∧
      thrower.2 failing.val 1 middle = .throws exn next ∧
      failing.setValue 1 0 = ((front ++ [thrower]).map (notice failing.val 1), failing, .throws exn next)) := by
  refine ⟨rfl, setValue_stores_or_throws 1 failing 0 rfl ?_⟩
  intro entry member old new world
  rcases failing_cases member with rfl | rfl
  · simp
  · simp

/-- The call throws and keeps the value, and yet a listener that returned was told. -/
theorem setValue_throws_after_notice :
    failing.setValue 1 0 = ([.notified 1 0 1, .notified 2 0 1], failing, .throws .standard 1) ∧
    ¬ ((∃ next, failing.setValue 1 0 =
        (failing.notices 1 ++ [.stored 1], failing.store 1, .returns () next)) ∨
      ∃ exn next, failing.setValue 1 0 = ([], failing, .throws exn next)) := by
  refine ⟨rfl, ?_⟩
  rintro (⟨next, returned⟩ | ⟨exn, next, threw⟩)
  · cases congrArg (fun result => result.2.2) returned
  · cases congrArg (fun result => result.1) threw

/-- With quiet listeners `setValue` returns. -/
theorem setValue_quiet (v : T) (var : ConfigVar T W) (world : W) (quiet : var.AllQuiet) :
    ∃ events after next, var.setValue v world = (events, after, .returns () next) := by
  obtain ⟨events, next, called⟩ := notify_quiet var.val v var.cbs.entries world quiet
  by_cases same : (v == var.val) = true
  · exact ⟨[], var, world, by simp [setValue, compareAndNotify, same]⟩
  · exact ⟨events ++ [.stored v], var.store v, next, by simp [setValue, compareAndNotify, same, called]⟩

/-- With quiet listeners `fromString` is `setValue` of the converted text, or nothing. -/
theorem fromString_cases {fromStr : Text → Except Exn T} {text : Text} {var after : ConfigVar T W}
    {world next : W} {events : List (Event T)} {outcome : Outcome Bool W} (quiet : var.AllQuiet)
    (called : var.fromString fromStr text world = (events, after, outcome))
    (ended : outcome.world? = some next) :
    (∃ exn, fromStr text = .error exn ∧ events = [] ∧ after = var ∧ next = world) ∨
    (∃ v, fromStr text = .ok v ∧ var.setValue v world = (events, after, .returns () next)) := by
  cases converted : fromStr text with
  | error exn =>
    refine .inl ⟨exn, rfl, ?_⟩
    cases exn with
    | standard | other =>
      simp only [fromString, converted] at called
      cases called
      cases ended
      exact ⟨rfl, rfl, rfl⟩
  | ok v =>
    obtain ⟨events', after', next', set⟩ := setValue_quiet v var world quiet
    simp only [fromString, converted, set] at called
    cases called
    cases ended
    exact .inr ⟨v, rfl, set⟩

/-- With quiet listeners `fromString` returns or throws. -/
theorem fromString_quiet (fromStr : Text → Except Exn T) (text : Text) (var : ConfigVar T W)
    (world : W) (quiet : var.AllQuiet) :
    ∃ next, (var.fromString fromStr text world).2.2.world? = some next := by
  cases converted : fromStr text with
  | error exn => cases exn <;> exact ⟨world, by simp [fromString, converted, Outcome.world?]⟩
  | ok v =>
    obtain ⟨events, after, next, set⟩ := setValue_quiet v var world quiet
    exact ⟨next, by simp [fromString, converted, set, Outcome.world?]⟩

end ConfigVar

end Sylar
