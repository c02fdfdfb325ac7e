import Sylar.Config.Var

/-! What the result of `fromString` tells its caller: the four ways through the call,
and when the result is the one a caller could rely on. -/
namespace Sylar

open Library

/-- A listener of the loop throws, the ones before it having returned. -/
def SomeThrows (old new : T) : List (Nat × OnChange T W) → W → Prop
  | [], _ => False
  | (_, cb) :: rest, world =>
    match cb old new world with
    | .returns () next => SomeThrows old new rest next
    | .throws _ _ => True
    | .crashes => False

/-- The conversion throws, or it gives a value that differs and a listener throws. -/
def Refused [BEq T] (fromStr : Text → Except Exn T) (text : Text) (var : ConfigVar T W)
    (world : W) : Prop :=
  (∃ exn, fromStr text = .error exn) ∨
  ∃ v, fromStr text = .ok v ∧ (v == var.val) = false ∧ SomeThrows var.val v var.cbs.entries world

/-- A listener that returns or throws a `std::exception`. -/
def Standard (cb : OnChange T W) : Prop :=
  ∀ old new world, ∃ next, cb old new world = .returns () next ∨ cb old new world = .throws .standard next

theorem notify_standard (old new : T) {entries : List (Nat × OnChange T W)} (world : W)
    (standard : ∀ entry ∈ entries, Standard entry.2) :
    (∃ events next, notify old new entries world = (events, .returns () next) ∧
      ¬ SomeThrows old new entries world) ∨
    ∃ events next, notify old new entries world = (events, .throws .standard next) ∧
      SomeThrows old new entries world := by
  induction entries generalizing world with
  | nil => exact .inl ⟨[], world, rfl, id⟩
  | cons entry rest ih =>
    obtain ⟨id, cb⟩ := entry
    have here : Standard cb := standard (id, cb) List.mem_cons_self
    obtain ⟨after, called | called⟩ := here old new world
    · have later := ih after fun entry member => standard entry (List.mem_cons_of_mem _ member)
      rcases later with ⟨events, next, returned, none⟩ | ⟨events, next, threw, some⟩
      · refine .inl ⟨.notified id old new :: events, next, ?_, ?_⟩
        · simp [notify, called, returned]
        · simpa [SomeThrows, called] using none
      · refine .inr ⟨.notified id old new :: events, next, ?_, ?_⟩
        · simp [notify, called, threw]
        · simpa [SomeThrows, called] using some
    · refine .inr ⟨[.notified id old new], after, ?_, ?_⟩
      · simp [notify, called]
      · simp [SomeThrows, called]

namespace ConfigVar

variable {T : Type u} {W : Type v} [BEq T]

/-- The ways through `fromString`: refused with the old value, equal to it, or stored. -/
theorem fromString_ways {fromStr : Text → Except Exn T} {text : Text} {var : ConfigVar T W}
    (world : W) (conversion : ∀ exn, fromStr text = .error exn → exn = .standard)
    (listeners : ∀ entry ∈ var.cbs.entries, Standard entry.2) :
    ∃ events after next, var.fromString fromStr text world = (events, after, .returns false next) ∧
      ((Refused fromStr text var world ∧ after = var) ∨
       (¬ Refused fromStr text var world ∧ ∃ v, fromStr text = .ok v ∧
          (((v == var.val) = true ∧ after = var) ∨ ((v == var.val) = false ∧ after = var.store v)))) := by
  cases converted : fromStr text with
  | error exn =>
    cases conversion exn converted
    refine ⟨[], var, world, ?_, .inl ⟨.inl ⟨_, converted⟩, rfl⟩⟩
    simp [fromString, converted]
  | ok v =>
    cases same : v == var.val with
    | true =>
      refine ⟨[], var, world, ?_, .inr ⟨?_, v, rfl, .inl ⟨same, rfl⟩⟩⟩
      · simp [fromString, converted, setValue, compareAndNotify, same]
      · rintro (⟨exn, failed⟩ | ⟨w, ok, differs, _⟩)
        · cases converted.symm.trans failed
        · cases converted.symm.trans ok
          cases same.symm.trans differs
    | false =>
      rcases notify_standard var.val v world listeners with
        ⟨events, next, returned, none⟩ | ⟨events, next, threw, some⟩
      · refine ⟨events ++ [.stored v], var.store v, next, ?_, .inr ⟨?_, v, rfl, .inr ⟨same, rfl⟩⟩⟩
        · simp [fromString, converted, setValue, compareAndNotify, same, returned]
        · rintro (⟨exn, failed⟩ | ⟨w, ok, _, throws⟩)
          · cases converted.symm.trans failed
          · cases converted.symm.trans ok
            exact none throws
      · refine ⟨events, var, next, ?_, .inl ⟨.inr ⟨v, converted, same, some⟩, rfl⟩⟩
        simp [fromString, converted, setValue, compareAndNotify, same, threw]

/-- The result says whether the setting was refused, and the value agrees with it. -/
structure Reports (fromStr : Text → Except Exn T) (text : Text) (var : ConfigVar T W) (world : W) :
    Prop where
  accepted : (∃ next, (var.fromString fromStr text world).2.2 = .returns true next) ↔
    ¬ Refused fromStr text var world
  refused : (∃ next, (var.fromString fromStr text world).2.2 = .returns false next) ↔
    Refused fromStr text var world
  stored : ¬ Refused fromStr text var world → ∃ v, fromStr text = .ok v ∧
    ((var.fromString fromStr text world).2.1.val == v) = true
  kept : Refused fromStr text var world → (var.fromString fromStr text world).2.1.val = var.val

/-- `fromString` never returns `true`, so it reports a refusal and nothing else. -/
theorem reports_iff_refused {fromStr : Text → Except Exn T} {text : Text} {var : ConfigVar T W}
    {world : W} (conversion : ∀ exn, fromStr text = .error exn → exn = .standard)
    (listeners : ∀ entry ∈ var.cbs.entries, Standard entry.2) :
    Reports fromStr text var world ↔ Refused fromStr text var world := by
  obtain ⟨events, after, next, called, ways⟩ := fromString_ways world conversion listeners
  constructor
  · intro reports
    by_contra accepted
    obtain ⟨next', claimed⟩ := reports.accepted.mpr accepted
    rw [called] at claimed
    cases claimed
  · intro refused
    constructor
    · rw [called]
      constructor
      · rintro ⟨next', claimed⟩
        cases claimed
      · intro accepted
        exact absurd refused accepted
    · rw [called]
      exact ⟨fun _ => refused, fun _ => ⟨next, rfl⟩⟩
    · intro accepted
      exact absurd refused accepted
    · intro _
      rcases ways with ⟨_, unchanged⟩ | ⟨accepted, _⟩
      · rw [called, unchanged]
      · exact absurd refused accepted

/-- One listener returns and one throws. -/
theorem reports_iff_refused_failing :
    Reports (fun _ => .ok 1) ['1'] failing 0 ↔ Refused (fun _ => .ok 1) ['1'] failing 0 := by
  apply reports_iff_refused
  · intro exn failed
    cases failed
  · intro entry member old new world
    rcases failing_cases member with rfl | rfl
    · exact ⟨world + 1, .inl rfl⟩
    · exact ⟨world, .inr rfl⟩

def plain : ConfigVar Nat Unit := ⟨['a'], 0, .empty⟩

/-- The text is converted and stored and there is no listener, and the call returns `false`. -/
theorem fromString_stored_false :
    plain.fromString (fun _ => .ok 1) ['1'] () = ([.stored 1], plain.store 1, .returns false ()) ∧
    ¬ Reports (fun _ => .ok 1) ['1'] plain () := by
  refine ⟨rfl, ?_⟩
  intro reports
  have accepted : ¬ Refused (fun _ => .ok 1) ['1'] plain () := by
    rintro (⟨exn, failed⟩ | ⟨v, _, _, throws⟩)
    · cases failed
    · exact throws
  obtain ⟨next, claimed⟩ := reports.accepted.mpr accepted
  cases claimed

end ConfigVar

end Sylar
