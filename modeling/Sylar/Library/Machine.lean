import Mathlib.Data.List.Basic

/-! Labelled deterministic machines: a step takes a label, emits events and may be
impossible. A run follows a list of labels and collects the events in order. -/
namespace Library

section Run

variable (step : S → L → Option (List E × S))

def run : List L → S → Option (List E × S)
  | [], s => some ([], s)
  | label :: labels, s =>
    match step s label with
    | none => none
    | some (events, next) =>
      match run labels next with
      | none => none
      | some (later, final) => some (events ++ later, final)

/-- Every step of the run meets a condition on its state and its label. -/
def Throughout (condition : S → L → Prop) : List L → S → Prop
  | [], _ => True
  | label :: labels, s =>
    condition s label ∧ ∀ events next, step s label = some (events, next) →
      Throughout condition labels next

/-- A property of the state and the events so far at every point of the run. -/
def Always (property : S → List E → Prop) (labels : List L) (s : S) : Prop :=
  ∀ front back, labels = front ++ back → ∀ events middle, run step front s = some (events, middle) →
    property middle events

end Run

variable {step : S → L → Option (List E × S)}

@[simp] theorem run_nil (s : S) : run step [] s = some ([], s) := rfl

theorem run_cons_eq_some {label : L} {labels : List L} {s final : S} {events : List E} :
    run step (label :: labels) s = some (events, final) ↔
      ∃ first next later, step s label = some (first, next) ∧
        run step labels next = some (later, final) ∧ events = first ++ later := by
  cases taken : step s label with
  | none => simp [run, taken]
  | some result =>
    obtain ⟨first, next⟩ := result
    cases rest : run step labels next with
    | none => simp [run, taken, rest]
    | some outcome =>
      obtain ⟨later, last⟩ := outcome
      simp only [run, taken, rest, Option.some.injEq, Prod.mk.injEq]
      constructor
      · rintro ⟨rfl, rfl⟩
        exact ⟨first, next, later, ⟨rfl, rfl⟩, rest, rfl⟩
      · rintro ⟨first', next', later', ⟨rfl, rfl⟩, same, rfl⟩
        cases rest.symm.trans same
        exact ⟨rfl, rfl⟩

/-- A run splits at every point of its label list. -/
theorem run_append_eq_some {front back : List L} {s final : S} {events : List E} :
    run step (front ++ back) s = some (events, final) ↔
      ∃ first middle later, run step front s = some (first, middle) ∧
        run step back middle = some (later, final) ∧ events = first ++ later := by
  induction front generalizing s events with
  | nil => simp
  | cons label front ih =>
    rw [List.cons_append, run_cons_eq_some]
    constructor
    · rintro ⟨e, next, later, taken, rest, rfl⟩
      obtain ⟨first, middle, last, ranFront, ranBack, rfl⟩ := ih.mp rest
      exact ⟨e ++ first, middle, last, run_cons_eq_some.mpr ⟨e, next, first, taken, ranFront, rfl⟩,
        ranBack, by rw [List.append_assoc]⟩
    · rintro ⟨_, middle, later, ranFront, ranBack, rfl⟩
      obtain ⟨e, next, first, taken, ranRest, rfl⟩ := run_cons_eq_some.mp ranFront
      exact ⟨e, next, first ++ later, taken, ih.mpr ⟨first, middle, later, ranRest, ranBack, rfl⟩,
        by rw [List.append_assoc]⟩

theorem throughout_cons {condition : S → L → Prop} {label : L} {labels : List L} {s next : S}
    {events : List E} (taken : step s label = some (events, next)) :
    Throughout step condition (label :: labels) s ↔
      condition s label ∧ Throughout step condition labels next := by
  constructor
  · rintro ⟨here, later⟩
    exact ⟨here, later events next taken⟩
  · rintro ⟨here, later⟩
    refine ⟨here, fun events' next' taken' => ?_⟩
    cases taken.symm.trans taken'
    exact later

theorem throughout_append_left {condition : S → L → Prop} {front back : List L} {s : S}
    (throughout : Throughout step condition (front ++ back) s) :
    Throughout step condition front s := by
  induction front generalizing s with
  | nil => trivial
  | cons label front ih =>
    refine ⟨throughout.1, ?_⟩
    intro events next taken
    exact ih (throughout.2 events next taken)

theorem throughout_of_forall {condition : S → L → Prop} (always : ∀ s label, condition s label)
    (labels : List L) (s : S) : Throughout step condition labels s := by
  induction labels generalizing s with
  | nil => trivial
  | cons label labels ih => exact ⟨always s label, fun _ next _ => ih next⟩

/-- A relation between states and the events so far that holds at the start and is
extended by each step holds of every run whose steps all meet a condition. -/
theorem run_history_throughout (condition : S → L → Prop) (property : S → List E → Prop)
    (extended : ∀ s label past events next, condition s label → property s past →
      step s label = some (events, next) → property next (past ++ events))
    {labels : List L} {s final : S} {past events : List E}
    (ran : run step labels s = some (events, final))
    (throughout : Throughout step condition labels s) (initial : property s past) :
    property final (past ++ events) := by
  induction labels generalizing s past events with
  | nil =>
    cases ran
    simpa using initial
  | cons label labels ih =>
    obtain ⟨first, next, later, taken, rest, rfl⟩ := run_cons_eq_some.mp ran
    rw [← List.append_assoc]
    exact ih rest (throughout.2 first next taken)
      (extended s label past first next throughout.1 initial taken)

/-- The same for a relation that every step extends. -/
theorem run_history (property : S → List E → Prop)
    (extended : ∀ s label past events next, property s past →
      step s label = some (events, next) → property next (past ++ events))
    {labels : List L} {s final : S} {past events : List E}
    (ran : run step labels s = some (events, final)) (initial : property s past) :
    property final (past ++ events) := by
  refine run_history_throughout (fun _ _ => True) property ?_ ran ?_ initial
  · intro s label past events next _ before taken
    exact extended s label past events next before taken
  · exact throughout_of_forall (fun _ _ => trivial) labels s

/-- What every step that meets a condition preserves, every run of such steps preserves. -/
theorem run_invariant_throughout (condition : S → L → Prop) (property : S → Prop)
    (preserved : ∀ s label events next, condition s label → property s → step s label = some (events, next) →
      property next)
    {labels : List L} {s final : S} {events : List E} (ran : run step labels s = some (events, final))
    (throughout : Throughout step condition labels s) (initial : property s) : property final := by
  induction labels generalizing s events with
  | nil =>
    cases ran
    exact initial
  | cons label labels ih =>
    obtain ⟨first, next, later, taken, rest, _⟩ := run_cons_eq_some.mp ran
    exact ih rest (throughout.2 first next taken) (preserved s label first next throughout.1 initial taken)

/-- What every step preserves, every run preserves. -/
theorem run_invariant (property : S → Prop)
    (preserved : ∀ s label events next, property s → step s label = some (events, next) →
      property next)
    {labels : List L} {s final : S} {events : List E}
    (ran : run step labels s = some (events, final)) (initial : property s) : property final := by
  induction labels generalizing s events with
  | nil =>
    cases ran
    exact initial
  | cons label labels ih =>
    obtain ⟨first, next, later, taken, rest, _⟩ := run_cons_eq_some.mp ran
    exact ih rest (preserved s label first next initial taken)

/-- A run either meets the condition throughout or has a first step that breaks it. -/
theorem throughout_or_first (condition : S → L → Prop) {labels : List L} {s final : S}
    {events : List E} (ran : run step labels s = some (events, final)) :
    Throughout step condition labels s ∨
      ∃ front label back middle first, labels = front ++ label :: back ∧
        run step front s = some (first, middle) ∧ Throughout step condition front s ∧
        ¬ condition middle label := by
  induction labels generalizing s events with
  | nil => exact .inl trivial
  | cons label labels ih =>
    obtain ⟨first, next, later, taken, rest, rfl⟩ := run_cons_eq_some.mp ran
    by_cases met : condition s label
    · rcases ih rest with through | ⟨front, breaking, back, middle, e, rfl, ranFront, through, broken⟩
      · exact .inl ((throughout_cons taken).mpr ⟨met, through⟩)
      · refine .inr ⟨label :: front, breaking, back, middle, first ++ e, rfl, ?_, ?_, broken⟩
        · exact run_cons_eq_some.mpr ⟨first, next, e, taken, ranFront, rfl⟩
        · exact (throughout_cons taken).mpr ⟨met, through⟩
    · exact .inr ⟨[], label, labels, s, [], rfl, rfl, trivial, met⟩

/-- If a condition on a step says exactly whether a property survives it, then the
property holds at every point of a run just when all of its steps meet the condition. -/
theorem always_iff_throughout {assumed condition : S → L → Prop} {invariant : S → Prop}
    {property : S → List E → Prop}
    (kept : ∀ s label events next, assumed s label → invariant s →
      step s label = some (events, next) → invariant next)
    (exact : ∀ s label past events next, assumed s label → invariant s → property s past →
      step s label = some (events, next) → (property next (past ++ events) ↔ condition s label))
    {labels : List L} {s final : S} {events : List E} (ran : run step labels s = some (events, final))
    (assumptions : Throughout step assumed labels s) (initial : invariant s) (holds : property s []) :
    Always step property labels s ↔ Throughout step condition labels s := by
  induction labels generalizing s events property with
  | nil =>
    refine ⟨fun _ => trivial, fun _ front back split events middle ranFront => ?_⟩
    rw [(List.append_eq_nil_iff.mp split.symm).1] at ranFront
    cases ranFront
    exact holds
  | cons label labels ih =>
    obtain ⟨first, next, later, taken, rest, _⟩ := run_cons_eq_some.mp ran
    obtain ⟨assumedHere, assumedLater⟩ := (throughout_cons taken).mp assumptions
    have survives := exact s label [] first next assumedHere initial holds taken
    -- the rest of the run, with the first events as its past
    have further (holdsNext : property next first) :
        Always step (fun s events => property s (first ++ events)) labels next ↔
          Throughout step condition labels next := by
      refine ih ?_ rest assumedLater (kept s label first next assumedHere initial taken) ?_
      · intro s label past events next assumed invariant holds taken
        rw [← List.append_assoc]
        exact exact s label (first ++ past) events next assumed invariant holds taken
      · rwa [List.append_nil]
    constructor
    · intro always
      have single : run step [label] s = some (first, next) :=
        run_cons_eq_some.mpr ⟨first, next, [], taken, rfl, by rw [List.append_nil]⟩
      have holdsNext := always [label] labels rfl first next single
      refine (throughout_cons taken).mpr ⟨survives.mp holdsNext, (further holdsNext).mp ?_⟩
      intro front back split events' middle ranFront
      exact always (label :: front) back (by rw [split, List.cons_append]) _ middle
        (run_cons_eq_some.mpr ⟨first, next, events', taken, ranFront, rfl⟩)
    · intro throughout front back split events' middle ranFront
      obtain ⟨met, later⟩ := (throughout_cons taken).mp throughout
      cases front with
      | nil =>
        cases ranFront
        exact holds
      | cons label' front =>
        obtain ⟨rfl, tail⟩ : label = label' ∧ labels = front ++ back := List.cons.inj split
        obtain ⟨first', next', later', taken', ranRest, rfl⟩ := run_cons_eq_some.mp ranFront
        cases taken.symm.trans taken'
        exact (further (survives.mpr met)).mpr later front back tail later' middle ranRest

end Library
