import Mathlib.Data.List.Induction
import Sylar.Library.Machine

/-! Histories: something started and nothing has ended it since. A property of all
states of a run is one of its events where each state is known from the events
before it. -/
namespace Library

/-- An event that starts, and after it none that ends. -/
def Since (starts ends : E → Prop) (past : List E) : Prop :=
  ∃ front event back, past = front ++ event :: back ∧ starts event ∧ ∀ later ∈ back, ¬ ends later

variable {starts ends : E → Prop} {past : List E}

theorem not_since_nil : ¬ Since starts ends [] := by
  rintro ⟨front, event, back, split, _⟩
  cases front with
  | nil => cases split
  | cons _ _ => cases split

theorem Since.member (since : Since starts ends past) : ∃ event ∈ past, starts event := by
  obtain ⟨front, event, back, rfl, started, _⟩ := since
  exact ⟨event, List.mem_append_right _ List.mem_cons_self, started⟩

/-- An event of a history that is one event longer is the last one, or it was there before. -/
theorem split_concat {front back : List E} {first event : E}
    (split : past ++ [event] = front ++ first :: back) :
    (front = past ∧ first = event ∧ back = []) ∨
    ∃ rest, back = rest ++ [event] ∧ past = front ++ first :: rest := by
  rcases List.eq_nil_or_concat back with rfl | ⟨rest, last, rfl⟩
  · obtain ⟨rfl, tails⟩ := List.append_inj' split rfl
    exact .inl ⟨rfl, (List.cons.inj tails).1.symm, rfl⟩
  · rw [List.concat_eq_append] at split ⊢
    rw [← List.cons_append, ← List.append_assoc] at split
    obtain ⟨rfl, tails⟩ := List.append_inj' split rfl
    exact .inr ⟨rest, by rw [(List.cons.inj tails).1], rfl⟩

/-- What started lasts until the event that ends it. -/
theorem since_concat (event : E) :
    Since starts ends (past ++ [event]) ↔ starts event ∨ (Since starts ends past ∧ ¬ ends event) := by
  constructor
  · rintro ⟨front, first, back, split, started, lasts⟩
    rcases split_concat split with ⟨_, rfl, _⟩ | ⟨rest, rfl, rfl⟩
    · exact .inl started
    · have lasted : ∀ later ∈ rest, ¬ ends later := fun later member =>
        lasts later (List.mem_append_left _ member)
      exact .inr ⟨⟨front, first, rest, rfl, started, lasted⟩, lasts event (by simp)⟩
  · rintro (started | ⟨⟨front, first, back, rfl, started, lasted⟩, lasts⟩)
    · refine ⟨past, event, [], rfl, started, ?_⟩
      intro later member
      cases member
    · refine ⟨front, first, back ++ [event], by simp, started, ?_⟩
      intro later member
      rcases List.mem_append.mp member with old | new
      · exact lasted later old
      · cases List.mem_singleton.mp new
        exact lasts

section Always

variable {step : S → L → Option (List E × S)} {property : S → List E → Prop}

theorem always_nil {s : S} : Always step property [] s ↔ property s [] := by
  constructor
  · intro always
    exact always [] [] rfl [] s rfl
  · intro holds front back split events middle ran
    cases (List.append_eq_nil_iff.mp split.symm).1
    cases ran
    exact holds

/-- One more step adds one more state. -/
theorem always_concat {labels : List L} {label : L} {s final : S} {events : List E}
    (ran : run step (labels ++ [label]) s = some (events, final)) :
    Always step property (labels ++ [label]) s ↔
      Always step property labels s ∧ property final events := by
  constructor
  · intro always
    constructor
    · rintro front back rfl events middle ranFront
      exact always front (back ++ [label]) (List.append_assoc _ _ _) events middle ranFront
    · exact always (labels ++ [label]) [] (List.append_nil _).symm events final ran
  · rintro ⟨always, holds⟩ front back split events' middle ranFront
    rcases List.eq_nil_or_concat back with rfl | ⟨back, last, rfl⟩
    · rw [List.append_nil] at split
      subst split
      cases ran.symm.trans ranFront
      exact holds
    · rw [List.concat_eq_append, ← List.append_assoc] at split
      exact always front back (List.append_inj' split rfl).1 events' middle ranFront

/-- If in each state the events so far decide whether the property survives a step,
then it holds in all states of a run just when its events are good. -/
theorem always_iff_events {invariant : S → List E → Prop} {good : List E → Prop}
    (kept : ∀ s label past events next, invariant s past → step s label = some (events, next) →
      invariant next (past ++ events))
    (exact : ∀ s label past events next, invariant s past → property s past → good past →
      step s label = some (events, next) → (property next (past ++ events) ↔ good (past ++ events)))
    (earlier : ∀ past events, good (past ++ events) → good past)
    {labels : List L} {s final : S} {events : List E} (ran : run step labels s = some (events, final))
    (initial : invariant s []) (holds : property s []) (start : good []) :
    Always step property labels s ↔ good events := by
  induction labels using List.reverseRecOn generalizing events final with
  | nil =>
    cases ran
    rw [always_nil]
    exact ⟨fun _ => start, fun _ => holds⟩
  | append_singleton labels label ih =>
    rw [always_concat ran]
    obtain ⟨past, middle, new, ranFront, ranLast, rfl⟩ := run_append_eq_some.mp ran
    obtain ⟨new, next, _, taken, ended, rfl⟩ := run_cons_eq_some.mp ranLast
    cases ended
    rw [List.append_nil, ih ranFront]
    have invariantHere : invariant middle past := by
      have reached := run_history invariant kept ranFront initial
      rwa [List.nil_append] at reached
    -- up to the last step the property held where the events were good
    have reached (goodPast : good past) : property middle past :=
      (ih ranFront).mpr goodPast labels [] (List.append_nil _).symm past middle ranFront
    constructor
    · rintro ⟨goodPast, holdsNext⟩
      exact (exact middle label past new _ invariantHere (reached goodPast) goodPast taken).mp holdsNext
    · intro goodAll
      have goodPast := earlier past new goodAll
      exact ⟨goodPast,
        (exact middle label past new _ invariantHere (reached goodPast) goodPast taken).mpr goodAll⟩

end Always

end Library
