import Sylar.Library.Machine

/-! Deterministic machines without labels: runs of any length, taken only from
states that a condition allows, and the simulation of a labelled machine whose
labels such a machine carries as its remaining program. -/
namespace Library

inductive Reaches (step : S → Option (List E × S)) (allowed : S → Prop) : S → List E → S → Prop
  | refl (s : S) : Reaches step allowed s [] s
  | head {s middle final : S} {first later : List E} (permitted : allowed s)
      (taken : step s = some (first, middle)) (rest : Reaches step allowed middle later final) :
      Reaches step allowed s (first ++ later) final

namespace Reaches

variable {step : S → Option (List E × S)} {allowed : S → Prop}

theorem single {s next : S} {events : List E} (permitted : allowed s)
    (taken : step s = some (events, next)) : Reaches step allowed s events next := by
  have ran := head permitted taken (refl next)
  rwa [List.append_nil] at ran

theorem trans {s middle final : S} {front back : List E} (first : Reaches step allowed s front middle)
    (second : Reaches step allowed middle back final) :
    Reaches step allowed s (front ++ back) final := by
  induction first with
  | refl => exact second
  | head permitted taken _ ih =>
    rw [List.append_assoc]
    exact head permitted taken (ih second)

/-- What every allowed step preserves holds in every state reached. -/
theorem invariant {property : S → Prop}
    (preserved : ∀ s events next, allowed s → property s → step s = some (events, next) → property next)
    {s final : S} {events : List E} (ran : Reaches step allowed s events final)
    (initial : property s) : property final := by
  induction ran with
  | refl => exact initial
  | head permitted taken _ ih => exact ih (preserved _ _ _ permitted initial taken)

/-- A stronger condition that holds of every state reached. -/
theorem strengthen {stronger : S → Prop} {s final : S} {events : List E}
    (ran : Reaches step allowed s events final)
    (holds : ∀ events middle, Reaches step allowed s events middle → allowed middle → stronger middle) :
    Reaches step stronger s events final := by
  induction ran with
  | refl => exact refl _
  | head permitted taken _ ih =>
    refine head (holds [] _ (refl _) permitted) taken (ih ?_)
    intro events middle reached
    exact holds _ middle (head permitted taken reached)

/-- If each step of a labelled machine is matched, so is each of its runs. -/
theorem simulate {spec : A → L → Option (List E × A)} {related : A → List L → S → Prop}
    (matched : ∀ a label labels s events a', related a (label :: labels) s →
      spec a label = some (events, a') →
      ∃ s', Reaches step allowed s events s' ∧ related a' labels s')
    {front rest : List L} {a final : A} {s : S} {events : List E}
    (start : related a (front ++ rest) s) (ran : run spec front a = some (events, final)) :
    ∃ s', Reaches step allowed s events s' ∧ related final rest s' := by
  induction front generalizing a s events with
  | nil =>
    cases ran
    exact ⟨s, refl s, start⟩
  | cons label front ih =>
    obtain ⟨first, next, later, taken, ranRest, rfl⟩ := run_cons_eq_some.mp ran
    obtain ⟨middle, now, relatedMiddle⟩ := matched a label (front ++ rest) s first next start taken
    obtain ⟨s', after, relatedFinal⟩ := ih relatedMiddle ranRest
    exact ⟨s', now.trans after, relatedFinal⟩

end Reaches

end Library
