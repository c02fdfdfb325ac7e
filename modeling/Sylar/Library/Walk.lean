import Mathlib.Computability.StateTransition
import Mathlib.Data.Fintype.Card
import Mathlib.Data.Fintype.EquivFin

/-! Walks along a relation, and when they end: on finitely many things, if none of them
comes to a cycle. For the walk of a deterministic machine, when it avoids the states that
it would be stuck in. -/
namespace Library

open Relation

section Walks

variable {α : Type u} {r : α → α → Prop}

/-- Where there is always a step that keeps a property, walks need not end. -/
theorem not_acc_of_onward {P : α → Prop} (onward : ∀ a, P a → ∃ b, r a b ∧ P b) {a : α} (here : P a) :
    ¬ Acc (fun b a => r a b) a := by
  intro ends
  induction ends with
  | intro a _ ih =>
    obtain ⟨b, first, later⟩ := onward a here
    exact ih b first later

/-- A walk from here can come to a cycle. -/
def ReachesCycle (r : α → α → Prop) (a : α) : Prop := ∃ c, ReflTransGen r a c ∧ TransGen r c c

/-- Where a cycle is ahead it is still ahead after one of the steps. -/
theorem ReachesCycle.step {a : α} (ahead : ReachesCycle r a) : ∃ b, r a b ∧ ReachesCycle r b := by
  obtain ⟨c, reached, cycle⟩ := ahead
  rcases ReflTransGen.cases_head reached with rfl | ⟨b, first, later⟩
  · obtain ⟨b, first, back⟩ := TransGen.head'_iff.mp cycle
    exact ⟨b, first, a, back, cycle⟩
  · exact ⟨b, first, c, later, cycle⟩

theorem acc_of_no_cycle [Finite α] {a : α} (acyclic : ¬ ReachesCycle r a) : Acc (fun b a => r a b) a := by
  -- the order in which a walk from here comes to things, on those it can come to
  let after (x y : { b // ReflTransGen r a b }) : Prop := TransGen r y.val x.val
  have trans : IsTrans _ after := ⟨fun _ _ _ first second => TransGen.trans second first⟩
  have irrefl : Std.Irrefl after := ⟨fun x cycle => acyclic ⟨x.val, x.property, cycle⟩⟩
  have ends (x : { b // ReflTransGen r a b }) : Acc (fun b a => r a b) x.val := by
    induction x using (Finite.wellFounded_of_trans_of_irrefl after).induction with
    | _ x ih =>
      constructor
      intro b first
      exact ih ⟨b, x.property.tail first⟩ (.single first)
  exact ends ⟨a, .refl⟩

theorem acc_iff_no_cycle [Finite α] (r : α → α → Prop) (a : α) :
    Acc (fun b a => r a b) a ↔ ¬ ReachesCycle r a := by
  constructor
  · intro ends ahead
    exact not_acc_of_onward (fun _ => ReachesCycle.step) ahead ends
  · exact acc_of_no_cycle

end Walks

section Machines

variable {S : Type u} {step : S → Option S} {bad : S → Prop}

/-- A bad state is never reached. -/
def Avoids (step : S → Option S) (bad : S → Prop) (s : S) : Prop :=
  ∀ s', StateTransition.Reaches step s s' → ¬ bad s'

/-- Bad states in which the machine is stuck lie on neither side of a state on its way. -/
theorem avoids_iff_of_reaches (stuck : ∀ s, bad s → step s = none) {s s' : S}
    (reached : StateTransition.Reaches step s s') :
    Avoids step bad s ↔ Avoids step bad s' := by
  constructor
  · intro avoids b later
    exact avoids b (reached.trans later)
  · intro avoids b later isBad
    rcases StateTransition.reaches_total reached later with after | before
    · exact avoids b after isBad
    · rcases ReflTransGen.cases_head before with rfl | ⟨c, taken, _⟩
      · exact avoids b .refl isBad
      · rw [stuck b isBad] at taken
        cases taken

/-- A machine that gets stuck takes finitely many steps. -/
theorem acc_of_stuck {s b : S} (reached : StateTransition.Reaches step s b) (stuck : step b = none) :
    Acc (fun b a => b ∈ step a) s := by
  induction reached using ReflTransGen.head_induction_on with
  | refl =>
    constructor
    intro c taken
    rw [stuck] at taken
    cases taken
  | head taken _ ih =>
    constructor
    intro c other
    rw [Option.mem_unique other taken]
    exact ih

/-- A machine that keeps coming back to a property is never stuck. -/
theorem avoids_of_recurs (stuck : ∀ s, bad s → step s = none) {P : S → Prop}
    (recurs : ∀ s, P s → ∃ s', P s' ∧ StateTransition.Reaches₁ step s s') {s : S} (here : P s) : Avoids step bad s := by
  intro b reached isBad
  have ends : Acc (fun b a => b ∈ step a) s := acc_of_stuck reached (stuck b isBad)
  refine not_acc_of_onward (P := fun s => ∃ s', P s' ∧ StateTransition.Reaches step s s') ?_ ⟨s, here, .refl⟩ ends
  rintro a ⟨s', again, later⟩
  rcases ReflTransGen.cases_head later with rfl | ⟨c, taken, rest⟩
  · obtain ⟨s'', again, next⟩ := recurs a again
    obtain ⟨c, taken, rest⟩ := TransGen.head'_iff.mp next
    exact ⟨c, taken, s'', again, rest⟩
  · exact ⟨c, taken, s', again, rest⟩

end Machines

end Library
