import Mathlib.Data.List.Induction

/-! A cell that takes new values unless they compare equal to the one it holds, over any
comparison. What a list of values leaves in it, and when the same list over again finds
nothing to change. -/
namespace Library

variable {T : Type u} [BEq T]

/-- The new value, unless it compares equal to the old one. -/
def settle (old new : T) : T := if new == old then old else new

def settleAll (old : T) (news : List T) : T := news.foldl settle old

theorem settle_cases (old new : T) :
    ((new == old) = true ∧ settle old new = old) ∨ ((new == old) = false ∧ settle old new = new) := by
  unfold settle
  split_ifs with same
  · exact .inl ⟨same, rfl⟩
  · exact .inr ⟨by simpa using same, rfl⟩

theorem settleAll_eq_or_mem (old : T) (news : List T) :
    settleAll old news = old ∨ settleAll old news ∈ news := by
  induction news generalizing old with
  | nil => exact .inl rfl
  | cons new rest ih =>
    rcases ih (settle old new) with kept | later
    · rcases settle_cases old new with ⟨_, same⟩ | ⟨_, same⟩
      · exact .inl (kept.trans same)
      · exact .inr (List.mem_cons.mpr (.inl (kept.trans same)))
    · exact .inr (List.mem_cons_of_mem _ later)

/-- Values that compare equal to the one held change nothing. -/
theorem settleAll_fixed {old : T} {news : List T} (same : ∀ new ∈ news, (new == old) = true) :
    settleAll old news = old := by
  induction news with
  | nil => rfl
  | cons new rest ih =>
    obtain ⟨first, later⟩ := List.forall_mem_cons.mp same
    rw [settleAll, List.foldl_cons, settle, if_pos first]
    exact ih later

/-- Values that all compare equal to each other do so to the one they leave. -/
theorem beq_settleAll {news : List T} (agree : ∀ a ∈ news, ∀ b ∈ news, (a == b) = true) (old : T) :
    ∀ new ∈ news, (new == settleAll old news) = true := by
  induction news generalizing old with
  | nil => simp
  | cons first rest ih =>
    have later : ∀ a ∈ rest, ∀ b ∈ rest, (a == b) = true := fun a ha b hb =>
      agree a (List.mem_cons_of_mem _ ha) b (List.mem_cons_of_mem _ hb)
    intro new member
    rcases List.mem_cons.mp member with rfl | member
    · have reached : settleAll old (new :: rest) = settleAll (settle old new) rest := rfl
      rw [reached]
      rcases settleAll_eq_or_mem (settle old new) rest with kept | taken
      · rw [kept]
        rcases settle_cases old new with ⟨same, stays⟩ | ⟨_, changes⟩
        · rw [stays]
          exact same
        · rw [changes]
          exact agree new List.mem_cons_self new List.mem_cons_self
      · exact agree new List.mem_cons_self _ (List.mem_cons_of_mem _ taken)
    · exact ih later (settle old first) new member

/-- How often the value is replaced. -/
def changes (old : T) : List T → Nat
  | [] => 0
  | new :: rest => (if new == old then 0 else 1) + changes (settle old new) rest

theorem changes_eq_zero_iff (old : T) (news : List T) :
    changes old news = 0 ↔ ∀ new ∈ news, (new == old) = true := by
  induction news generalizing old with
  | nil => simp [changes]
  | cons new rest ih =>
    rw [changes, List.forall_mem_cons]
    rcases settle_cases old new with ⟨same, stays⟩ | ⟨differs, _⟩
    · rw [stays, ← ih old, if_pos same]
      simp [same]
    · simp [differs]

theorem settleAll_concat (old : T) (news : List T) (last : T) :
    settleAll old (news ++ [last]) = settle (settleAll old news) last := by
  simp [settleAll]

section Equivalence

variable [EquivBEq T]

/-- The last value compares equal to what is left. -/
theorem last_beq_settleAll (old : T) (news : List T) (last : T) :
    (last == settleAll old (news ++ [last])) = true := by
  rw [settleAll_concat]
  rcases settle_cases (settleAll old news) last with ⟨same, stays⟩ | ⟨_, changes⟩
  · rw [stays]
    exact same
  · rw [changes]
    exact BEq.rfl

/-- For an equivalence the same list over again leaves the same value. -/
theorem settleAll_idem (old : T) (news : List T) :
    settleAll (settleAll old news) news = settleAll old news := by
  induction news using List.reverseRecOn with
  | nil => rfl
  | append_singleton front last ih =>
    rw [settleAll_concat, settleAll_concat]
    rcases settle_cases (settleAll old front) last with ⟨same, stays⟩ | ⟨differs, changes⟩
    · rw [stays, ih, stays]
    · rw [changes]
      rcases settle_cases (settleAll last front) last with ⟨same, _⟩ | ⟨_, result⟩
      · -- both runs end with a value equal to the last of the front, so that they agree
        cases front using List.reverseRecOn with
        | nil => simp [settleAll, settle]
        | append_singleton before d =>
          have toFirst : (settleAll last (before ++ [d]) == d) = true :=
            BEq.symm (last_beq_settleAll last before d)
          have toSecond := last_beq_settleAll old before d
          rw [BEq.trans (BEq.trans same toFirst) toSecond] at differs
          cases differs
      · exact result

/-- The same list over again finds nothing to replace exactly if its values all compare
equal to each other. -/
theorem changes_settleAll_iff (old : T) (news : List T) :
    changes (settleAll old news) news = 0 ↔ ∀ a ∈ news, ∀ b ∈ news, (a == b) = true := by
  rw [changes_eq_zero_iff]
  constructor
  · intro same a ha b hb
    exact BEq.trans (same a ha) (BEq.symm (same b hb))
  · intro agree
    exact beq_settleAll agree old

end Equivalence

end Library
