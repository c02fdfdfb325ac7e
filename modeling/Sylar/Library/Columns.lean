import Mathlib.Data.List.Basic

/-! Tables as texts: a separator between the columns of a row, a mark behind each row. -/
namespace Library

variable {α : Type u}

/-- The text tells a part without the mark from what is behind the mark. -/
theorem append_mark_inj {front front' back back' : List α} {mark : α} (clean : mark ∉ front) (clean' : mark ∉ front')
    (same : front ++ mark :: back = front' ++ mark :: back') : front = front' ∧ back = back' := by
  induction front generalizing front' with
  | nil =>
    cases front' with
    | nil => exact ⟨rfl, (List.cons.inj same).2⟩
    | cons c front' => exact absurd ((List.cons.inj same).1 ▸ List.mem_cons_self) clean'
  | cons c front ih =>
    cases front' with
    | nil => exact absurd ((List.cons.inj same).1 ▸ List.mem_cons_self) clean
    | cons c' front' =>
      obtain ⟨rfl, rest⟩ := List.cons.inj same
      obtain ⟨rfl, behind⟩ := ih (fun member => clean (List.mem_cons_of_mem _ member))
        (fun member => clean' (List.mem_cons_of_mem _ member)) rest
      exact ⟨rfl, behind⟩

/-- The same from the other end. -/
theorem append_mark_inj_right {front front' back back' : List α} {mark : α} (clean : mark ∉ back)
    (clean' : mark ∉ back') (same : front ++ mark :: back = front' ++ mark :: back') :
    front = front' ∧ back = back' := by
  have turned : back.reverse ++ mark :: front.reverse = back'.reverse ++ mark :: front'.reverse := by
    simpa using congrArg List.reverse same
  obtain ⟨behind, before⟩ := append_mark_inj (by simpa using clean) (by simpa using clean') turned
  exact ⟨List.reverse_injective before, List.reverse_injective behind⟩

def row (sep stop : α) (columns : List (List α)) : List α := [sep].intercalate columns ++ [stop]

/-- The last column may hold separators, and no column the mark. -/
structure CleanRow (sep stop : α) (columns : List (List α)) : Prop where
  separate : ∀ column ∈ columns.dropLast, sep ∉ column
  within : ∀ column ∈ columns, stop ∉ column

variable {sep stop : α}

theorem intercalate_inj {columns columns' : List (List α)} (length : columns.length = columns'.length)
    (clean : ∀ column ∈ columns.dropLast, sep ∉ column) (clean' : ∀ column ∈ columns'.dropLast, sep ∉ column)
    (same : [sep].intercalate columns = [sep].intercalate columns') : columns = columns' := by
  induction columns generalizing columns' with
  | nil => exact (List.length_eq_zero_iff.mp length.symm).symm
  | cons column rest ih =>
    cases columns' with
    | nil => cases length
    | cons column' rest' =>
      have shorter : rest.length = rest'.length := Nat.succ.inj length
      cases rest with
      | nil =>
        cases List.length_eq_zero_iff.mp shorter.symm
        simpa using same
      | cons next rest =>
        cases rest' with
        | nil => cases shorter
        | cons next' rest' =>
          simp only [List.dropLast_cons_cons, List.mem_cons, forall_eq_or_imp] at clean clean'
          rw [List.intercalate_cons_cons, List.intercalate_cons_cons, List.append_assoc, List.append_assoc] at same
          obtain ⟨rfl, others⟩ := append_mark_inj clean.1 clean'.1 same
          rw [ih shorter clean.2 clean'.2 others]

theorem not_mem_intercalate (apart : stop ≠ sep) {columns : List (List α)} (clean : ∀ column ∈ columns, stop ∉ column) :
    stop ∉ [sep].intercalate columns := by
  induction columns with
  | nil => simp
  | cons column rest ih =>
    simp only [List.mem_cons, forall_eq_or_imp] at clean
    cases rest with
    | nil => simpa using clean.1
    | cons next rest =>
      rw [List.intercalate_cons_cons]
      simp only [List.mem_append, List.mem_singleton, not_or]
      exact ⟨⟨clean.1, apart⟩, ih clean.2⟩

/-- Rows of one width: the text of the table tells each of its columns. -/
theorem rows_inj (apart : stop ≠ sep) (width : Nat) {rows rows' : List (List (List α))}
    (clean : ∀ columns ∈ rows, CleanRow sep stop columns ∧ columns.length = width)
    (clean' : ∀ columns ∈ rows', CleanRow sep stop columns ∧ columns.length = width)
    (same : rows.flatMap (row sep stop) = rows'.flatMap (row sep stop)) : rows = rows' := by
  induction rows generalizing rows' with
  | nil =>
    cases rows' with
    | nil => rfl
    | cons columns' rest' => simp [row] at same
  | cons columns rest ih =>
    cases rows' with
    | nil => simp [row] at same
    | cons columns' rest' =>
      simp only [List.mem_cons, forall_eq_or_imp] at clean clean'
      obtain ⟨⟨here, wide⟩, later⟩ := clean
      obtain ⟨⟨here', wide'⟩, later'⟩ := clean'
      simp only [List.flatMap_cons, row, List.append_assoc, List.singleton_append] at same
      obtain ⟨first, others⟩ := append_mark_inj (not_mem_intercalate apart here.within)
        (not_mem_intercalate apart here'.within) same
      rw [intercalate_inj (wide.trans wide'.symm) here.separate here'.separate first, ih later later' others]

end Library
