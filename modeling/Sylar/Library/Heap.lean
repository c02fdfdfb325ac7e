import Mathlib.Data.List.Basic

/-! Heaps whose objects are allocated at the end and never freed: a pointer is a
position in a list. -/
namespace Library

/-- Updates the objects behind a list of pointers, one after the other. -/
def modifyAll (f : α → α) (pointers : List Nat) (heap : List α) : List α :=
  pointers.foldl (fun heap pointer => heap.modify pointer f) heap

@[simp] theorem length_modifyAll (f : α → α) (pointers : List Nat) (heap : List α) :
    (modifyAll f pointers heap).length = heap.length := by
  induction pointers generalizing heap with
  | nil => rfl
  | cons pointer rest ih => exact (ih (heap.modify pointer f)).trans (List.length_modify f heap pointer)

/-- Objects behind other pointers stay as they are. -/
theorem getElem?_modifyAll (f : α → α) {pointers : List Nat} {other : Nat} (apart : other ∉ pointers)
    (heap : List α) : (modifyAll f pointers heap)[other]? = heap[other]? := by
  induction pointers generalizing heap with
  | nil => rfl
  | cons pointer rest ih =>
    have different : pointer ≠ other := fun same => apart (same ▸ List.mem_cons_self)
    have later : other ∉ rest := fun member => apart (List.mem_cons_of_mem pointer member)
    rw [modifyAll, List.foldl_cons]
    exact (ih later (heap.modify pointer f)).trans (List.getElem?_modify_ne f heap different)

/-- An object behind one of the pointers is updated, however often it is among them,
where updating twice is updating once. -/
theorem getElem?_modifyAll_mem {f : α → α} (once : ∀ a, f (f a) = f a) {pointers : List Nat} {pointer : Nat}
    (member : pointer ∈ pointers) (heap : List α) :
    (modifyAll f pointers heap)[pointer]? = heap[pointer]?.map f := by
  induction pointers generalizing heap with
  | nil => cases member
  | cons first rest ih =>
    change (modifyAll f rest (heap.modify first f))[pointer]? = _
    by_cases again : pointer ∈ rest
    · rw [ih again, List.getElem?_modify]
      by_cases same : first = pointer
      · simp [same, once, Function.comp_def]
      · simp [same]
    · have here : pointer = first := (List.mem_cons.mp member).resolve_right again
      rw [getElem?_modifyAll f again, List.getElem?_modify, here]
      simp

/-- Only what an update makes of the object behind the pointer matters. -/
theorem modify_congr {f g : α → α} {heap : List α} {pointer : Nat} {a : α} (there : heap[pointer]? = some a)
    (same : f a = g a) : heap.modify pointer f = heap.modify pointer g := by
  apply List.ext_getElem?
  intro position
  rw [List.getElem?_modify, List.getElem?_modify]
  by_cases here : pointer = position
  · rw [← here, there]
    simp [same]
  · simp [here]

/-- What an update keeps of an object, it keeps of the object behind every pointer. -/
theorem kept_modify {property : α → Prop} {f : α → α} (kept : ∀ a, property a → property (f a))
    {heap : List α} {pointer position : Nat} {a : α} (there : (heap.modify pointer f)[position]? = some a) :
    ∃ old, heap[position]? = some old ∧ (property old → property a) := by
  rw [List.getElem?_modify] at there
  obtain ⟨old, found, rfl⟩ := Option.map_eq_some_iff.mp there
  refine ⟨old, found, ?_⟩
  intro before
  by_cases same : pointer = position
  · simpa [same] using kept old before
  · simpa [same] using before

theorem kept_modifyAll {property : α → Prop} {f : α → α} (kept : ∀ a, property a → property (f a))
    {pointers : List Nat} {heap : List α} {position : Nat} {a : α}
    (there : (modifyAll f pointers heap)[position]? = some a) :
    ∃ old, heap[position]? = some old ∧ (property old → property a) := by
  induction pointers generalizing heap with
  | nil => exact ⟨a, there, id⟩
  | cons pointer rest ih =>
    obtain ⟨middle, between, later⟩ := ih there
    obtain ⟨old, before, first⟩ := kept_modify kept between
    exact ⟨old, before, fun holds => later (first holds)⟩

/-- What holds of all objects and is kept by an update holds of all objects after it. -/
theorem forall_modify {property : α → Prop} {f : α → α} (kept : ∀ a, property a → property (f a))
    {heap : List α} (all : ∀ a ∈ heap, property a) (pointer : Nat) :
    ∀ a ∈ heap.modify pointer f, property a := by
  intro a member
  obtain ⟨position, there⟩ := List.mem_iff_getElem?.mp member
  obtain ⟨old, found, keeps⟩ := kept_modify kept there
  exact keeps (all old (List.mem_of_getElem? found))

theorem forall_modifyAll {property : α → Prop} {f : α → α} (kept : ∀ a, property a → property (f a))
    {heap : List α} (all : ∀ a ∈ heap, property a) (pointers : List Nat) :
    ∀ a ∈ modifyAll f pointers heap, property a := by
  induction pointers generalizing heap with
  | nil => exact all
  | cons pointer rest ih => exact ih (forall_modify kept all pointer)

/-- An update of the object allocated last. -/
theorem modify_allocated (f : α → α) (heap : List α) (object : α) :
    (heap ++ [object]).modify heap.length f = heap ++ [f object] := by
  induction heap with
  | nil => rfl
  | cons first rest ih => exact congrArg (first :: ·) ih

/-- What a pointer finds after an allocation. -/
theorem getElem?_allocated {heap : List α} {object found : α} {pointer : Nat} :
    (heap ++ [object])[pointer]? = some found ↔
      heap[pointer]? = some found ∨ (pointer = heap.length ∧ object = found) := by
  rcases Nat.lt_trichotomy pointer heap.length with old | new | outside
  · rw [List.getElem?_append_left old]
    simp [Nat.ne_of_lt old]
  · simp [new]
  · have longer : (heap ++ [object]).length ≤ pointer := by
      rw [List.length_append, List.length_singleton]
      omega
    rw [List.getElem?_eq_none longer, List.getElem?_eq_none (Nat.le_of_lt outside)]
    simp [Nat.ne_of_gt outside]

end Library
