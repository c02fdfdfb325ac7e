import Mathlib.Data.List.Nodup
import Mathlib.Order.Lattice

/-! Ordered tables: finite lists of entries with strictly increasing keys. With
pairs as entries this is an ordered map; with a projection as key it is an
ordered set whose elements compare by that projection. -/
namespace Library

structure Table [LT κ] (key : α → κ) where
  entries : List α
  sorted : entries.Pairwise (fun a b => key a < key b)

variable [LinearOrder κ] {key : α → κ}

/-- Writes an entry, replacing the one with its key. -/
def putEntry (key : α → κ) (a : α) : List α → List α
  | [] => [a]
  | b :: rest =>
    if key a < key b then a :: b :: rest
    else if key a = key b then a :: rest
    else b :: putEntry key a rest

theorem mem_putEntry {a b : α} {entries : List α}
    (sorted : entries.Pairwise (fun a b => key a < key b)) :
    b ∈ putEntry key a entries ↔ b = a ∨ (b ∈ entries ∧ key b ≠ key a) := by
  induction entries with
  | nil => simp [putEntry]
  | cons c rest ih =>
    obtain ⟨first, tail⟩ := List.pairwise_cons.mp sorted
    have later (d : α) (member : d ∈ rest) : key d ≠ key c := ne_of_gt (first d member)
    rw [putEntry]
    split_ifs with less same
    · have apart : ∀ d ∈ c :: rest, key d ≠ key a := by
        intro d member
        rcases List.mem_cons.mp member with rfl | member
        · exact ne_of_gt less
        · exact ne_of_gt (less.trans (first d member))
      constructor
      · intro member
        rcases List.mem_cons.mp member with rfl | member
        · exact .inl rfl
        · exact .inr ⟨member, apart b member⟩
      · rintro (rfl | ⟨member, _⟩)
        · exact List.mem_cons_self
        · exact List.mem_cons_of_mem a member
    · simp only [List.mem_cons, same]
      constructor
      · rintro (rfl | member)
        · exact .inl rfl
        · exact .inr ⟨.inr member, later b member⟩
      · rintro (rfl | ⟨rfl | member, different⟩)
        · exact .inl rfl
        · exact absurd rfl different
        · exact .inr member
    · simp only [List.mem_cons, ih tail]
      constructor
      · rintro (rfl | rfl | ⟨member, different⟩)
        · exact .inr ⟨.inl rfl, Ne.symm same⟩
        · exact .inl rfl
        · exact .inr ⟨.inr member, different⟩
      · rintro (rfl | ⟨rfl | member, different⟩)
        · exact .inr (.inl rfl)
        · exact .inl rfl
        · exact .inr (.inr ⟨member, different⟩)

theorem sorted_putEntry (a : α) {entries : List α}
    (sorted : entries.Pairwise (fun a b => key a < key b)) :
    (putEntry key a entries).Pairwise (fun a b => key a < key b) := by
  induction entries with
  | nil => simp [putEntry]
  | cons c rest ih =>
    obtain ⟨first, tail⟩ := List.pairwise_cons.mp sorted
    rw [putEntry]
    split_ifs with less same
    · apply List.pairwise_cons.mpr
      refine ⟨?_, sorted⟩
      intro d member
      rcases List.mem_cons.mp member with rfl | member
      · exact less
      · exact less.trans (first d member)
    · apply List.pairwise_cons.mpr
      exact ⟨fun d member => same ▸ first d member, tail⟩
    · apply List.pairwise_cons.mpr
      refine ⟨?_, ih tail⟩
      intro d member
      rcases (mem_putEntry tail).mp member with rfl | ⟨member, _⟩
      · exact lt_of_le_of_ne (not_lt.mp less) (Ne.symm same)
      · exact first d member

namespace Table

@[ext] theorem ext_entries {s t : Table key} (same : s.entries = t.entries) : s = t := by
  cases s
  cases t
  cases same
  rfl

def empty : Table key := ⟨[], .nil⟩

def find? (t : Table key) (k : κ) : Option α := t.entries.find? (fun a => key a = k)

def put (t : Table key) (a : α) : Table key := ⟨putEntry key a t.entries, sorted_putEntry a t.sorted⟩

def erase (t : Table key) (k : κ) : Table key :=
  ⟨t.entries.filter (fun a => key a ≠ k), t.sorted.filter _⟩

theorem keys_nodup (t : Table key) : (t.entries.map key).Nodup := by
  rw [List.nodup_iff_pairwise_ne, List.pairwise_map]
  exact t.sorted.imp ne_of_lt

theorem key_injective (t : Table key) {a b : α} (ha : a ∈ t.entries) (hb : b ∈ t.entries)
    (same : key a = key b) : a = b :=
  List.inj_on_of_nodup_map t.keys_nodup ha hb same

theorem find?_eq_some_iff (t : Table key) (k : κ) (a : α) :
    t.find? k = some a ↔ a ∈ t.entries ∧ key a = k := by
  constructor
  · intro found
    exact ⟨List.mem_of_find?_eq_some found, by simpa using List.find?_some found⟩
  · rintro ⟨member, rfl⟩
    cases found : t.find? (key a) with
    | none =>
      have absent := List.find?_eq_none.mp found a member
      simp at absent
    | some b =>
      have same : key b = key a := by simpa using List.find?_some found
      exact congrArg some (t.key_injective (List.mem_of_find?_eq_some found) member same)

theorem find?_eq_none_iff (t : Table key) (k : κ) :
    t.find? k = none ↔ ∀ a ∈ t.entries, key a ≠ k := by
  simp [find?]

/-- Tables that answer every lookup alike are the same on each key. -/
theorem find?_congr {s t : Table key} {k : κ}
    (same : ∀ a, key a = k → (a ∈ s.entries ↔ a ∈ t.entries)) : s.find? k = t.find? k := by
  apply Option.ext
  intro a
  rw [find?_eq_some_iff, find?_eq_some_iff]
  constructor
  · rintro ⟨member, rfl⟩
    exact ⟨(same a rfl).mp member, rfl⟩
  · rintro ⟨member, rfl⟩
    exact ⟨(same a rfl).mpr member, rfl⟩

/-- A table is determined by its entries. -/
theorem ext_of_mem {s t : Table key} (same : ∀ a, a ∈ s.entries ↔ a ∈ t.entries) : s = t := by
  have entries : s.entries = t.entries := by
    have perm : s.entries.Perm t.entries := by
      apply (List.perm_ext_iff_of_nodup _ _).mpr same
      · exact s.keys_nodup.of_map key
      · exact t.keys_nodup.of_map key
    refine perm.eq_of_pairwise ?_ s.sorted t.sorted
    intro a b _ _ less greater
    exact absurd less (lt_asymm greater)
  cases s
  cases t
  cases entries
  rfl

theorem mem_put (t : Table key) (a b : α) :
    b ∈ (t.put a).entries ↔ b = a ∨ (b ∈ t.entries ∧ key b ≠ key a) :=
  mem_putEntry t.sorted

theorem mem_erase (t : Table key) (k : κ) (b : α) :
    b ∈ (t.erase k).entries ↔ b ∈ t.entries ∧ key b ≠ k := by
  simp [erase]

@[simp] theorem find?_put_same (t : Table key) (a : α) : (t.put a).find? (key a) = some a :=
  (find?_eq_some_iff _ _ _).mpr ⟨(mem_put t a a).mpr (.inl rfl), rfl⟩

theorem find?_put_other (t : Table key) {a : α} {k : κ} (other : key a ≠ k) :
    (t.put a).find? k = t.find? k := by
  apply find?_congr
  rintro b rfl
  rw [mem_put]
  constructor
  · rintro (rfl | ⟨member, _⟩)
    · exact absurd rfl other
    · exact member
  · intro member
    exact .inr ⟨member, Ne.symm other⟩

theorem find?_put (t : Table key) (a : α) (k : κ) :
    (t.put a).find? k = if key a = k then some a else t.find? k := by
  split_ifs with same
  · rw [← same, find?_put_same]
  · exact find?_put_other t same

theorem find?_erase (t : Table key) (gone k : κ) :
    (t.erase gone).find? k = if gone = k then none else t.find? k := by
  split_ifs with same
  · subst same
    apply (find?_eq_none_iff _ _).mpr
    intro a member
    exact ((mem_erase t gone a).mp member).2
  · apply find?_congr
    rintro a rfl
    rw [mem_erase]
    exact ⟨And.left, fun member => ⟨member, Ne.symm same⟩⟩

/-- Enters an entry unless its key is there. -/
def insert (t : Table key) (a : α) : Table key :=
  match t.find? (key a) with
  | none => t.put a
  | some _ => t

/-- Entries entered one after the other. -/
def insertAll (entries : List α) : Table key := entries.foldl insert empty

theorem putEntry_last {a : α} {entries : List α} (last : ∀ b ∈ entries, key b < key a) :
    putEntry key a entries = entries ++ [a] := by
  induction entries with
  | nil => rfl
  | cons b rest ih =>
    obtain ⟨less, later⟩ := List.forall_mem_cons.mp last
    rw [putEntry, if_neg (not_lt_of_gt less), if_neg (ne_of_gt less), ih later]
    rfl

theorem insert_last {t : Table key} {a : α} (last : ∀ b ∈ t.entries, key b < key a) :
    (t.insert a).entries = t.entries ++ [a] := by
  have absent : t.find? (key a) = none :=
    (find?_eq_none_iff _ _).mpr fun b member => ne_of_lt (last b member)
  rw [insert, absent]
  exact putEntry_last last

/-- The entries of a table, entered in order, give the table. -/
theorem insertAll_entries (t : Table key) : insertAll t.entries = t := by
  have from_front (front : Table key) (rest : List α)
      (sorted : (front.entries ++ rest).Pairwise fun a b => key a < key b) :
      (rest.foldl insert front).entries = front.entries ++ rest := by
    induction rest generalizing front with
    | nil => simp
    | cons a rest ih =>
      have last : ∀ b ∈ front.entries, key b < key a := fun b member =>
        (List.pairwise_append.mp sorted).2.2 b member a List.mem_cons_self
      have next := insert_last last
      rw [List.foldl_cons, ih (front.insert a) (by rw [next]; simpa using sorted), next]
      simp
  exact ext_entries (from_front empty t.entries t.sorted)

theorem mem_insert {t : Table key} {a : α} (absent : ∀ b ∈ t.entries, key b ≠ key a) (b : α) :
    b ∈ (t.insert a).entries ↔ b = a ∨ b ∈ t.entries := by
  rw [insert, (find?_eq_none_iff _ _).mpr absent, mem_put]
  constructor
  · rintro (rfl | ⟨old, _⟩)
    · exact .inl rfl
    · exact .inr old
  · rintro (rfl | old)
    · exact .inl rfl
    · exact .inr ⟨old, absent b old⟩

theorem mem_of_mem_insertAll {entries : List α} {b : α}
    (member : b ∈ (insertAll entries : Table key).entries) : b ∈ entries := by
  have from_front (front : Table key) (rest : List α) (member : b ∈ (rest.foldl insert front).entries) :
      b ∈ front.entries ∨ b ∈ rest := by
    induction rest generalizing front with
    | nil => exact .inl member
    | cons a rest ih =>
      rcases ih (front.insert a) member with inside | later
      · rw [insert] at inside
        split at inside
        · rcases (mem_put _ _ _).mp inside with rfl | ⟨old, _⟩
          · exact .inr List.mem_cons_self
          · exact .inl old
        · exact .inl inside
      · exact .inr (List.mem_cons_of_mem a later)
  simpa [empty] using from_front empty entries member

/-- Entries with different keys are all entered. -/
theorem mem_insertAll {entries : List α} (nodup : (entries.map key).Nodup) (b : α) :
    b ∈ (insertAll entries : Table key).entries ↔ b ∈ entries := by
  have from_front (front : Table key) (rest : List α) (nodup : (rest.map key).Nodup)
      (apart : ∀ a ∈ rest, ∀ b ∈ front.entries, key b ≠ key a) :
      b ∈ (rest.foldl insert front).entries ↔ b ∈ front.entries ∨ b ∈ rest := by
    induction rest generalizing front with
    | nil => simp
    | cons a rest ih =>
      obtain ⟨fresh, nodup⟩ := List.nodup_cons.mp nodup
      have new := mem_insert (apart a List.mem_cons_self)
      rw [List.foldl_cons, ih (front.insert a) nodup, new]
      · simp [or_assoc, or_left_comm]
      · intro c later d inside same
        rcases (new d).mp inside with rfl | old
        · exact fresh (same ▸ List.mem_map_of_mem later)
        · exact apart c (List.mem_cons_of_mem a later) d old same
  have all := from_front empty entries nodup (by simp [empty])
  simpa [insertAll, empty] using all

/-- Entries that keep their keys under a function. -/
def map {key' : β → κ} (f : α → β) (same : ∀ a, key' (f a) = key a) (t : Table key) : Table key' :=
  ⟨t.entries.map f, List.pairwise_map.mpr (t.sorted.imp fun {a b} less => by rwa [same a, same b])⟩

end Table

end Library
