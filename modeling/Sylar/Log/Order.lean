import Mathlib.Data.List.Chain
import Sylar.Log.Scanner

/-! Where in the pattern the items of a formatter come from. The outer loop of `init` is
run once more with the position of every pending character and of every entry of `vec`;
what it leaves out are the positions only. -/
namespace Sylar

open Library

/-- An entry of `vec` and the positions that it was produced from: those of its
characters, or that of its `%`. -/
abbrev TokenAt := Token × List Nat

/-- The locals of the outer loop with their positions. -/
structure ParseAt where
  i : Nat
  nstr : List (Char × Nat)
  vec : List TokenAt
  error : Bool

/-- The locals without the positions. -/
def ParseAt.erase (s : ParseAt) : Parse := ⟨s.i, s.nstr.map Prod.fst, s.vec.map Prod.fst, s.error⟩

def flushAt (nstr : List (Char × Nat)) : List TokenAt :=
  if nstr.isEmpty then [] else [(⟨nstr.map Prod.fst, [], 0⟩, nstr.map Prod.snd)]

def parseAt (pattern : Text) : Nat → ParseAt → ParseAt
  | 0, s => s
  | fuel + 1, s =>
    match pattern[s.i]? with
    | none => s
    | some c =>
      if c ≠ '%' then parseAt pattern fuel { s with nstr := s.nstr ++ [(c, s.i)], i := s.i + 1 }
      else if pattern[s.i + 1]? = some '%' then
        parseAt pattern fuel { s with nstr := s.nstr ++ [('%', s.i)], i := s.i + 1 }
      else
        let r := scan pattern s.i pattern.length ⟨s.i + 1, 0, 0, [], []⟩
        if r.fmtStatus = 0 then
          parseAt pattern fuel { s with
            nstr := [], vec := s.vec ++ flushAt s.nstr ++ [(⟨r.str, r.fmt, 1⟩, [s.i])], i := r.n - 1 + 1 }
        else
          parseAt pattern fuel { s with
            vec := s.vec ++ [(⟨"<<pattern_error>>".toList, r.fmt, 0⟩, [s.i])], error := true, i := s.i + 1 }

/-- The entries of `vec` after the final flush, with their positions. -/
def tokensAt (pattern : Text) : List TokenAt :=
  let s := parseAt pattern pattern.length ⟨0, [], [], false⟩
  s.vec ++ flushAt s.nstr

theorem flushAt_erase (nstr : List (Char × Nat)) :
    (flushAt nstr).map Prod.fst = flush (nstr.map Prod.fst) := by
  cases nstr with
  | nil => rfl
  | cons c rest => simp [flushAt, flush]

/-- Without the positions it is the loop of `init`. -/
theorem parseAt_erase (pattern : Text) (fuel : Nat) (s : ParseAt) :
    (parseAt pattern fuel s).erase = parse pattern fuel s.erase := by
  induction fuel generalizing s with
  | zero => rfl
  | succ fuel ih =>
    unfold parseAt parse
    have index : s.erase.i = s.i := rfl
    rw [index]
    cases pattern[s.i]? with
    | none => rfl
    | some c =>
      simp only
      split_ifs with literal escape closed
      · rw [ih]
        simp [ParseAt.erase]
      · rw [ih]
        simp [ParseAt.erase]
      · rw [ih]
        simp [ParseAt.erase, flushAt_erase]
      · rw [ih]
        simp [ParseAt.erase]

theorem tokensAt_erase (pattern : Text) : (tokensAt pattern).map Prod.fst = (parseTokens pattern).1 := by
  have same := parseAt_erase pattern pattern.length ⟨0, [], [], false⟩
  have start : ParseAt.erase ⟨0, [], [], false⟩ = ⟨0, [], [], false⟩ := rfl
  rw [start] at same
  simp only [tokensAt, parseTokens, List.map_append, flushAt_erase, ← same, ParseAt.erase]

/-- What stands at a position of the pattern: a character, a doubled `%`, a directive, or
a `%` whose format is not closed. -/
inductive Piece where
  | literal (c : Char)
  | escape
  | directive (name fmt : Text)
  | unclosed
  deriving DecidableEq, Repr

/-- Literal text, which waits in `nstr`. -/
def Piece.isText : Piece → Bool
  | .literal _ | .escape => true
  | _ => false

/-- The pieces of the unread text of a pattern of some length, with their positions. -/
def pieces (total : Nat) (text : Text) : List (Piece × Nat) :=
  match text with
  | [] => []
  | c :: rest =>
    let here := total - (rest.length + 1)
    if c ≠ '%' then (.literal c, here) :: pieces total rest
    else if rest.head? = some '%' then (.escape, here) :: pieces total rest
    else match _reads : directive rest with
      | some (name, fmt, tail) => (.directive name fmt, here) :: pieces total tail
      | none => (.unclosed, here) :: pieces total rest
termination_by text.length
decreasing_by
  · exact Nat.lt_succ_self rest.length
  · exact Nat.lt_succ_self rest.length
  · exact Nat.lt_succ_of_le (directive_length rest _ _ _ _reads)
  · exact Nat.lt_succ_self rest.length

/-- What the loop makes of the pieces. -/
def assemble (nstr : List (Char × Nat)) : List (Piece × Nat) → List TokenAt
  | [] => flushAt nstr
  | (.literal c, here) :: rest => assemble (nstr ++ [(c, here)]) rest
  | (.escape, here) :: rest => assemble (nstr ++ [('%', here)]) rest
  | (.directive name fmt, here) :: rest => flushAt nstr ++ (⟨name, fmt, 1⟩, [here]) :: assemble [] rest
  | (.unclosed, here) :: rest => (errorToken, [here]) :: assemble nstr rest

section Pieces

variable (total : Nat) (rest : Text)

@[simp] theorem pieces_nil : pieces total [] = [] := by
  rw [pieces]

theorem pieces_literal {c : Char} (literal : c ≠ '%') :
    pieces total (c :: rest) = (.literal c, total - (rest.length + 1)) :: pieces total rest := by
  rw [pieces, if_pos literal]

theorem pieces_escape :
    pieces total ('%' :: '%' :: rest) =
      (.escape, total - (rest.length + 2)) :: pieces total ('%' :: rest) := by
  rw [pieces]
  simp

theorem pieces_directive {name fmt tail : Text} (single : rest.head? ≠ some '%')
    (reads : directive rest = some (name, fmt, tail)) :
    pieces total ('%' :: rest) = (.directive name fmt, total - (rest.length + 1)) :: pieces total tail := by
  rw [pieces, if_neg (by simp), if_neg single]
  split
  · rename_i same
    cases reads.symm.trans same
    rfl
  · rename_i none
    cases reads.symm.trans none

theorem pieces_unclosed (single : rest.head? ≠ some '%') (reads : directive rest = none) :
    pieces total ('%' :: rest) = (.unclosed, total - (rest.length + 1)) :: pieces total rest := by
  rw [pieces, if_neg (by simp), if_neg single]
  split
  · rename_i same
    cases reads.symm.trans same
  · rfl

end Pieces

/-- The outer loop from any position puts together the pieces of the unread text. -/
theorem parseAt_assemble (pattern : Text) (fuel : Nat) (s : ParseAt) (text : Text)
    (suffix : pattern.drop s.i = text) (inside : s.i ≤ pattern.length) (enough : text.length ≤ fuel) :
    (parseAt pattern fuel s).vec ++ flushAt (parseAt pattern fuel s).nstr =
      s.vec ++ assemble s.nstr (pieces pattern.length text) := by
  induction fuel generalizing s text with
  | zero =>
    have empty : text = [] := List.eq_nil_of_length_eq_zero (by omega)
    simp [parseAt, empty, assemble]
  | succ fuel ih =>
    cases text with
    | nil => simp [parseAt, getElem?_of_drop_nil suffix, assemble]
    | cons c rest =>
      have here := getElem?_of_drop suffix
      have next := drop_succ_of_drop suffix
      have length := length_of_drop suffix inside
      rw [List.length_cons] at enough length
      have position : pattern.length - (rest.length + 1) = s.i := by omega
      rw [parseAt, here]
      by_cases literal : c ≠ '%'
      · rw [pieces_literal _ _ literal, position]
        simp only [if_pos literal]
        exact ih { s with nstr := s.nstr ++ [(c, s.i)], i := s.i + 1 } rest next (by simp only; omega) (by omega)
      · obtain rfl : c = '%' := not_not.mp literal
        have head : pattern[s.i + 1]? = rest.head? := by rw [← List.head?_drop, next]
        simp only [ne_eq, not_true_eq_false, if_false, head]
        by_cases single : rest.head? ≠ some '%'
        · rw [if_neg single]
          have read := scan_directive pattern rest s.i (by omega) next
          cases reads : directive rest with
          | none =>
            rw [reads] at read
            obtain ⟨status, format⟩ := read
            rw [if_neg (by rw [status]; exact Nat.one_ne_zero), format, pieces_unclosed _ _ single reads, position]
            have later := ih { s with
              vec := s.vec ++ [(⟨"<<pattern_error>>".toList, [], 0⟩, [s.i])], error := true, i := s.i + 1 }
              rest next (by simp only; omega) (by omega)
            simp only [List.append_assoc, List.singleton_append] at later
            exact later
          | some result =>
            obtain ⟨name, fmt, tail⟩ := result
            rw [reads] at read
            obtain ⟨status, str, format, after, positive, bound⟩ := read
            have shorter := directive_length rest name fmt tail reads
            rw [if_pos status, str, format, Nat.sub_add_cancel positive,
              pieces_directive _ _ single reads, position]
            have later := ih { s with
              nstr := [], vec := s.vec ++ flushAt s.nstr ++ [(⟨name, fmt, 1⟩, [s.i])],
              i := (scan pattern s.i pattern.length ⟨s.i + 1, 0, 0, [], []⟩).n } tail after bound (by omega)
            simp only [List.append_assoc, List.singleton_append] at later ⊢
            exact later
        · obtain ⟨after, rfl⟩ := List.head?_eq_some_iff.mp (not_not.mp single)
          rw [List.length_cons] at position
          rw [if_pos List.head?_cons, pieces_escape, position]
          exact ih { s with nstr := s.nstr ++ [('%', s.i)], i := s.i + 1 } _ next (by simp only; omega) (by omega)

theorem tokensAt_assemble (pattern : Text) :
    tokensAt pattern = assemble [] (pieces pattern.length pattern) := by
  have whole := parseAt_assemble pattern pattern.length ⟨0, [], [], false⟩ pattern rfl (Nat.zero_le _)
    (Nat.le_refl _)
  rwa [List.nil_append] at whole

/-- Pieces with increasing positions from a bound on. -/
def Increasing (bound : Nat) (ps : List (Piece × Nat)) : Prop :=
  ps.Pairwise (fun a b => a.2 < b.2) ∧ ∀ piece ∈ ps, bound ≤ piece.2

theorem Increasing.cons {ps : List (Piece × Nat)} {bound here : Nat} (increasing : Increasing bound ps)
    (below : here < bound) (piece : Piece) : Increasing here ((piece, here) :: ps) := by
  constructor
  · apply List.pairwise_cons.mpr
    refine ⟨?_, increasing.1⟩
    intro later member
    exact Nat.lt_of_lt_of_le below (increasing.2 later member)
  · intro later member
    rcases List.mem_cons.mp member with rfl | member
    · exact Nat.le_refl here
    · exact Nat.le_trans (Nat.le_of_lt below) (increasing.2 later member)

/-- Every piece stands behind the ones before it. -/
theorem pieces_increasing (total : Nat) (text : Text) (fits : text.length ≤ total) :
    Increasing (total - text.length) (pieces total text) := by
  fun_induction pieces total text with
  | case1 => exact ⟨.nil, by simp⟩
  | case2 c rest here literal ih | case3 c rest here literal escape ih | case5 c rest here literal single read ih =>
    rw [List.length_cons] at fits ⊢
    exact (ih (by omega)).cons (by omega) _
  | case4 c rest here literal single name fmt tail read ih =>
    have shorter := directive_length rest name fmt tail read
    rw [List.length_cons] at fits ⊢
    exact (ih (by omega)).cons (by omega) _

/-- The entries stand in the order of the positions that they come from. -/
def InOrder (tokens : List TokenAt) : Prop :=
  tokens.Pairwise fun a b => ∀ x ∈ a.2, ∀ y ∈ b.2, x < y

instance (tokens : List TokenAt) : Decidable (InOrder tokens) := inferInstanceAs (Decidable (tokens.Pairwise _))

theorem Increasing.tail {ps : List (Piece × Nat)} {bound here : Nat} {piece : Piece}
    (increasing : Increasing bound ((piece, here) :: ps)) : bound ≤ here ∧ Increasing (here + 1) ps := by
  obtain ⟨first, rest⟩ := List.pairwise_cons.mp increasing.1
  exact ⟨increasing.2 _ List.mem_cons_self, rest, first⟩

theorem flushAt_nonempty {nstr : List (Char × Nat)} (waits : nstr ≠ []) :
    flushAt nstr = [(⟨nstr.map Prod.fst, [], 0⟩, nstr.map Prod.snd)] := by
  simp [flushAt, waits]

theorem mem_flushAt {nstr : List (Char × Nat)} {token : TokenAt} (member : token ∈ flushAt nstr) :
    token.2 = nstr.map Prod.snd := by
  unfold flushAt at member
  split at member
  · cases member
  · rw [List.mem_singleton.mp member]

/-- The entries are made of the waiting text and of the pieces. -/
theorem assemble_positions {nstr : List (Char × Nat)} {ps : List (Piece × Nat)} {token : TokenAt} {x : Nat}
    (member : token ∈ assemble nstr ps) (inside : x ∈ token.2) :
    x ∈ nstr.map Prod.snd ∨ x ∈ ps.map Prod.snd := by
  induction ps generalizing nstr with
  | nil =>
    rw [mem_flushAt member] at inside
    exact .inl inside
  | cons first rest ih =>
    obtain ⟨piece, here⟩ := first
    -- a character that joins the waiting text comes from this piece
    have joined {c : Char} (at_ : x ∈ (nstr ++ [(c, here)]).map Prod.snd ∨ x ∈ rest.map Prod.snd) :
        x ∈ nstr.map Prod.snd ∨ x ∈ here :: rest.map Prod.snd := by
      rw [List.map_append, List.mem_append] at at_
      rcases at_ with (old | new) | later
      · exact .inl old
      · exact .inr (List.mem_cons.mpr (.inl (List.mem_singleton.mp new)))
      · exact .inr (List.mem_cons_of_mem here later)
    cases piece with
    | literal c => exact joined (ih member)
    | escape => exact joined (ih member)
    | directive name fmt =>
      rcases List.mem_append.mp member with flushed | later
      · rw [mem_flushAt flushed] at inside
        exact .inl inside
      · rcases List.mem_cons.mp later with rfl | later
        · exact .inr (List.mem_cons.mpr (.inl (List.mem_singleton.mp inside)))
        · rcases ih later with none | at_
          · cases none
          · exact .inr (List.mem_cons_of_mem here at_)
    | unclosed =>
      rcases List.mem_cons.mp member with rfl | later
      · exact .inr (List.mem_cons.mpr (.inl (List.mem_singleton.mp inside)))
      · rcases ih later with old | at_
        · exact .inl old
        · exact .inr (List.mem_cons_of_mem here at_)

/-- Waiting text ends up in an entry. -/
theorem assemble_pending {nstr : List (Char × Nat)} (ps : List (Piece × Nat)) {c : Char × Nat}
    (waits : c ∈ nstr) : ∃ token ∈ assemble nstr ps, c.2 ∈ token.2 := by
  have flushed : ∃ token ∈ flushAt nstr, c.2 ∈ token.2 := by
    rw [flushAt_nonempty (List.ne_nil_of_mem waits)]
    exact ⟨_, List.mem_cons_self, List.mem_map_of_mem waits⟩
  induction ps generalizing nstr with
  | nil => exact flushed
  | cons first rest ih =>
    obtain ⟨piece, here⟩ := first
    have joined (d : Char × Nat) : ∃ token ∈ assemble (nstr ++ [d]) rest, c.2 ∈ token.2 := by
      have waits' : c ∈ nstr ++ [d] := List.mem_append_left _ waits
      apply ih waits'
      rw [flushAt_nonempty (List.ne_nil_of_mem waits')]
      exact ⟨_, List.mem_cons_self, List.mem_map_of_mem waits'⟩
    cases piece with
    | literal d => exact joined (d, here)
    | escape => exact joined ('%', here)
    | directive name fmt =>
      obtain ⟨token, member, inside⟩ := flushed
      exact ⟨token, List.mem_append_left _ member, inside⟩
    | unclosed =>
      obtain ⟨token, member, inside⟩ := ih waits flushed
      exact ⟨token, List.mem_cons_of_mem _ member, inside⟩

/-- No `%` whose format is not closed stands directly behind literal text. -/
def Apart (ps : List (Piece × Nat)) : Prop :=
  ps.IsChain fun a b => a.1.isText = true → b.1 ≠ .unclosed

theorem apart_cons (first : Piece × Nat) (rest : List (Piece × Nat)) :
    Apart (first :: rest) ↔
      (first.1.isText = true → ∀ second ∈ rest.head?, second.1 ≠ .unclosed) ∧ Apart rest := by
  rw [Apart, List.isChain_cons]
  constructor
  · rintro ⟨next, rest⟩
    exact ⟨fun text second member => next second member text, rest⟩
  · rintro ⟨next, rest⟩
    exact ⟨fun second member text => next text second member, rest⟩

theorem apart_text {first : Piece × Nat} (text : first.1.isText = true) (rest : List (Piece × Nat)) :
    Apart (first :: rest) ↔ (∀ second ∈ rest.head?, second.1 ≠ .unclosed) ∧ Apart rest := by
  rw [apart_cons]
  exact and_congr_left fun _ => forall_prop_of_true text

theorem apart_other {first : Piece × Nat} (other : first.1.isText = false) (rest : List (Piece × Nat)) :
    Apart (first :: rest) ↔ Apart rest := by
  rw [apart_cons]
  constructor
  · exact And.right
  · intro apart
    refine ⟨?_, apart⟩
    intro text
    cases other.symm.trans text

/-- Waiting text goes in front of what comes from behind it. -/
theorem inOrder_flushAt {nstr : List (Char × Nat)} {tokens : List TokenAt}
    (before : ∀ c ∈ nstr, ∀ token ∈ tokens, ∀ y ∈ token.2, c.2 < y) :
    InOrder (flushAt nstr ++ tokens) ↔ InOrder tokens := by
  rw [InOrder, List.pairwise_append]
  constructor
  · rintro ⟨_, ordered, _⟩
    exact ordered
  · intro ordered
    refine ⟨?_, ordered, ?_⟩
    · unfold flushAt
      split
      · exact .nil
      · exact List.pairwise_singleton _ _
    · intro token flushed other member x inside y at_
      rw [mem_flushAt flushed] at inside
      obtain ⟨c, waits, rfl⟩ := List.mem_map.mp inside
      exact before c waits other member y at_

/-- With nothing waiting, all that follows an entry comes from behind it. -/
theorem assemble_behind {here : Nat} {rest : List (Piece × Nat)} (increasing : Increasing (here + 1) rest)
    {token : TokenAt} (member : token ∈ assemble [] rest) : ∀ y ∈ token.2, here < y := by
  intro y inside
  rcases assemble_positions member inside with none | at_
  · cases none
  · obtain ⟨piece, member, rfl⟩ := List.mem_map.mp at_
    exact increasing.2 piece member

theorem inOrder_entry {here : Nat} {rest : List (Piece × Nat)} (increasing : Increasing (here + 1) rest)
    (token : Token) : InOrder ((token, [here]) :: assemble [] rest) ↔ InOrder (assemble [] rest) := by
  rw [InOrder, List.pairwise_cons]
  constructor
  · exact And.right
  · intro ordered
    refine ⟨?_, ordered⟩
    intro other member x inside y at_
    rw [List.mem_singleton.mp inside]
    exact assemble_behind increasing member y at_

/-- The entries are in order just when no waiting text is overtaken. -/
theorem assemble_inOrder_iff {nstr : List (Char × Nat)} {ps : List (Piece × Nat)} {bound : Nat}
    (increasing : Increasing bound ps) (before : ∀ c ∈ nstr, c.2 < bound) :
    InOrder (assemble nstr ps) ↔
      (nstr ≠ [] → ∀ first ∈ ps.head?, first.1 ≠ .unclosed) ∧ Apart ps := by
  induction ps generalizing nstr bound with
  | nil =>
    have single : InOrder (flushAt nstr) := by
      have flushed : InOrder (flushAt nstr ++ []) ↔ InOrder [] := inOrder_flushAt (by simp)
      rw [List.append_nil] at flushed
      exact flushed.mpr .nil
    simpa [assemble, Apart] using single
  | cons first rest ih =>
    obtain ⟨piece, here⟩ := first
    obtain ⟨below, behind⟩ := increasing.tail
    have earlier : ∀ c ∈ nstr, c.2 < here := fun c member => Nat.lt_of_lt_of_le (before c member) below
    have closed (apart : piece ≠ .unclosed) :
        nstr ≠ [] → ∀ first ∈ ((piece, here) :: rest).head?, first.1 ≠ .unclosed := by
      intro _ first member
      cases member
      exact apart
    -- text joins what waits
    have joins (c : Char) : InOrder (assemble (nstr ++ [(c, here)]) rest) ↔
        (∀ second ∈ rest.head?, second.1 ≠ .unclosed) ∧ Apart rest := by
      rw [ih behind]
      · simp
      · intro d member
        rcases List.mem_append.mp member with old | new
        · have old := earlier d old
          omega
        · rw [List.mem_singleton.mp new]
          omega
    -- after an entry nothing waits
    have nothing : InOrder (assemble [] rest) ↔ Apart rest := by
      have none : ∀ c ∈ ([] : List (Char × Nat)), c.2 < here + 1 := by simp
      rw [ih behind none]
      exact ⟨And.right, fun apart => ⟨fun some => absurd rfl some, apart⟩⟩
    cases piece with
    | literal c =>
      have text : (Piece.literal c).isText = true := rfl
      rw [assemble, joins c, apart_text text]
      exact ⟨fun ordered => ⟨closed nofun, ordered⟩, And.right⟩
    | escape =>
      have text : Piece.escape.isText = true := rfl
      rw [assemble, joins '%', apart_text text]
      exact ⟨fun ordered => ⟨closed nofun, ordered⟩, And.right⟩
    | directive name fmt =>
      have other : (Piece.directive name fmt).isText = false := rfl
      rw [assemble, inOrder_flushAt, inOrder_entry behind, nothing, apart_other other]
      · exact ⟨fun apart => ⟨closed nofun, apart⟩, And.right⟩
      · intro c waits token member y at_
        have left := earlier c waits
        rcases List.mem_cons.mp member with rfl | member
        · rw [List.mem_singleton.mp at_]
          exact left
        · have right := assemble_behind behind member y at_
          omega
    | unclosed =>
      have other : Piece.unclosed.isText = false := rfl
      rw [apart_other other]
      by_cases waits : nstr = []
      · subst waits
        rw [assemble, inOrder_entry behind, nothing]
        exact ⟨fun apart => ⟨fun some => absurd rfl some, apart⟩, And.right⟩
      · constructor
        · intro ordered
          obtain ⟨c, tail, rfl⟩ := List.exists_cons_of_ne_nil waits
          obtain ⟨token, member, inside⟩ := assemble_pending rest (List.mem_cons_self : c ∈ c :: tail)
          have overtaken := (List.pairwise_cons.mp ordered).1 token member here List.mem_cons_self c.2 inside
          have before := earlier c List.mem_cons_self
          omega
        · rintro ⟨free, _⟩
          exact absurd rfl (free waits _ rfl)

/-- `init` makes one item of each entry, in order, and the items stand in the order of
their places in the pattern exactly if no `%` whose format is not closed stands directly
behind literal text. -/
theorem items_inOrder_iff (pattern : Text) :
    (init pattern).1 = (tokensAt pattern).map (fun token => token.1.build.1) ∧
      (InOrder (tokensAt pattern) ↔ Apart (pieces pattern.length pattern)) := by
  constructor
  · rw [init, ← tokensAt_erase]
    simp
  · have increasing := pieces_increasing pattern.length pattern (Nat.le_refl _)
    have none : ∀ c ∈ ([] : List (Char × Nat)), c.2 < pattern.length - pattern.length := by simp
    rw [tokensAt_assemble, assemble_inOrder_iff increasing none]
    simp

/-- The literal text of the pattern `x%d{abc` comes behind the marker. -/
theorem items_overtaken :
    ¬ InOrder (tokensAt ['x', '%', 'd', '{', 'a', 'b', 'c']) ∧
      (init ['x', '%', 'd', '{', 'a', 'b', 'c']).1 =
        [.string "<<pattern_error>>".toList, .string "xd\x7babc".toList] := by
  decide

end Sylar
