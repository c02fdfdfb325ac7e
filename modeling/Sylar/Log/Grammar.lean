import Sylar.Log.Scanner

/-! The directive grammar of log patterns and its agreement with the parser. A
pattern reads as segments: maximal literal runs, bare directives and directives
with a format. The grammar has no escape, so agreement is for patterns without
two adjacent `%`. -/
namespace Sylar

open Library

/-- The letters that name a directive. -/
def directiveNames : List Char := ['m', 'p', 'r', 'c', 't', 'n', 'd', 'f', 'l', 'T', 'F', 'N']

inductive Segment where
  | text (run : Text)
  | directive (name : Char) (fmt : Text)
  deriving DecidableEq, Repr

/-- The item of each segment, by the meaning of its letter. -/
def Segment.item : Segment → FormatItem
  | .text run => .string run
  | .directive name fmt =>
    match name with
    | 'm' => .message
    | 'p' => .level
    | 'r' => .elapse
    | 'c' => .name
    | 't' => .threadId
    | 'n' => .newLine
    | 'd' => dateTimeFormatItem fmt
    | 'f' => .filename
    | 'l' => .line
    | 'T' => .tab
    | 'F' => .fiberId
    | _ => .threadName

/-- The entry of `vec` for a segment; a directive carries its format. -/
def Segment.token : Segment → Token
  | .text run => ⟨run, [], 0⟩
  | .directive name fmt => ⟨[name], fmt, 1⟩

/-- `Reads pattern segments`: the pattern is the concatenation of the segments.
A bare directive ends at a character that cannot continue its name. -/
inductive Reads : Text → List Segment → Prop where
  | done : Reads [] []
  | text (run : Text) : run ≠ [] → '%' ∉ run → (∀ c ∈ rest.head?, c = '%') → Reads rest segments →
      Reads (run ++ rest) (.text run :: segments)
  | bare : name ∈ directiveNames →
      (∀ c ∈ rest.head?, c.isAlpha = false ∧ c ≠ '{' ∧ c ≠ '}') → Reads rest segments →
      Reads ('%' :: name :: rest) (.directive name [] :: segments)
  | braced (fmt : Text) : name ∈ directiveNames → '}' ∉ fmt → Reads rest segments →
      Reads ('%' :: name :: '{' :: (fmt ++ '}' :: rest)) (.directive name fmt :: segments)

theorem directiveNames_nameChar {name : Char} (known : name ∈ directiveNames) :
    nameChar name = true ∧ name ≠ '%' := by
  have all : ∀ c ∈ directiveNames, nameChar c = true ∧ c ≠ '%' := by decide
  exact all name known

theorem flush_nonempty {nstr : Text} (nonempty : nstr ≠ []) : flush nstr = [⟨nstr, [], 0⟩] := by
  simp [flush, nonempty]

theorem walk_run (nstr run rest : Text) (free : '%' ∉ run) :
    walk nstr (run ++ rest) = walk (nstr ++ run) rest := by
  induction run generalizing nstr with
  | nil => simp
  | cons c run ih =>
    have literal : c ≠ '%' := fun same => free (by simp [same])
    have tail : '%' ∉ run := fun member => free (by simp [member])
    rw [List.cons_append, walk_literal nstr _ c literal, ih _ tail, List.append_assoc]
    rfl

/-- A known letter with a closed or absent format is one token. -/
theorem walk_known_bare (nstr rest : Text) {name : Char} (known : name ∈ directiveNames)
    (stop : ∀ c ∈ rest.head?, c.isAlpha = false ∧ c ≠ '{' ∧ c ≠ '}') :
    walk nstr ('%' :: name :: rest) =
      (flush nstr ++ ⟨[name], [], 1⟩ :: (walk [] rest).1, (walk [] rest).2) := by
  obtain ⟨letter, single⟩ := directiveNames_nameChar known
  apply walk_directive nstr (name :: rest) [name] [] rest
  · simpa using single
  · apply directive_bare [name] rest (by simpa using letter)
    intro c member
    obtain ⟨notAlpha, notOpening, notClosing⟩ := stop c member
    exact ⟨by simp [nameChar, notAlpha, notClosing], notOpening⟩

theorem walk_known_braced (nstr fmt rest : Text) {name : Char} (known : name ∈ directiveNames)
    (free : '}' ∉ fmt) :
    walk nstr ('%' :: name :: '{' :: (fmt ++ '}' :: rest)) =
      (flush nstr ++ ⟨[name], fmt, 1⟩ :: (walk [] rest).1, (walk [] rest).2) := by
  obtain ⟨letter, single⟩ := directiveNames_nameChar known
  apply walk_directive nstr _ [name] fmt rest
  · simpa using single
  · exact directive_braced [name] fmt rest (by simpa using letter) free

/-- Reading a pattern fixes what the parser does with it, after pending text too
unless that text would extend the first run. -/
theorem Reads.walk {text : Text} {segments : List Segment} (reads : Reads text segments) :
    ∀ nstr : Text, (nstr = [] ∨ ∀ c ∈ text.head?, c = '%') →
      walk nstr text = (flush nstr ++ segments.map Segment.token, false) := by
  induction reads with
  | done => simp
  | text run nonempty free ends _ ih =>
    intro nstr apart
    have fresh : nstr = [] := by
      rcases apart with fresh | percent
      · exact fresh
      · obtain ⟨c, tail, rfl⟩ := List.exists_cons_of_ne_nil nonempty
        exact absurd (by simp [percent c (by simp)]) free
    rw [fresh, walk_run [] run _ free, List.nil_append, ih run (.inr ends),
      flush_nonempty nonempty]
    rfl
  | bare known stop _ ih =>
    intro nstr _
    rw [walk_known_bare nstr _ known stop, ih [] (.inl rfl)]
    rfl
  | braced fmt known free _ ih =>
    intro nstr _
    rw [walk_known_braced nstr fmt _ known free, ih [] (.inl rfl)]
    rfl

/-- The item table agrees with the meaning of the letters. -/
theorem Segment.build_directive {name : Char} (known : name ∈ directiveNames) (fmt : Text) :
    Token.build ⟨[name], fmt, 1⟩ = ((Segment.directive name fmt).item, false) := by
  simp only [directiveNames, List.mem_cons, List.not_mem_nil, or_false] at known
  rcases known with rfl | rfl | rfl | rfl | rfl | rfl | rfl | rfl | rfl | rfl | rfl | rfl <;> rfl

theorem Segment.build_token {segment : Segment}
    (known : ∀ name fmt, segment = .directive name fmt → name ∈ directiveNames) :
    segment.token.build = (segment.item, false) := by
  cases segment with
  | text run => rfl
  | directive name fmt => exact build_directive (known name fmt rfl) fmt

/-- Every directive of a reading has a known letter. -/
theorem Reads.known {text : Text} {segments : List Segment} (reads : Reads text segments) :
    ∀ segment ∈ segments, ∀ name fmt, segment = .directive name fmt → name ∈ directiveNames := by
  induction reads with
  | done => simp
  | text _ _ _ _ _ ih =>
    intro segment member name fmt equal
    rcases List.mem_cons.mp member with rfl | member
    · cases equal
    · exact ih segment member name fmt equal
  | bare known _ _ ih | braced _ known _ _ ih =>
    intro segment member name fmt equal
    rcases List.mem_cons.mp member with rfl | member
    · cases equal
      exact known
    · exact ih segment member name fmt equal

theorem Reads.build {text : Text} {segments : List Segment} (reads : Reads text segments) :
    (segments.map Segment.token).map Token.build = segments.map (fun s => (s.item, false)) := by
  rw [List.map_map]
  apply List.map_congr_left
  intro segment member
  exact Segment.build_token (reads.known segment member)

/-- A pattern that reads is accepted and yields the items of its segments. -/
theorem Reads.accepted {pattern : Text} {segments : List Segment} (reads : Reads pattern segments) :
    parseTokens pattern = (segments.map Segment.token, false) ∧
      init pattern = (segments.map Segment.item, false) := by
  have tokens : parseTokens pattern = (segments.map Segment.token, false) := by
    rw [parseTokens_walk, reads.walk [] (.inl rfl)]
    rfl
  refine ⟨tokens, ?_⟩
  simp only [init, tokens, reads.build, List.map_map, List.any_map, Bool.false_or, Prod.mk.injEq]
  constructor
  · rfl
  · simp

/-- A token whose name is in the item table stands for a known letter. -/
theorem known_of_build {name fmt : Text} (known : (Token.build ⟨name, fmt, 1⟩).2 = false) :
    ∃ letter ∈ directiveNames, name = [letter] := by
  by_contra unknown
  have different : ∀ letter ∈ directiveNames, (name == [letter]) = false := by
    intro letter member
    simpa using fun same : name = [letter] => unknown ⟨letter, member, same⟩
  simp only [directiveNames, List.forall_mem_cons] at different
  simp [Token.build, formatItems, List.lookup_cons, different] at known

/-- Pending text becomes a segment of its own in front of a directive or the end. -/
theorem Reads.pending {nstr rest : Text} {segments : List Segment} (free : '%' ∉ nstr)
    (ends : ∀ c ∈ rest.head?, c = '%') (reads : Reads rest segments) :
    ∃ segments, Reads (nstr ++ rest) segments := by
  by_cases empty : nstr = []
  · subst empty
    exact ⟨segments, reads⟩
  · exact ⟨_, .text nstr empty free ends reads⟩

/-- A directive whose name is known reads as a segment. -/
theorem reads_directive {text name fmt rest : Text} (known : (Token.build ⟨name, fmt, 1⟩).2 = false)
    (read : directive text = some (name, fmt, rest)) {segments : List Segment}
    (reads : Reads rest segments) : ∃ segments, Reads ('%' :: text) segments := by
  obtain ⟨letter, member, rfl⟩ := known_of_build known
  rcases directive_cases text with
    ⟨n, r, rfl, _, stop, eq⟩ | ⟨n, f, r, rfl, _, free, eq⟩ | ⟨n, b, rfl, _, _, eq⟩
  · cases eq.symm.trans read
    refine ⟨_, .bare member ?_ reads⟩
    intro c head
    obtain ⟨notName, notOpening⟩ := stop c head
    have kind : c.isAlpha = false ∧ c ≠ '}' := by simpa [nameChar] using notName
    exact ⟨kind.1, notOpening, kind.2⟩
  · cases eq.symm.trans read
    exact ⟨_, .braced fmt member free reads⟩
  · cases eq.symm.trans read

theorem infix_directive {text name fmt rest : Text} (read : directive text = some (name, fmt, rest)) :
    rest <:+: text := by
  rcases directive_cases text with
    ⟨n, r, rfl, _, _, eq⟩ | ⟨n, f, r, rfl, _, _, eq⟩ | ⟨n, b, rfl, _, _, eq⟩
  · cases eq.symm.trans read
    exact (List.suffix_append _ _).isInfix
  · cases eq.symm.trans read
    exact ⟨name ++ '{' :: (fmt ++ ['}']), [], by simp⟩
  · cases eq.symm.trans read

/-- Without adjacent `%`, acceptance by the parser gives a reading of the pending
text and the unread text together. -/
theorem reads_of_walk (nstr text : Text) (free : '%' ∉ nstr) (apart : ¬ ['%', '%'] <:+: text)
    (closed : (walk nstr text).2 = false)
    (known : ∀ token ∈ (walk nstr text).1, token.build.2 = false) :
    ∃ segments, Reads (nstr ++ text) segments := by
  fun_induction walk nstr text with
  | case1 nstr => exact Reads.pending free (by simp) .done
  | case2 nstr c rest literal ih =>
    have free' : '%' ∉ nstr ++ [c] := by simpa [free] using Ne.symm literal
    have apart' : ¬ ['%', '%'] <:+: rest := fun inner => apart (inner.trans (List.suffix_cons c rest).isInfix)
    simpa using ih free' apart' closed known
  | case3 nstr c rest literal escape ih =>
    obtain rfl : c = '%' := not_not.mp literal
    obtain ⟨tail, rfl⟩ := List.head?_eq_some_iff.mp escape
    exact absurd ⟨[], tail, rfl⟩ apart
  | case4 nstr c rest literal single name fmt tail read ih =>
    obtain rfl : c = '%' := not_not.mp literal
    have apart' : ¬ ['%', '%'] <:+: tail := fun inner =>
      apart ((inner.trans (infix_directive read)).trans (List.suffix_cons '%' rest).isInfix)
    have tokens : ∀ token ∈ (walk [] tail).1, token.build.2 = false :=
      fun token member => known token (by simp [member])
    obtain ⟨segments, reads⟩ := ih (by simp) apart' closed tokens
    obtain ⟨_, reads⟩ := reads_directive (known ⟨name, fmt, 1⟩ (by simp)) read reads
    exact Reads.pending free (by simp) reads
  | case5 => simp at closed

/-- `init` accepts exactly the patterns that read, and then yields one item for each
segment in order. -/
theorem init_accepts_grammar (pattern : Text) (apart : ¬ ['%', '%'] <:+: pattern) :
    ((LogFormatter.create pattern).isError = false ↔ ∃ segments, Reads pattern segments) ∧
    ∀ segments, Reads pattern segments →
      (LogFormatter.create pattern).items = segments.map Segment.item ∧
      (parseTokens pattern).1 = segments.map Segment.token := by
  constructor
  · constructor
    · intro accepted
      have flags : (parseTokens pattern).2 = false ∧
          ∀ token ∈ (parseTokens pattern).1, token.build.2 = false := by
        simpa [LogFormatter.create, LogFormatter.isError, init] using accepted
      rw [parseTokens_walk] at flags
      exact reads_of_walk [] pattern (by simp) apart flags.1 flags.2
    · rintro ⟨segments, reads⟩
      simp [LogFormatter.create, LogFormatter.isError, reads.accepted]
  · intro segments reads
    simp [LogFormatter.create, reads.accepted]

/-- One directive with a format, literal text and one directive without. -/
theorem init_accepts_date_level :
    (LogFormatter.create ['%', 'd', '{', 'H', '}', '-', '%', 'p']).items =
      [.dateTime ['H'], .string ['-'], .level] := by
  have apart : ¬ ['%', '%'] <:+: ['%', 'd', '{', 'H', '}', '-', '%', 'p'] := by decide
  have reads : Reads ['%', 'd', '{', 'H', '}', '-', '%', 'p']
      [.directive 'd' ['H'], .text ['-'], .directive 'p' []] :=
    .braced ['H'] (by decide) (by decide)
      (.text ['-'] (by simp) (by decide) (by simp) (.bare (by decide) (by simp) .done))
  exact ((init_accepts_grammar _ apart).2 _ reads).1

end Sylar
