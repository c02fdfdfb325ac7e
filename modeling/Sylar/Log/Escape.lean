import Sylar.Log.Grammar

/-! The documented escape `%%` of log patterns. The outer loop keeps the second `%`
of a pair, so an escaped `%` also starts a directive: the escaping law holds for
the texts without `%` and for no other. -/
namespace Sylar

open Library

/-- The text with every `%` doubled. -/
def escape (text : Text) : Text := text.flatMap fun c => if c = '%' then ['%', '%'] else [c]

/-- A well-formed directive `%X{fmt}`. -/
structure Directive where
  name : Char
  fmt : Text
  known : name ∈ directiveNames
  free : '}' ∉ fmt

def Directive.spell (d : Directive) : Text := '%' :: d.name :: '{' :: (d.fmt ++ ['}'])

def spell (directives : List Directive) : Text := directives.flatMap Directive.spell

def Directive.segment (d : Directive) : Segment := .directive d.name d.fmt

/-- The law of the documentation for one text between two groups of directives. -/
def EscapingLaw (before : List Directive) (text : Text) (after : List Directive) : Prop :=
  (LogFormatter.create (spell before ++ escape text ++ spell after)).isError = false ∧
  ∀ clock level event,
    (LogFormatter.create (spell before ++ escape text ++ spell after)).format clock level event =
      (LogFormatter.create (spell before)).format clock level event ++ text ++
        (LogFormatter.create (spell after)).format clock level event

@[simp] theorem escape_nil : escape [] = [] := rfl

theorem escape_percent (text : Text) : escape ('%' :: text) = '%' :: '%' :: escape text := rfl

theorem escape_literal {c : Char} (literal : c ≠ '%') (text : Text) :
    escape (c :: text) = c :: escape text := by
  simp [escape, literal]

@[simp] theorem escape_append (a b : Text) : escape (a ++ b) = escape a ++ escape b := by
  simp [escape]

theorem escape_free {text : Text} (free : '%' ∉ text) : escape text = text := by
  induction text with
  | nil => rfl
  | cons c text ih =>
    rw [List.mem_cons, not_or] at free
    rw [escape_literal (Ne.symm free.1), ih free.2]

theorem mem_escape (c : Char) (text : Text) : c ∈ escape text ↔ c ∈ text := by
  induction text with
  | nil => rfl
  | cons d text ih =>
    by_cases percent : d = '%'
    · subst percent
      simp [escape_percent, ih]
    · simp [escape_literal percent, ih]

theorem head_spell (directives : List Directive) : ∀ c ∈ (spell directives).head?, c = '%' := by
  cases directives with
  | nil => simp [spell]
  | cons d directives =>
    intro c head
    simpa [spell, Directive.spell] using head.symm

theorem reads_spell (directives : List Directive) {rest : Text} {segments : List Segment}
    (reads : Reads rest segments) :
    Reads (spell directives ++ rest) (directives.map Directive.segment ++ segments) := by
  induction directives with
  | nil => exact reads
  | cons d directives ih =>
    have whole := Reads.braced d.fmt d.known d.free ih
    simpa [spell, Directive.spell, Directive.segment, List.append_assoc] using whole

/-- The output of a pattern that reads, segment by segment. -/
theorem Reads.format {pattern : Text} {segments : List Segment} (reads : Reads pattern segments)
    (clock : Clock) (level : LogLevel) (event : LogEvent) :
    (LogFormatter.create pattern).format clock level event =
      segments.flatMap (fun s => s.item.format clock level event) := by
  simp [LogFormatter.create, LogFormatter.format, reads.accepted.2, List.flatMap_map]

/-- A text without `%` reads as itself between directives. -/
theorem escapingLaw_of_free (before : List Directive) (text : Text) (after : List Directive)
    (free : '%' ∉ text) : EscapingLaw before text after := by
  have readsAfter := reads_spell after .done
  have readsBefore := reads_spell before .done
  rw [List.append_nil, List.append_nil] at readsAfter readsBefore
  have whole : ∃ segments, Reads (text ++ spell after) segments ∧
      ∀ clock level event, segments.flatMap (fun s => s.item.format clock level event) =
        text ++ (LogFormatter.create (spell after)).format clock level event := by
    by_cases empty : text = []
    · subst empty
      exact ⟨_, readsAfter, fun clock level event => (readsAfter.format clock level event).symm⟩
    · refine ⟨_, .text text empty free (head_spell after) readsAfter, ?_⟩
      intro clock level event
      rw [readsAfter.format]
      rfl
  obtain ⟨segments, readsText, output⟩ := whole
  have reads := reads_spell before readsText
  rw [← List.append_assoc] at reads
  unfold EscapingLaw
  rw [escape_free free]
  constructor
  · exact congrArg Prod.snd reads.accepted.2
  · intro clock level event
    rw [reads.format, readsBefore.format, List.flatMap_append, output, List.append_assoc]

/-- A clock and an event whose texts tell directives from literal text. -/
def probeClock : Clock := ⟨fun _ _ => ['0'], fun _ _ => []⟩

def probeEvent : LogEvent := ⟨['0'], 0, 0, 0, 0, 0, ['0'], ['0'], ['0']⟩

def probeOutput (tokens : List Token) : Text :=
  tokens.flatMap fun token => token.build.1.format probeClock .debug probeEvent

theorem probeOutput_flush (nstr : Text) (tokens : List Token) :
    probeOutput (flush nstr ++ tokens) = nstr ++ probeOutput tokens := by
  by_cases empty : nstr = []
  · simp [flush, empty]
  · simp [probeOutput, flush_nonempty empty, FormatItem.format]

theorem brace_not_mem_expand (format : Text) : ∀ pending : Option Text, '}' ∉ format →
    '}' ∉ probeClock.expand 0 pending format := by
  induction format with
  | nil =>
    intro pending _
    cases pending <;> simp [Clock.expand, probeClock]
  | cons c rest ih =>
    intro pending free
    rw [List.mem_cons, not_or] at free
    have tail := fun pending => ih pending free.2
    cases pending with
    | none =>
      rw [Clock.expand]
      split_ifs
      · simp
      · exact tail _
      · simp [free.1, tail]
    | some spec =>
      rw [Clock.expand]
      split_ifs
      · simp [probeClock]
      · exact tail _
      · simp [tail]
      · simp [probeClock]
        exact tail _

theorem brace_not_mem_strftime (format : Text) (free : '}' ∉ format) :
    '}' ∉ probeClock.strftime format 0 := by
  simp only [Clock.strftime]
  split
  · exact brace_not_mem_expand format none free
  · simp [probeClock]

/-- Only the date directive keeps its format. -/
theorem Segment.item_fmt {name : Char} (other : name ≠ 'd') (fmt : Text) :
    (Segment.directive name fmt).item = (Segment.directive name []).item := by
  simp only [Segment.item]
  split
  all_goals first
    | rfl
    | exact absurd rfl other

/-- No directive's output on the probe has a `}` that its format lacks. -/
theorem brace_not_mem_item {name : Char} {fmt : Text} (known : name ∈ directiveNames)
    (free : '}' ∉ fmt) :
    '}' ∉ (Segment.directive name fmt).item.format probeClock .debug probeEvent := by
  by_cases date : name = 'd'
  · subst date
    apply brace_not_mem_strftime
    split
    · decide
    · exact free
  · have others : ∀ c ∈ directiveNames, c ≠ 'd' →
        '}' ∉ (Segment.directive c []).item.format probeClock .debug probeEvent := by decide
    rw [Segment.item_fmt date]
    exact others name known date

/-- No bare directive's output on the probe ends with its own letter. -/
theorem last_ne_of_bare {name : Char} (known : name ∈ directiveNames) :
    ('%' :: (Segment.directive name []).item.format probeClock .debug probeEvent).getLast? ≠
      some name := by
  have all : ∀ c ∈ directiveNames,
      ('%' :: (Segment.directive c []).item.format probeClock .debug probeEvent).getLast? ≠
        some c := by decide
  exact all name known

/-- The tokens of an accepted pattern all have known names. -/
def Accepted (parsed : List Token × Bool) : Prop :=
  parsed.2 = false ∧ ∀ token ∈ parsed.1, token.build.2 = false

theorem accepted_iff (pattern : Text) :
    (LogFormatter.create pattern).isError = false ↔ Accepted (walk [] pattern) := by
  simp [LogFormatter.create, LogFormatter.isError, init, parseTokens_walk, Accepted]

theorem escape_opening {text rest : Text} (opening : escape text = '{' :: rest) :
    ∃ tail, text = '{' :: tail ∧ rest = escape tail := by
  cases text with
  | nil => cases opening
  | cons c text =>
    by_cases percent : c = '%'
    · subst percent
      cases (List.cons.inj opening).1
    · rw [escape_literal percent] at opening
      obtain ⟨rfl, same⟩ := List.cons.inj opening
      exact ⟨text, rfl, same.symm⟩

/-- What a formatter prints on the probe is the output of its tokens. -/
theorem format_create (pattern : Text) :
    (LogFormatter.create pattern).format probeClock .debug probeEvent =
      probeOutput (walk [] pattern).1 := by
  simp [LogFormatter.create, LogFormatter.format, init, parseTokens_walk, probeOutput,
    List.flatMap_map]

/-- An escaped text with a closed format splits where the text does. -/
theorem escape_split {text fmt rest : Text} (free : '}' ∉ fmt)
    (split : escape text = fmt ++ '}' :: rest) :
    ∃ inner tail, text = inner ++ '}' :: tail ∧ rest = escape tail := by
  have closed : '}' ∈ text := by
    rw [← mem_escape, split]
    simp
  obtain ⟨inner, tail, rfl, innerFree⟩ := List.eq_append_cons_of_mem closed
  have brace : escape ('}' :: tail) = '}' :: escape tail := escape_literal (by decide) tail
  rw [escape_append, brace] at split
  have first := takeWhile_brace (escape inner) (escape tail) (by rwa [mem_escape])
  have second := takeWhile_brace fmt rest free
  rw [split] at first
  have same := first.2.symm.trans second.2
  exact ⟨inner, tail, rfl, (List.cons.inj same).2.symm⟩

/-- After an escape the parser reads on at the second `%`. -/
theorem walk_escape_percent (nstr text : Text) :
    walk nstr (escape ('%' :: text)) = walk (nstr ++ ['%']) ('%' :: escape text) := by
  rw [escape_percent, walk_escape]

/-- `Differs text`: from any pending text, what an accepted escaped `text` prints is
not `text`, and differs from it at a position counted from the end. -/
def Differs (text : Text) : Prop :=
  ∀ nstr, Accepted (walk nstr (escape text)) →
    ∀ x y, x ++ probeOutput (walk nstr (escape text)).1 ≠ y ++ text

theorem probeOutput_free {text : Text} (free : '%' ∉ text) :
    probeOutput (walk [] (escape text)).1 = text := by
  have run := walk_run [] text [] free
  rw [List.append_nil] at run
  have output := probeOutput_flush text []
  rw [List.append_nil] at output
  simpa [escape_free free, run, probeOutput] using output

/-- A mismatch at the last characters of two parts survives whatever follows them. -/
theorem differs_after (tail printed consumed : Text) (nonempty : printed ≠ [])
    (last : printed.getLast? ≠ consumed.getLast?) (someLast : consumed ≠ [])
    (ih : '%' ∈ tail → Differs tail) (accepted : Accepted (walk [] (escape tail))) (x y : Text) :
    x ++ (printed ++ probeOutput (walk [] (escape tail)).1) ≠ y ++ (consumed ++ tail) := by
  by_cases percent : '%' ∈ tail
  · rw [← List.append_assoc, ← List.append_assoc]
    exact ih percent [] accepted _ _
  · rw [probeOutput_free percent, ← List.append_assoc, ← List.append_assoc]
    intro equal
    have front := List.append_cancel_right equal
    have lasts := congrArg List.getLast? front
    rw [List.getLast?_append_of_ne_nil _ nonempty,
      List.getLast?_append_of_ne_nil _ someLast] at lasts
    exact last lasts

/-- The directive that the second `%` of a pair starts prints something else than
the text it consumes. -/
theorem differs_directive (d : Char) (text : Text) (single : d ≠ '%')
    (ih : ∀ tail, tail.length ≤ text.length → '%' ∈ tail → Differs tail) :
    Differs ('%' :: d :: text) := by
  intro nstr accepted x y
  have notPercent : (escape (d :: text)).head? ≠ some '%' := by
    rw [escape_literal single]
    simpa using single
  rw [walk_escape_percent] at accepted ⊢
  cases read : directive (escape (d :: text)) with
  | none =>
    rw [walk_unclosed _ _ notPercent read] at accepted
    exact absurd accepted.1 (by simp)
  | some found =>
    obtain ⟨name, fmt, rest⟩ := found
    rw [walk_directive _ _ _ _ _ notPercent read] at accepted ⊢
    have known := accepted.2 ⟨name, fmt, 1⟩ (by simp)
    have later : Accepted (walk [] rest) :=
      ⟨accepted.1, fun token member => accepted.2 token (by simp [member])⟩
    obtain ⟨letter, member, rfl⟩ := known_of_build known
    have output : probeOutput (flush (nstr ++ ['%']) ++ ⟨[letter], fmt, 1⟩ :: (walk [] rest).1) =
        (nstr ++ '%' :: (Segment.directive letter fmt).item.format probeClock .debug probeEvent) ++
          probeOutput (walk [] rest).1 := by
      rw [probeOutput_flush]
      simp [probeOutput, Segment.build_directive member]
    rw [output]
    rcases directive_cases (escape (d :: text)) with
      ⟨_, _, whole, _, _, eq⟩ | ⟨_, _, _, whole, _, free, eq⟩ | ⟨_, _, _, _, _, eq⟩
    · cases eq.symm.trans read
      rw [escape_literal single] at whole
      obtain ⟨rfl, rfl⟩ := List.cons.inj whole
      refine differs_after text _ ['%', d] (by simp) ?_ (by simp) (ih text (Nat.le_refl _)) later x y
      rw [List.getLast?_append_of_ne_nil _ (by simp)]
      exact last_ne_of_bare member
    · cases eq.symm.trans read
      rw [escape_literal single] at whole
      obtain ⟨sameLetter, after⟩ := List.cons.inj whole
      subst sameLetter
      obtain ⟨text, rfl, body⟩ := escape_opening after
      obtain ⟨inner, tail, rfl, rfl⟩ := escape_split free body.symm
      have shorter : tail.length ≤ ('{' :: (inner ++ '}' :: tail)).length := by simp; omega
      have differs := differs_after tail
        (nstr ++ '%' :: (Segment.directive d fmt).item.format probeClock .debug probeEvent)
        (('%' :: d :: '{' :: inner) ++ ['}']) (by simp) ?_ (by simp) (ih tail shorter) later x y
      · simpa using differs
      · rw [List.getLast?_append_of_ne_nil _ (by simp)]
        intro same
        have closing := List.mem_of_getLast? (same.trans List.getLast?_concat)
        rcases List.mem_cons.mp closing with percent | inside
        · cases percent
        · exact brace_not_mem_item member free inside
    · cases eq.symm.trans read

/-- Every text with a `%` fails to come back from its escaped form. -/
theorem escape_differs (text : Text) (percent : '%' ∈ text) : Differs text := by
  induction length : text.length using Nat.strong_induction_on generalizing text with
  | _ n ih =>
    subst length
    cases text with
    | nil => cases percent
    | cons c text =>
      by_cases literal : c = '%'
      · subst literal
        cases text with
        | nil =>
          -- The pair ends the pattern, and a `%` at the end names no directive.
          intro nstr accepted
          rw [walk_escape_percent, escape_nil,
            walk_directive _ [] [] [] [] (by simp) (directive_bare [] [] (by simp) (by simp))] at accepted
          exact absurd (accepted.2 ⟨[], [], 1⟩ (by simp)) (by decide)
        | cons d text =>
          by_cases pair : d = '%'
          · subst pair
            intro nstr accepted x y
            have next : walk nstr (escape ('%' :: '%' :: text)) =
                walk (nstr ++ ['%'] ++ ['%']) (escape ('%' :: text)) := by
              rw [walk_escape_percent, escape_percent, walk_escape]
            rw [next] at accepted ⊢
            have differs := ih _ (by simp) ('%' :: text) (by simp) rfl _ accepted x (y ++ ['%'])
            simpa using differs
          · apply differs_directive d text pair
            intro tail bound member
            exact ih tail.length (by simp; omega) tail member rfl
      · intro nstr accepted x y
        have tail : '%' ∈ text := by simpa [Ne.symm literal] using percent
        rw [escape_literal literal, walk_literal _ _ _ literal] at accepted ⊢
        have differs := ih text.length (by simp) text tail rfl _ accepted x (y ++ [c])
        simpa using differs

/-- The escaping law holds for a text exactly when the text has nothing to escape. -/
theorem escapingLaw_iff (text : Text) :
    (∀ before after, EscapingLaw before text after) ↔ '%' ∉ text := by
  constructor
  · intro law percent
    obtain ⟨accepted, output⟩ := law [] []
    have print := output probeClock .debug probeEvent
    simp only [spell, List.flatMap_nil, List.nil_append, List.append_nil] at accepted print
    have empty : (LogFormatter.create []).format probeClock .debug probeEvent = [] := Reads.done.format ..
    rw [format_create, empty, List.nil_append, List.append_nil] at print
    have differs := escape_differs text percent [] ((accepted_iff _).mp accepted) [] []
    exact differs print
  · intro free before after
    exact escapingLaw_of_free before text after free

/-- The escaped form of the single character `%` does not parse. -/
theorem escape_percent_fails : ¬ EscapingLaw [] ['%'] [] := by
  intro law
  exact absurd law.1 (by decide)

end Sylar
