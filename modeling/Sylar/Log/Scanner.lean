import Sylar.Log.Formatter

/-! The index loops of `init` as functions of the unread suffix. `directive` reads
one directive after its `%`; `walk` is the outer loop. Both are proved equal to
the loops at every position, so later arguments never mention positions. -/
namespace Sylar

open Library

/-- Characters the inner loop passes over before a format: letters and `}`. -/
def nameChar (c : Char) : Bool := c.isAlpha || c == '}'

/-- The name, the format and the unread rest of a directive; `none` when its
format is not closed. -/
def directive (text : Text) : Option (Text × Text × Text) :=
  match text.dropWhile nameChar with
  | '{' :: body =>
    if '}' ∈ body then
      some (text.takeWhile nameChar, body.takeWhile (· != '}'), (body.dropWhile (· != '}')).tail)
    else none
  | rest => some (text.takeWhile nameChar, [], rest)

theorem takeWhile_brace (fmt rest : Text) (free : '}' ∉ fmt) :
    (fmt ++ '}' :: rest).takeWhile (· != '}') = fmt ∧
      (fmt ++ '}' :: rest).dropWhile (· != '}') = '}' :: rest := by
  apply takeWhile_append_stop
  · intro c member
    simpa using fun same : c = '}' => free (same ▸ member)
  · simp

theorem directive_braced (name fmt rest : Text) (letters : ∀ c ∈ name, nameChar c = true)
    (free : '}' ∉ fmt) :
    directive (name ++ '{' :: (fmt ++ '}' :: rest)) = some (name, fmt, rest) := by
  have split := takeWhile_append_stop nameChar name ('{' :: (fmt ++ '}' :: rest)) letters
    (by simp; decide)
  have inner := takeWhile_brace fmt rest free
  simp [directive, split, inner]

theorem directive_bare (name rest : Text) (letters : ∀ c ∈ name, nameChar c = true)
    (stop : ∀ c ∈ rest.head?, nameChar c = false ∧ c ≠ '{') :
    directive (name ++ rest) = some (name, [], rest) := by
  have split := takeWhile_append_stop nameChar name rest letters (fun c h => (stop c h).1)
  unfold directive
  rw [split.1, split.2]
  split
  · rename_i body
    exact absurd rfl (stop '{' (by simp)).2
  · rfl

theorem directive_open (name body : Text) (letters : ∀ c ∈ name, nameChar c = true)
    (unclosed : '}' ∉ body) : directive (name ++ '{' :: body) = none := by
  have split := takeWhile_append_stop nameChar name ('{' :: body) letters (by simp; decide)
  simp [directive, split, unclosed]

/-- The three ways in which the text after a `%` reads. -/
theorem directive_cases (text : Text) :
    (∃ name rest, text = name ++ rest ∧ (∀ c ∈ name, nameChar c = true) ∧
      (∀ c ∈ rest.head?, nameChar c = false ∧ c ≠ '{') ∧
      directive text = some (name, [], rest)) ∨
    (∃ name fmt rest, text = name ++ '{' :: (fmt ++ '}' :: rest) ∧
      (∀ c ∈ name, nameChar c = true) ∧ '}' ∉ fmt ∧ directive text = some (name, fmt, rest)) ∨
    (∃ name body, text = name ++ '{' :: body ∧ (∀ c ∈ name, nameChar c = true) ∧
      '}' ∉ body ∧ directive text = none) := by
  have letters : ∀ c ∈ text.takeWhile nameChar, nameChar c = true :=
    fun c member => List.mem_takeWhile_imp member
  have whole : text = text.takeWhile nameChar ++ text.dropWhile nameChar :=
    List.takeWhile_append_dropWhile.symm
  have head := List.head?_dropWhile_not nameChar text
  generalize text.takeWhile nameChar = name at letters whole
  generalize text.dropWhile nameChar = rest at whole head
  subst whole
  cases rest with
  | nil =>
    exact .inl ⟨name, [], rfl, letters, by simp, directive_bare name [] letters (by simp)⟩
  | cons c rest =>
    simp only [List.head?_cons] at head
    by_cases opening : c = '{'
    · subst opening
      by_cases closed : '}' ∈ rest
      · obtain ⟨fmt, tail, rfl, free⟩ := List.eq_append_cons_of_mem closed
        exact .inr (.inl ⟨name, fmt, tail, rfl, letters, free,
          directive_braced name fmt tail letters free⟩)
      · exact .inr (.inr ⟨name, rest, rfl, letters, closed,
          directive_open name rest letters closed⟩)
    · have stop : ∀ d ∈ (c :: rest).head?, nameChar d = false ∧ d ≠ '{' := by
        intro d member
        cases (Option.some.inj member : c = d)
        exact ⟨head, opening⟩
      exact .inl ⟨name, c :: rest, rfl, letters, stop, directive_bare name _ letters stop⟩

theorem directive_length (text name fmt rest : Text)
    (reads : directive text = some (name, fmt, rest)) : rest.length ≤ text.length := by
  rcases directive_cases text with
    ⟨n, r, rfl, _, _, eq⟩ | ⟨n, f, r, rfl, _, _, eq⟩ | ⟨n, b, rfl, _, _, eq⟩
  · cases eq.symm.trans reads
    simp
  · cases eq.symm.trans reads
    simp
    omega
  · cases eq.symm.trans reads

/-- The token that an unclosed format leaves behind. -/
def errorToken : Token := ⟨"<<pattern_error>>".toList, [], 0⟩

/-- The outer loop on the unread text, with the pending literal text. -/
def walk (nstr : Text) (text : Text) : List Token × Bool :=
  match text with
  | [] => (flush nstr, false)
  | c :: rest =>
    if c ≠ '%' then walk (nstr ++ [c]) rest
    else if rest.head? = some '%' then walk (nstr ++ ['%']) rest
    else match _reads : directive rest with
      | some (name, fmt, tail) =>
        (flush nstr ++ ⟨name, fmt, 1⟩ :: (walk [] tail).1, (walk [] tail).2)
      | none => (errorToken :: (walk nstr rest).1, true)
termination_by text.length
decreasing_by
  · exact Nat.lt_succ_self rest.length
  · exact Nat.lt_succ_self rest.length
  · exact Nat.lt_succ_of_le (directive_length rest _ _ _ _reads)
  · exact Nat.lt_succ_self rest.length

/-- The inner loop only advances at these characters, unless they end the pattern. -/
def passes (fmtStatus : Nat) (c : Char) : Prop :=
  (fmtStatus = 0 ∧ nameChar c = true) ∨ (fmtStatus = 1 ∧ c ≠ '}')

theorem nameChar_ne (c : Char) (letter : nameChar c = true) :
    c ≠ '{' ∧ (c.isAlpha = true ∨ c = '}') := by
  refine ⟨?_, by simpa [nameChar] using letter⟩
  rintro rfl
  exact absurd letter (by decide)

theorem scan_advance (pattern : Text) (i fuel : Nat) (s : Scan) (c : Char)
    (here : pattern[s.n]? = some c) (pass : passes s.fmtStatus c) :
    scan pattern i (fuel + 1) s =
      if s.n + 1 = pattern.length ∧ s.str.isEmpty then
        scan pattern i fuel { s with n := s.n + 1, str := pattern.drop (i + 1) }
      else scan pattern i fuel { s with n := s.n + 1 } := by
  rcases pass with ⟨outside, letter⟩ | ⟨inside, notClosing⟩
  · obtain ⟨notOpening, kind⟩ := nameChar_ne c letter
    have goesOn : ¬ (c.isAlpha = false ∧ c ≠ '{' ∧ c ≠ '}') := by
      rintro ⟨notAlpha, _, notBrace⟩
      rcases kind with alpha | brace
      · simp [alpha] at notAlpha
      · exact notBrace brace
    simp only [scan, here, outside, true_and, goesOn, if_false, notOpening]
    simp
  · simp only [scan, here, inside, notClosing]
    simp

/-- The inner loop runs over passed characters when another character follows. -/
theorem scan_pass (pattern : Text) (i fuel : Nat) (run rest : Text) (c : Char) (s : Scan)
    (pass : ∀ d ∈ run, passes s.fmtStatus d) (suffix : pattern.drop s.n = run ++ c :: rest) :
    scan pattern i (run.length + fuel) s =
      scan pattern i fuel { s with n := s.n + run.length } := by
  induction run generalizing s with
  | nil => simp
  | cons d run ih =>
    have here := getElem?_of_drop suffix
    have next := drop_succ_of_drop suffix
    have notLast : s.n + 1 ≠ pattern.length := by
      intro last
      rw [last, List.drop_length] at next
      exact absurd next.symm (by simp)
    have rest := ih { s with n := s.n + 1 } (fun e member => pass e (by simp [member])) next
    rw [List.length_cons, show run.length + 1 + fuel = run.length + fuel + 1 by omega,
      scan_advance pattern i _ s d here (pass d (by simp)), if_neg (fun last => notLast last.1), rest]
    simp only [Nat.add_assoc, Nat.add_comm 1]

theorem scan_end (pattern : Text) (i fuel : Nat) (s : Scan) (past : pattern.length ≤ s.n) :
    scan pattern i fuel s = s := by
  have none : pattern[s.n]? = none := List.getElem?_eq_none past
  cases fuel <;> simp [scan, none]

/-- A name that ends the pattern is cut out by the last advance. -/
theorem scan_name_end (pattern : Text) (i fuel : Nat) (name : Text) (s : Scan)
    (outside : s.fmtStatus = 0) (unset : s.str = [])
    (letters : ∀ c ∈ name, nameChar c = true) (nonempty : name ≠ [])
    (suffix : pattern.drop s.n = name) (enough : name.length ≤ fuel) :
    scan pattern i fuel s = { s with n := pattern.length, str := pattern.drop (i + 1) } := by
  rcases List.eq_nil_or_concat' name with empty | ⟨front, last, rfl⟩
  · exact absurd empty nonempty
  · rw [List.length_append, List.length_singleton] at enough
    obtain ⟨left, rfl⟩ := Nat.exists_eq_add_of_le enough
    have pass : ∀ c ∈ front ++ [last], passes s.fmtStatus c :=
      fun c member => .inl ⟨outside, letters c member⟩
    have inside : s.n ≤ pattern.length := by
      by_contra beyond
      rw [List.drop_eq_nil_of_le (by omega)] at suffix
      exact nonempty suffix.symm
    have length := length_of_drop suffix inside
    rw [List.length_append, List.length_singleton] at length
    have here := getElem?_of_drop (drop_add_of_drop suffix)
    rw [show front.length + 1 + left = front.length + (left + 1) by omega,
      scan_pass pattern i _ front [] last s (fun c member => pass c (by simp [member])) suffix,
      scan_advance pattern i left { s with n := s.n + front.length } last here (pass last (by simp)),
      if_pos ⟨by simp only; omega, by simp [unset]⟩, scan_end pattern i left _ (by simp only; omega)]
    simp only [Scan.mk.injEq, and_true]
    omega

/-- A format that is not closed leaves the inner loop in format status. -/
theorem scan_unclosed (pattern : Text) (i fuel : Nat) (body : Text) (s : Scan)
    (inside : s.fmtStatus = 1) (unclosed : '}' ∉ body) (suffix : pattern.drop s.n = body) :
    (scan pattern i fuel s).fmtStatus = 1 ∧ (scan pattern i fuel s).fmt = s.fmt := by
  induction body generalizing s fuel with
  | nil =>
    rw [scan_end pattern i fuel s (by simpa [List.drop_eq_nil_iff] using suffix)]
    exact ⟨inside, rfl⟩
  | cons c body ih =>
    cases fuel with
    | zero => exact ⟨inside, rfl⟩
    | succ fuel =>
      have here := getElem?_of_drop suffix
      have next := drop_succ_of_drop suffix
      have notClosing : c ≠ '}' := fun same => unclosed (by simp [same])
      have rest : '}' ∉ body := fun member => unclosed (by simp [member])
      rw [scan_advance pattern i fuel s c here (.inr ⟨inside, notClosing⟩)]
      split
      · exact ih fuel { s with n := s.n + 1, str := pattern.drop (i + 1) } inside rest next
      · exact ih fuel { s with n := s.n + 1 } inside rest next

theorem scan_stop (pattern : Text) (i fuel : Nat) (s : Scan) (c : Char)
    (outside : s.fmtStatus = 0) (here : pattern[s.n]? = some c)
    (stop : nameChar c = false ∧ c ≠ '{') :
    scan pattern i (fuel + 1) s = { s with str := substr pattern (i + 1) (s.n - i - 1) } := by
  have kind : c.isAlpha = false ∧ c ≠ '}' := by simpa [nameChar] using stop.1
  simp [scan, here, outside, kind, stop.2]

theorem scan_opening (pattern : Text) (i fuel : Nat) (s : Scan)
    (outside : s.fmtStatus = 0) (here : pattern[s.n]? = some '{') :
    scan pattern i (fuel + 1) s = scan pattern i fuel { s with
      str := substr pattern (i + 1) (s.n - i - 1), fmtStatus := 1, fmtBegin := s.n, n := s.n + 1 } := by
  simp [scan, here, outside]

theorem scan_closing (pattern : Text) (i fuel : Nat) (s : Scan)
    (inside : s.fmtStatus = 1) (here : pattern[s.n]? = some '}') :
    scan pattern i (fuel + 1) s = { s with
      fmt := substr pattern (s.fmtBegin + 1) (s.n - s.fmtBegin - 1), fmtStatus := 0, n := s.n + 1 } := by
  simp [scan, here, inside]

/-- The inner loop reads one directive of the unread text. -/
theorem scan_directive (pattern text : Text) (i : Nat) (inside : i < pattern.length)
    (suffix : pattern.drop (i + 1) = text) :
    let r := scan pattern i pattern.length ⟨i + 1, 0, 0, [], []⟩
    match directive text with
    | some (name, fmt, rest) => r.fmtStatus = 0 ∧ r.str = name ∧ r.fmt = fmt ∧
        pattern.drop r.n = rest ∧ 0 < r.n ∧ r.n ≤ pattern.length
    | none => r.fmtStatus = 1 ∧ r.fmt = [] := by
  have length := length_of_drop suffix inside
  intro r
  rcases directive_cases text with
    ⟨name, rest, rfl, letters, stop, eq⟩ | ⟨name, fmt, rest, rfl, letters, free, eq⟩ |
    ⟨name, body, rfl, letters, unclosed, eq⟩
  · -- No format: the name ends at the end of the pattern or at a character that stops the loop.
    rw [eq]
    cases rest with
    | nil =>
      rw [List.append_nil] at suffix length
      by_cases nonempty : name = []
      · subst nonempty
        have done : r = ⟨i + 1, 0, 0, [], []⟩ := scan_end pattern i _ _ (by simp at length; simp; omega)
        simp [done, suffix]
        omega
      · have done : r = ⟨pattern.length, 0, 0, pattern.drop (i + 1), []⟩ :=
          scan_name_end pattern i _ name ⟨i + 1, 0, 0, [], []⟩ rfl rfl letters nonempty suffix (by omega)
        simp [done, suffix]
        omega
    | cons c rest =>
      have here := getElem?_of_drop (drop_add_of_drop suffix)
      simp only [List.length_append, List.length_cons] at length
      have done : r = ⟨i + 1 + name.length, 0, 0, name, []⟩ := by
        have fuel : pattern.length = name.length + (i + 1 + rest.length + 1) := by omega
        simp only [r]
        rw [fuel, scan_pass pattern i _ name rest c ⟨i + 1, 0, 0, [], []⟩
          (fun d member => .inl ⟨rfl, letters d member⟩) suffix,
          scan_stop pattern i _ ⟨i + 1 + name.length, 0, 0, [], []⟩ c rfl here (stop c (by simp))]
        have cut : i + 1 + name.length - i - 1 = name.length := by omega
        simp only [cut, substr_of_drop suffix]
      simp only [done, drop_add_of_drop suffix]
      simp
      omega
  · -- A closed format: the name ends at the opening brace, the format at the first closing one.
    rw [eq]
    have opening := getElem?_of_drop (drop_add_of_drop suffix)
    have body := drop_succ_of_drop (drop_add_of_drop suffix)
    have closing := getElem?_of_drop (drop_add_of_drop body)
    simp only [List.length_append, List.length_cons] at length
    have done : r = ⟨i + 1 + name.length + 1 + fmt.length + 1, 0, i + 1 + name.length, name, fmt⟩ := by
      have fuel : pattern.length = name.length + ((fmt.length + (i + 1 + rest.length + 1)) + 1) := by omega
      simp only [r]
      rw [fuel, scan_pass pattern i _ name _ '{' ⟨i + 1, 0, 0, [], []⟩
        (fun d member => .inl ⟨rfl, letters d member⟩) suffix,
        scan_opening pattern i _ ⟨i + 1 + name.length, 0, 0, [], []⟩ rfl opening,
        scan_pass pattern i _ fmt rest '}' _
          (fun d member => .inr ⟨rfl, fun same => free (same ▸ member)⟩) body,
        scan_closing pattern i _ _ rfl closing]
      have cut : i + 1 + name.length - i - 1 = name.length := by omega
      have cutFormat : i + 1 + name.length + 1 + fmt.length - (i + 1 + name.length) - 1 = fmt.length := by
        omega
      simp only [cut, cutFormat, substr_of_drop suffix, substr_of_drop body]
    simp only [done, drop_succ_of_drop (drop_add_of_drop body)]
    simp
    omega
  · -- No closing brace: the loop ends inside the format.
    rw [eq]
    have opening := getElem?_of_drop (drop_add_of_drop suffix)
    have rest := drop_succ_of_drop (drop_add_of_drop suffix)
    simp only [List.length_append, List.length_cons] at length
    have fuel : pattern.length = name.length + (i + 1 + body.length + 1) := by omega
    simp only [r]
    rw [fuel, scan_pass pattern i _ name _ '{' ⟨i + 1, 0, 0, [], []⟩
      (fun d member => .inl ⟨rfl, letters d member⟩) suffix,
      scan_opening pattern i _ ⟨i + 1 + name.length, 0, 0, [], []⟩ rfl opening]
    exact scan_unclosed pattern i _ body _ rfl unclosed rest

@[simp] theorem walk_nil (nstr : Text) : walk nstr [] = (flush nstr, false) := by
  rw [walk]

theorem walk_literal (nstr rest : Text) (c : Char) (literal : c ≠ '%') :
    walk nstr (c :: rest) = walk (nstr ++ [c]) rest := by
  rw [walk, if_pos literal]

theorem walk_escape (nstr rest : Text) :
    walk nstr ('%' :: '%' :: rest) = walk (nstr ++ ['%']) ('%' :: rest) := by
  rw [walk]
  simp

theorem walk_directive (nstr text name fmt rest : Text) (single : text.head? ≠ some '%')
    (reads : directive text = some (name, fmt, rest)) :
    walk nstr ('%' :: text) =
      (flush nstr ++ ⟨name, fmt, 1⟩ :: (walk [] rest).1, (walk [] rest).2) := by
  rw [walk, if_neg (by simp), if_neg single]
  split
  · rename_i same
    cases reads.symm.trans same
    rfl
  · rename_i none
    cases reads.symm.trans none

theorem walk_unclosed (nstr text : Text) (single : text.head? ≠ some '%')
    (reads : directive text = none) :
    walk nstr ('%' :: text) = (errorToken :: (walk nstr text).1, true) := by
  rw [walk, if_neg (by simp), if_neg single]
  split
  · rename_i same
    cases reads.symm.trans same
  · rfl

theorem parse_directive (pattern text name fmt rest : Text) (fuel : Nat) (s : Parse)
    (here : pattern[s.i]? = some '%') (next : pattern.drop (s.i + 1) = text)
    (single : text.head? ≠ some '%') (reads : directive text = some (name, fmt, rest)) :
    ∃ n, pattern.drop n = rest ∧ parse pattern (fuel + 1) s =
      parse pattern fuel ⟨n, [], s.vec ++ flush s.nstr ++ [⟨name, fmt, 1⟩], s.error⟩ := by
  have inside : s.i < pattern.length := (List.getElem?_eq_some_iff.mp here).1
  have head : pattern[s.i + 1]? ≠ some '%' := by rw [← List.head?_drop, next]; exact single
  have read := scan_directive pattern text s.i inside next
  rw [reads] at read
  obtain ⟨status, str, format, suffix, positive, _⟩ := read
  refine ⟨_, suffix, ?_⟩
  rw [parse, here]
  simp only [ne_eq, not_true_eq_false, if_false, head, status, if_true, str, format,
    Nat.sub_add_cancel positive]

theorem parse_unclosed (pattern text : Text) (fuel : Nat) (s : Parse)
    (here : pattern[s.i]? = some '%') (next : pattern.drop (s.i + 1) = text)
    (single : text.head? ≠ some '%') (reads : directive text = none) :
    parse pattern (fuel + 1) s =
      parse pattern fuel ⟨s.i + 1, s.nstr, s.vec ++ [errorToken], true⟩ := by
  have inside : s.i < pattern.length := (List.getElem?_eq_some_iff.mp here).1
  have head : pattern[s.i + 1]? ≠ some '%' := by rw [← List.head?_drop, next]; exact single
  have read := scan_directive pattern text s.i inside next
  rw [reads] at read
  obtain ⟨status, format⟩ := read
  rw [parse, here]
  simp only [ne_eq, not_true_eq_false, if_false, head]
  rw [if_neg (by rw [status]; exact Nat.one_ne_zero), format]
  rfl

theorem parse_literal (pattern : Text) (fuel : Nat) (s : Parse) (c : Char)
    (here : pattern[s.i]? = some c) (literal : c ≠ '%') :
    parse pattern (fuel + 1) s =
      parse pattern fuel ⟨s.i + 1, s.nstr ++ [c], s.vec, s.error⟩ := by
  rw [parse, here]
  simp only [if_pos literal]

theorem parse_escape (pattern : Text) (fuel : Nat) (s : Parse)
    (here : pattern[s.i]? = some '%') (next : pattern[s.i + 1]? = some '%') :
    parse pattern (fuel + 1) s =
      parse pattern fuel ⟨s.i + 1, s.nstr ++ ['%'], s.vec, s.error⟩ := by
  rw [parse, here]
  simp only [ne_eq, not_true_eq_false, if_false, next, if_true]

/-- The outer loop from any position is `walk` on the unread text. -/
theorem parse_walk (pattern : Text) (fuel : Nat) (s : Parse) (text : Text)
    (suffix : pattern.drop s.i = text) (enough : text.length ≤ fuel) :
    (parse pattern fuel s).vec ++ flush (parse pattern fuel s).nstr =
        s.vec ++ (walk s.nstr text).1 ∧
      (parse pattern fuel s).error = (s.error || (walk s.nstr text).2) := by
  induction fuel generalizing s text with
  | zero =>
    have empty : text = [] := List.eq_nil_of_length_eq_zero (by omega)
    simp [parse, empty]
  | succ fuel ih =>
    cases text with
    | nil => simp [parse, getElem?_of_drop_nil suffix]
    | cons c rest =>
      have here := getElem?_of_drop suffix
      have next := drop_succ_of_drop suffix
      rw [List.length_cons] at enough
      by_cases literal : c ≠ '%'
      · rw [parse_literal pattern fuel s c here literal, walk_literal _ _ _ literal]
        exact ih ⟨s.i + 1, s.nstr ++ [c], s.vec, s.error⟩ rest next (by omega)
      · obtain rfl : c = '%' := not_not.mp literal
        by_cases single : rest.head? ≠ some '%'
        · cases reads : directive rest with
          | none =>
            rw [parse_unclosed pattern rest fuel s here next single reads,
              walk_unclosed _ _ single reads]
            simpa using ih ⟨s.i + 1, s.nstr, s.vec ++ [errorToken], true⟩ rest next (by omega)
          | some read =>
            obtain ⟨name, fmt, tail⟩ := read
            obtain ⟨n, after, step⟩ :=
              parse_directive pattern rest name fmt tail fuel s here next single reads
            have shorter := directive_length rest name fmt tail reads
            rw [step, walk_directive _ _ _ _ _ single reads]
            have later := ih ⟨n, [], s.vec ++ flush s.nstr ++ [⟨name, fmt, 1⟩], s.error⟩ tail after
              (by omega)
            simp only [List.append_assoc, List.singleton_append] at later ⊢
            exact later
        · obtain ⟨after, rfl⟩ := List.head?_eq_some_iff.mp (not_not.mp single)
          rw [parse_escape pattern fuel s here (getElem?_of_drop next), walk_escape]
          exact ih ⟨s.i + 1, s.nstr ++ ['%'], s.vec, s.error⟩ _ next (by omega)

/-- The tokens and the error flag that `init` computes with its index loops. -/
theorem parseTokens_walk (pattern : Text) : parseTokens pattern = walk [] pattern := by
  have whole := parse_walk pattern pattern.length ⟨0, [], [], false⟩ pattern rfl (Nat.le_refl _)
  simp only [List.nil_append, Bool.false_or] at whole
  exact Prod.ext whole.1 whole.2

end Sylar
