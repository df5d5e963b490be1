import LosslessScss.Character
import LosslessScss.Cursor
import LosslessScss.Kind
import LosslessScss.Text.Quoted

/-!
# Lexemes

A `Lexeme` is a kind and the text of a token of that kind, without the delimiters of the
kind; `Lexeme.written` puts them back.  `Reading.ofText c s` reads the lexeme at the
beginning of the text `c :: s`.  It succeeds with the longest one that its first
characters allow, or tells that a string or a comment is never closed, or that no lexeme
starts with `c`.
-/

namespace LosslessScss

open Character

/-- A kind and the text of a token of that kind. -/
structure Lexeme where
  kind : Kind
  text : List Char
  deriving DecidableEq, Repr

/-- The characters of a lexeme in the source. -/
def Lexeme.written (l : Lexeme) : List Char :=
  l.kind.opening.toList ++ l.text ++ l.kind.closing.toList

/-- The outcome of reading a lexeme: the lexeme and the text after it; or the delimiter
that a string or a comment lacks; or the character with which no lexeme starts. -/
inductive Reading where
  | lexeme (l : Lexeme) (rest : List Char)
  | unclosed (wanted : String)
  | unclassifiable (found : Char)
  deriving DecidableEq, Repr

namespace Reading

/-! ### Parts of a text -/

/-- The body of a block comment whose opening precedes the text, and what follows the
closing. -/
def splitComment : List Char → Option (List Char × List Char)
  | [] => none
  | c :: s =>
    if c = '*' ∧ s.head? = some '/' then some ([], s.tail)
    else (splitComment s).map fun (body, rest) => (c :: body, rest)

/-- The longest number at the beginning of a text that starts with one, and what follows
it.  A number has at most one point, and a digit after its point. -/
def splitNumber (s : List Char) : List Char × List Char :=
  if s.head? = some '.' then
    ('.' :: s.tail.takeWhile Char.isDigit, s.tail.dropWhile Char.isDigit)
  else
    match s.dropWhile Char.isDigit with
    | '.' :: d :: rest =>
      if d.isDigit then
        (s.takeWhile Char.isDigit ++ '.' :: d :: rest.takeWhile Char.isDigit,
          rest.dropWhile Char.isDigit)
      else (s.takeWhile Char.isDigit, '.' :: d :: rest)
    | rest => (s.takeWhile Char.isDigit, rest)

/-- Whether a text starts with a backslash that escapes the character after it.  The
character that marks the end of a text is never escaped. -/
def startsEscape : List Char → Bool
  | '\\' :: d :: _ => d != endMark
  | _ => false

/-- The longest run of escapes and of characters that continue an identifier, and what
follows it. -/
def splitIdentifier : List Char → List Char × List Char
  | [] => ([], [])
  | c :: s =>
    if c = '\\' then
      match s with
      | [] => ([], [c])
      | d :: s =>
        if d = endMark then ([], c :: d :: s)
        else
          let (text, rest) := splitIdentifier s
          (c :: d :: text, rest)
    else if continuesIdentifier c then
      let (text, rest) := splitIdentifier s
      (c :: text, rest)
    else ([], c :: s)

/-- The number of digits of the colour at the beginning of the text after a `#`: six or
three, or none when fewer than three hexadecimal digits follow. -/
def colourLength (s : List Char) : Nat :=
  match ((s.take 6).takeWhile isHexDigit).length with
  | 0 | 1 | 2 => 0
  | 6 => 6
  | _ => 3

/-! ### Lexemes -/

/-- The lexeme whose text is the longest run of characters with the property `p`. -/
def run (kind : Kind) (p : Char → Bool) (s : List Char) : Reading :=
  .lexeme ⟨kind, s.takeWhile p⟩ (s.dropWhile p)

/-- The lexeme whose text and rest are given, or the lack of its closing delimiter. -/
def closed (kind : Kind) : Option (List Char × List Char) → Reading
  | some (text, rest) => .lexeme ⟨kind, text⟩ rest
  | none => .unclosed kind.closing

/-- Reads the lexeme at the beginning of the text `c :: s`. -/
def ofText (c : Char) (s : List Char) : Reading :=
  let next := s.headD endMark
  if isBlank c then run .space isBlank (c :: s)
  else if c = '/' ∧ next = '/' then run .lineComment (· != '\n') s.tail
  else if c = '/' ∧ next = '*' then closed .blockComment (splitComment s.tail)
  else if c = '"' then closed .doubleQuoted (Text.splitQuoted '"' s)
  else if c = '\'' then closed .singleQuoted (Text.splitQuoted '\'' s)
  else if c = '@' ∧ startsName next then run .atKeyword continuesName s
  else if c = '$' ∧ startsName next then run .variableName continuesName s
  else if c = '#' ∧ 0 < colourLength s then
    .lexeme ⟨.colour, s.take (colourLength s)⟩ (s.drop (colourLength s))
  else if c.isDigit ∨ (c = '.' ∧ next.isDigit) then
    .lexeme ⟨.number, (splitNumber (c :: s)).1⟩ (splitNumber (c :: s)).2
  else if startsIdentifier c ∨ startsEscape (c :: s) then
    .lexeme ⟨.identifier, (splitIdentifier (c :: s)).1⟩ (splitIdentifier (c :: s)).2
  else if isPunctuation c then .lexeme ⟨.punctuation, [c]⟩ s
  else if isRepeatableOperator c then run .operator (· == c) (c :: s)
  else if isOperator c then .lexeme ⟨.operator, [c]⟩ s
  else .unclassifiable c

/-! ### A lexeme and its rest make up the text -/

theorem cons_tail_of_headD {s : List Char} {c : Char} (h : s.headD endMark = c)
    (mark : c ≠ endMark) :
  c :: s.tail = s
  := by
  cases s with
  | nil => exact absurd h.symm mark
  | cons d s => cases h; rfl

theorem splitComment_append {s body rest : List Char} (h : splitComment s = some (body, rest)) :
  s = body ++ '*' :: '/' :: rest
  := by
  induction s generalizing body with
  | nil => cases h
  | cons c s ih =>
    unfold splitComment at h
    split at h
    case isTrue close =>
      obtain ⟨rfl, close⟩ := close
      cases s with
      | nil => cases close
      | cons d s =>
        cases close
        cases h
        rfl
    case isFalse =>
      obtain ⟨⟨body', rest'⟩, found, pair⟩ := Option.map_eq_some_iff.mp h
      cases pair
      rw [ih found]
      rfl

theorem splitNumber_append (s : List Char) :
  (splitNumber s).1 ++ (splitNumber s).2 = s
  := by
  unfold splitNumber
  split
  case isTrue point =>
    cases s with
    | nil => cases point
    | cons c s =>
      cases point
      simp [List.takeWhile_append_dropWhile]
  case isFalse =>
    have whole := List.takeWhile_append_dropWhile (p := Char.isDigit) (l := s)
    split
    case h_1 d rest found =>
      rw [found] at whole
      split
      · simp [List.append_assoc, List.takeWhile_append_dropWhile, whole]
      · exact whole
    case h_2 => exact whole

theorem splitIdentifier_append (s : List Char) :
  (splitIdentifier s).1 ++ (splitIdentifier s).2 = s
  := by
  fun_induction splitIdentifier s <;> simp_all

theorem run_append {kind : Kind} {p : Char → Bool} {s rest : List Char} {l : Lexeme}
    (bare : kind.closing = "") (h : run kind p s = .lexeme l rest) :
  kind.opening.toList ++ s = l.written ++ rest
  := by
  cases h
  simp [Lexeme.written, bare, List.takeWhile_append_dropWhile]

theorem closed_eq_lexeme {kind : Kind} {found : Option (List Char × List Char)}
    {rest : List Char} {l : Lexeme} (h : closed kind found = .lexeme l rest) :
  l.kind = kind ∧ found = some (l.text, rest)
  := by
  cases found with
  | none => cases h
  | some pair => cases h; exact ⟨rfl, rfl⟩

/-- A lexeme that is read is the beginning of the text. -/
theorem ofText_append {c : Char} {s rest : List Char} {l : Lexeme}
    (h : ofText c s = .lexeme l rest) :
  c :: s = l.written ++ rest
  := by
  revert h
  fun_cases ofText c s with
  | case1 =>
    intro h
    exact run_append rfl h
  | case2 next _ slashes =>
    intro h
    obtain ⟨rfl, second⟩ := slashes
    rw [← cons_tail_of_headD second (by decide)]
    exact run_append rfl h
  | case3 next _ _ open_ =>
    intro h
    obtain ⟨rfl, second⟩ := open_
    obtain ⟨kind, found⟩ := closed_eq_lexeme h
    rw [← cons_tail_of_headD second (by decide), splitComment_append found]
    simp [Lexeme.written, kind, Kind.opening, Kind.closing]
  | case4 next _ _ _ quote =>
    intro h
    obtain ⟨kind, found⟩ := closed_eq_lexeme h
    rw [quote, Text.splitQuoted_append found]
    simp [Lexeme.written, kind, Kind.opening, Kind.closing]
  | case5 next _ _ _ _ quote =>
    intro h
    obtain ⟨kind, found⟩ := closed_eq_lexeme h
    rw [quote, Text.splitQuoted_append found]
    simp [Lexeme.written, kind, Kind.opening, Kind.closing]
  | case6 next _ _ _ _ _ sigil =>
    intro h
    rw [sigil.1]
    exact run_append rfl h
  | case7 next _ _ _ _ _ _ sigil =>
    intro h
    rw [sigil.1]
    exact run_append rfl h
  | case8 next _ _ _ _ _ _ _ sigil =>
    intro h
    cases h
    simp [Lexeme.written, Kind.opening, Kind.closing, sigil.1]
  | case9 =>
    intro h
    cases h
    simp [Lexeme.written, Kind.opening, Kind.closing, splitNumber_append]
  | case10 =>
    intro h
    cases h
    simp [Lexeme.written, Kind.opening, Kind.closing, splitIdentifier_append]
  | case11 =>
    intro h
    cases h
    rfl
  | case12 =>
    intro h
    exact run_append rfl h
  | case13 =>
    intro h
    cases h
    rfl
  | case14 =>
    intro h
    cases h

theorem splitNumber_ne_nil {c : Char} {s : List Char}
    (start : c.isDigit = true ∨ c = '.') :
  (splitNumber (c :: s)).1 ≠ []
  := by
  unfold splitNumber
  split
  case isTrue => simp
  case isFalse point =>
    have digit : c.isDigit = true := by
      rcases start with digit | rfl
      · exact digit
      · exact absurd rfl point
    have run : (c :: s).takeWhile Char.isDigit ≠ [] := by simp [digit]
    split
    · split
      · simp
      · exact run
    · exact run

theorem splitIdentifier_ne_nil {c : Char} {s : List Char}
    (start : startsIdentifier c = true ∨ startsEscape (c :: s) = true) :
  (splitIdentifier (c :: s)).1 ≠ []
  := by
  unfold splitIdentifier
  split
  case isTrue backslash =>
    subst backslash
    have escape : startsEscape ('\\' :: s) = true := by
      rcases start with start | escape
      · exact absurd start (by decide)
      · exact escape
    cases s with
    | nil => cases escape
    | cons d s =>
      have real : d ≠ endMark := by simpa [startsEscape] using escape
      simp [real]
  case isFalse backslash =>
    have start : startsIdentifier c = true := by
      rcases start with start | escape
      · exact start
      · unfold startsEscape at escape
        split at escape
        · next pair => exact absurd (List.cons.inj pair).1 backslash
        · cases escape
    have continues : continuesIdentifier c = true := by
      simp only [startsIdentifier, Bool.or_eq_true] at start
      simp only [continuesIdentifier, isAlphanumeric, Bool.or_eq_true]
      rcases start with letter | underscore
      · exact .inl (.inl (.inl letter))
      · exact .inl (.inr underscore)
    simp [continues]

/-- A lexeme that is read has at least one character. -/
theorem ofText_written_ne_nil {c : Char} {s rest : List Char} {l : Lexeme}
    (h : ofText c s = .lexeme l rest) :
  l.written ≠ []
  := by
  suffices bare : l.kind.opening = "" → l.kind.closing = "" → l.text ≠ [] by
    intro empty
    simp only [Lexeme.written, List.append_eq_nil_iff, String.toList_eq_nil_iff] at empty
    exact bare empty.1.1 empty.2 empty.1.2
  revert h
  fun_cases ofText c s with
  | case1 blank =>
    intro h _ _
    cases h
    simp [blank]
  | case9 next _ _ _ _ _ _ _ _ start =>
    intro h _ _
    cases h
    apply splitNumber_ne_nil
    rcases start with digit | point
    · exact .inl digit
    · exact .inr point.1
  | case10 next _ _ _ _ _ _ _ _ _ start =>
    intro h _ _
    cases h
    exact splitIdentifier_ne_nil start
  | case12 =>
    intro h _ _
    cases h
    simp
  | case3 | case4 | case5 =>
    intro h opens
    rw [(closed_eq_lexeme h).1] at opens
    exact absurd opens (by decide)
  | case2 | case6 | case7 | case8 =>
    intro h opens
    cases h
    simp [Kind.opening] at opens
  | case11 | case13 =>
    intro h _ _
    cases h
    simp
  | case14 =>
    intro h
    cases h

/-- The text after a lexeme is shorter than the text that starts with it. -/
theorem ofText_length_lt {c : Char} {s rest : List Char} {l : Lexeme}
    (h : ofText c s = .lexeme l rest) :
  rest.length < (c :: s).length
  := by
  rw [ofText_append h, List.length_append]
  have := List.length_pos_iff.mpr (ofText_written_ne_nil h)
  omega

end Reading

end LosslessScss
