import LosslessScss.Proofs.Lexicon.Tokens
import LosslessScss.Proofs.Stream

/-!
# Texts that no token begins

`Fault r m` says that the text `r` begins with no token and that `m` tells why: a comment or a
quoted text that nothing closes, or a character that no token starts with.  It speaks of the text
alone and not of how it is read.  The iterator over the tokens of a text hands out tokens that make
up the text, or those in front of the first place where the rest is faulty, and then a single
failure that stands at that place (`tokens_of_text`).
-/

namespace LosslessScss

open Character

/-! ### Faults -/

/-- No token starts with the character `c` in front of the text `s`. -/
structure BeginsNone (c : Char) (s : List Char) : Prop where
  blank : isBlank c = false
  quote : c ≠ '"' ∧ c ≠ '\''
  digit : c.isDigit = false
  letter : isAlphabetic c = false ∧ c ≠ '_'
  punctuation : isPunctuation c = false
  operator : isOperator c = false
  name : c = '@' → Stops startsName s
  escape : c = '\\' → s = [] ∨ s.head? = some endMark

/-- A text that begins with no token, and the message for it. -/
inductive Fault : List Char → String → Prop where
  | comment {s} (unclosed : ¬['*', '/'] <:+: s) : Fault ('/' :: '*' :: s) "Expected \x22*/\x22"
  | quoted {q s} (quote : q = '"' ∨ q = '\'')
      (unclosed : ∀ body r, s = body ++ q :: r → ¬QuotedText q body) :
      Fault (q :: s) ("Expected \x22" ++ q.toString ++ "\x22")
  | foreign {c s} (none : BeginsNone c s) :
      Fault (c :: s) ("Can't handle character: \x22" ++ c.toString ++ "\x22")

namespace Reading

variable {c : Char} {s : List Char}

theorem splitComment_eq_none_iff (s : List Char) :
  splitComment s = none ↔ ¬['*', '/'] <:+: s
  := by
  constructor
  · intro none
    induction s with
    | nil => exact fun inside => nomatch List.eq_nil_of_infix_nil inside
    | cons c s ih =>
      rw [splitComment] at none
      split at none
      case isTrue => cases none
      case isFalse goesOn =>
        rw [List.infix_cons_iff, not_or]
        refine ⟨?_, ih (Option.map_eq_none_iff.mp none)⟩
        rintro ⟨r, first⟩
        cases first
        exact goesOn ⟨rfl, rfl⟩
  · intro noEnd
    cases found : splitComment s with
    | none => rfl
    | some pair =>
      refine absurd ⟨pair.1, pair.2, ?_⟩ noEnd
      rw [splitComment_append found, List.append_assoc]
      rfl

theorem splitQuoted_eq_none_iff {q : Char} (noBackslash : q ≠ '\\') (s : List Char) :
  Text.splitQuoted q s = none ↔ ∀ body r, s = body ++ q :: r → ¬QuotedText q body
  := by
  constructor
  · rintro none body r rfl text
    rw [splitQuoted_of_text noBackslash text] at none
    cases none
  · intro unclosed
    cases found : Text.splitQuoted q s with
    | none => rfl
    | some pair =>
      exact absurd (text_of_splitQuoted found) (unclosed _ _ (Text.splitQuoted_append found))

theorem closed_eq_unclosed_iff {kind : Kind} {found : Option (List Char × List Char)}
    {wanted : String} :
  closed kind found = .unclosed wanted ↔ found = none ∧ wanted = kind.closing
  := by
  cases found with
  | none => simp [closed, eq_comm]
  | some pair => simp [closed]

theorem closed_ne_unclassifiable {kind : Kind} {found : Option (List Char × List Char)} {d : Char} :
  closed kind found ≠ .unclassifiable d
  := by
  cases found <;> exact nofun

theorem isOperator_of_isRepeatableOperator {c : Char} (repeatable : isRepeatableOperator c = true) :
  isOperator c = true
  := by
  simp only [isRepeatableOperator, List.contains_eq_mem, List.mem_cons, List.not_mem_nil, or_false,
    decide_eq_true_eq] at repeatable
  obtain rfl | rfl | rfl | rfl | rfl := repeatable
  all_goals rfl

theorem startsEscape_backslash {s : List Char} :
  startsEscape ('\\' :: s) = false ↔ s = [] ∨ s.head? = some endMark
  := by
  cases s with
  | nil => exact iff_of_true rfl (.inl rfl)
  | cons d s => simp [startsEscape]

theorem ofText_of_beginsNone (none : BeginsNone c s) :
  ofText c s = .unclassifiable c
  := by
  have other (d : Char) (other : isOperator d || isPunctuation d) : c ≠ d := by
    rintro rfl
    rw [none.operator, none.punctuation] at other
    cases other
  have noName : ¬(c = '@' ∧ startsName (s.headD endMark) = true) := by
    rintro ⟨sigil, start⟩
    rw [(none.name sigil).headD (by decide)] at start
    cases start
  have noIdentifier : ¬(startsIdentifier c = true ∨ startsEscape (c :: s) = true) := by
    rintro (start | escape)
    · simp [startsIdentifier, none.letter] at start
    · obtain rfl := startsEscape_eq_true escape
      rw [startsEscape_backslash.mpr (none.escape rfl)] at escape
      cases escape
  have noRepeatable : ¬isRepeatableOperator c = true := fun repeatable => by
    have operator := isOperator_of_isRepeatableOperator repeatable
    rw [none.operator] at operator
    cases operator
  unfold ofText
  dsimp only
  rw [if_neg (Bool.eq_false_iff.mp none.blank), if_neg fun opens => other '/' rfl opens.1,
    if_neg fun opens => other '/' rfl opens.1, if_neg none.quote.1, if_neg none.quote.2,
    if_neg noName, if_neg fun sigil => other '$' rfl sigil.1,
    if_neg fun sigil => other '#' rfl sigil.1,
    if_neg (not_or.mpr ⟨Bool.eq_false_iff.mp none.digit, fun point => other '.' rfl point.1⟩),
    if_neg noIdentifier, if_neg (Bool.eq_false_iff.mp none.punctuation), if_neg noRepeatable,
    if_neg (Bool.eq_false_iff.mp none.operator)]

theorem beginsNone_of_ofText {d : Char} (read : ofText c s = .unclassifiable d) :
  BeginsNone c s ∧ d = c
  := by
  revert read
  fun_cases ofText c s with
  | case3 | case4 | case5 => exact fun read => absurd read closed_ne_unclassifiable
  | case14 next blank _ _ double single name _ _ number identifier punctuation _ operator =>
    rintro ⟨⟩
    rw [not_or] at number identifier
    refine ⟨⟨Bool.eq_false_iff.mpr blank, ⟨double, single⟩, Bool.eq_false_iff.mpr number.1, ?_,
      Bool.eq_false_iff.mpr punctuation, Bool.eq_false_iff.mpr operator, ?_, ?_⟩, rfl⟩
    · simpa [startsIdentifier] using identifier.1
    · intro sigil
      exact .of_headD fun start => name ⟨sigil, start⟩
    · rintro rfl
      exact startsEscape_backslash.mp (Bool.eq_false_iff.mpr identifier.2)
  | _ => rintro ⟨⟩

theorem fault_of_unclosed {wanted : String} (read : ofText c s = .unclosed wanted) :
  Fault (c :: s) (Cause.expected wanted).message
  := by
  revert read
  fun_cases ofText c s with
  | case3 next _ _ opens =>
    intro read
    obtain ⟨none, rfl⟩ := closed_eq_unclosed_iff.mp read
    obtain ⟨rfl, second⟩ := opens
    rw [← cons_tail_of_headD second (by decide)]
    exact .comment ((splitComment_eq_none_iff _).mp none)
  | case4 _ _ _ _ quote =>
    intro read
    obtain ⟨none, rfl⟩ := closed_eq_unclosed_iff.mp read
    rw [quote]
    exact .quoted (.inl rfl) ((splitQuoted_eq_none_iff (by decide) s).mp none)
  | case5 _ _ _ _ _ quote =>
    intro read
    obtain ⟨none, rfl⟩ := closed_eq_unclosed_iff.mp read
    rw [quote]
    exact .quoted (.inr rfl) ((splitQuoted_eq_none_iff (by decide) s).mp none)
  | _ => rintro ⟨⟩

theorem ofText_comment {s : List Char} (unclosed : ¬['*', '/'] <:+: s) :
  ofText '/' ('*' :: s) = .unclosed "*/"
  := by
  change closed .blockComment (splitComment s) = _
  rw [(splitComment_eq_none_iff s).mpr unclosed]
  rfl

theorem ofText_quoted {q : Char} {s : List Char} (quote : q = '"' ∨ q = '\'')
    (unclosed : ∀ body r, s = body ++ q :: r → ¬QuotedText q body) :
  ofText q s = .unclosed q.toString
  := by
  obtain rfl | rfl := quote
  · change closed .doubleQuoted (Text.splitQuoted '"' s) = _
    rw [(splitQuoted_eq_none_iff (by decide) s).mpr unclosed]
    rfl
  · change closed .singleQuoted (Text.splitQuoted '\'' s) = _
    rw [(splitQuoted_eq_none_iff (by decide) s).mpr unclosed]
    rfl

end Reading

/-! ### Failures tell the faults -/

namespace Cursor

variable {c d : Cursor} {f : Failure} {m : String}

theorem fault_of_read (failed : c.read = (.error f, d)) :
  Fault c.rest f.cause.message
  := by
  unfold read at failed
  split at failed
  · cases failed
  next text =>
    rw [text]
    split at failed
    · cases failed
    next read =>
      cases failed
      exact Reading.fault_of_unclosed read
    next read =>
      cases failed
      obtain ⟨none, rfl⟩ := Reading.beginsNone_of_ofText read
      exact .foreign none

theorem read_unclosed {x : Char} {s : List Char} {wanted : String} (text : c.rest = x :: s)
    (read : Reading.ofText x s = .unclosed wanted) :
  c.read = (.error ⟨.expected wanted, c.position⟩, c.toEnd)
  := by
  obtain ⟨rest, p⟩ := c
  cases text
  simp only [Cursor.read, read]

theorem read_unclassifiable {x y : Char} {s : List Char} (text : c.rest = x :: s)
    (read : Reading.ofText x s = .unclassifiable y) :
  c.read = (.error ⟨.unclassifiable y, c.position⟩, c)
  := by
  obtain ⟨rest, p⟩ := c
  cases text
  simp only [Cursor.read, read]

theorem read_of_fault {r : List Char} (text : c.rest = r) (fault : Fault r m) :
  ∃ f d, c.read = (.error f, d) ∧ f.cause.message = m
  := by
  cases fault with
  | comment unclosed => exact ⟨_, _, read_unclosed text (Reading.ofText_comment unclosed), rfl⟩
  | quoted quote unclosed =>
    exact ⟨_, _, read_unclosed text (Reading.ofText_quoted quote unclosed), rfl⟩
  | foreign none => exact ⟨_, _, read_unclassifiable text (Reading.ofText_of_beginsNone none), rfl⟩

/-- Lexemes that make up a text and fit are read up to the place where the rest is faulty. -/
theorem readAll_of_fault {ls : List Lexeme} {r : List Char}
    (text : c.rest = ls.flatMap Lexeme.written ++ r) (lexical : LexicalBefore r ls)
    (fault : Fault r m) :
  c.readAll.tokens.map Token.lexeme = ls ∧ ∃ f, c.readAll.failure = some f ∧ f.cause.message = m ∧
    f.position = c.position.after (ls.flatMap Lexeme.written)
  := by
  obtain ⟨ts, lexemes, reads⟩ := readAll_of_lexicalBefore text lexical
  obtain ⟨f, d, failed, message⟩ := read_of_fault (c := ⟨r, _⟩) rfl fault
  rw [reads, readAll_of_error failed]
  exact ⟨by rwa [Stretch.behind, List.append_nil], f, rfl, message, position_of_error failed⟩

end Cursor

/-! ### What an iterator yields -/

namespace Lexer

/-- The answer of an iterator to the call that `n` others precede. -/
def Iterator.nth : Iterator → Nat → Option (Except Failure Token)
  | i, 0 => i.next.1
  | i, n + 1 => i.next.2.nth n

/-- Call by call an iterator answers with `xs`, and with nothing ever after. -/
def Iterator.Yields (i : Iterator) (xs : List (Except Failure Token)) : Prop :=
  ∀ n, i.nth n = xs[n]?

/-- What there is to yield of a stream: its tokens, and the failure that follows them. -/
def items (s : TokenStream) : List (Except Failure Token) :=
  s.tokens.map .ok ++
    match s.ending with
    | .finished _ => []
    | .broken f => [.error f]

variable {l l' : Lexer} {f : Failure} {t : Token}

theorem items_of_next (step : l.next = (.ok (some t), l')) :
  items l.stream = .ok t :: items l'.stream
  := by
  rw [stream_of_next step]
  rfl

theorem items_of_next_none (step : l.next = (.ok none, l')) :
  items l.stream = [] ∧ items l'.stream = []
  := by
  have answer : l.next.1 = .ok none := congrArg Prod.fst step
  rw [next_stream] at answer
  obtain ⟨none, reached⟩ := TokenStream.peek_eq_none answer
  obtain ⟨p, finished⟩ := (Ending.reach_eq_ok _).mp reached
  have ended : items l.stream = [] := by
    rw [items, finished, List.length_eq_zero_iff.mp (Nat.le_zero.mp none)]
    rfl
  refine ⟨ended, ?_⟩
  rw [stream_of_next step] at ended
  exact ended

theorem items_of_next_error (step : l.next = (.error f, l')) :
  items l.stream = [.error f]
  := by
  unfold next at step
  split at step
  next filled =>
    cases step
    obtain ⟨broken, short, _⟩ := fill_failed filled
    rw [items, broken, List.length_eq_zero_iff.mp (Nat.lt_one_iff.mp short)]
    rfl
  next => cases step

theorem Iterator.nth_of_failed {i : Iterator} (failed : i.failed = true) (n : Nat) :
  i.nth n = none
  := by
  have step : i.next = (none, i) := by rw [next, if_pos failed]
  induction n with
  | zero => rw [nth, step]
  | succ n ih => rw [nth, step, ih]

theorem Iterator.next_of_ok {t? : Option Token} (step : l.next = (.ok t?, l')) :
  l.tokens.next = (t?.map .ok, l'.tokens)
  := by
  simp [next, tokens, step]

theorem Iterator.next_of_error (step : l.next = (.error f, l')) :
  l.tokens.next = (some (.error f), ⟨l', true⟩)
  := by
  simp [next, tokens, step]

/-- The iterator over the tokens of a lexer yields those of its stream, and the failure that the
stream ends with. -/
theorem yields_stream (l : Lexer) :
  l.tokens.Yields (items l.stream)
  := by
  intro n
  induction n generalizing l with
  | zero =>
    rcases step : l.next with ⟨f | _ | t, l'⟩
    · rw [items_of_next_error step, Iterator.nth, Iterator.next_of_error step]
      rfl
    · rw [(items_of_next_none step).1, Iterator.nth, Iterator.next_of_ok step]
      rfl
    · rw [items_of_next step, Iterator.nth, Iterator.next_of_ok step]
      rfl
  | succ n ih =>
    rcases step : l.next with ⟨f | _ | t, l'⟩
    · rw [items_of_next_error step, Iterator.nth, Iterator.next_of_error step]
      exact Iterator.nth_of_failed rfl n
    · obtain ⟨none, none'⟩ := items_of_next_none step
      rw [none, Iterator.nth, Iterator.next_of_ok step, ih, none']
      rfl
    · rw [items_of_next step, Iterator.nth, Iterator.next_of_ok step, ih]
      rfl

/-- An iterator yields what its lexer hands out all at once. -/
theorem yields_drain (l : Lexer) :
  l.tokens.Yields (l.drain.1.map .ok ++ (l.drain.2.1.map .error).toList)
  := by
  have yields := l.yields_stream
  unfold items stream Stretch.stream at yields
  unfold drain
  cases failure : l.cursor.readAll.failure with
  | none =>
    simp only [failure] at yields ⊢
    exact yields
  | some f =>
    simp only [failure] at yields ⊢
    exact yields

end Lexer

/-- A text is handed out as tokens up to its end, or up to the first place where the rest of it is
faulty, followed by the failure of that place and by nothing else. -/
theorem tokens_of_text (source : String) :
  ((∃ ts : List Token, (Lexer.ofString source).tokens.Yields (ts.map .ok) ∧
        spelling ts = source.toList) ∨
    ∃ (ts : List Token) (f : Failure) (r : List Char),
      (Lexer.ofString source).tokens.Yields (ts.map .ok ++ [.error f]) ∧
        source.toList = spelling ts ++ r ∧ LexicalBefore r (ts.map Token.lexeme) ∧
        f.position = Position.origin.after (spelling ts) ∧ Fault r f.cause.message) ∧
  ∀ ls r m, source.toList = ls.flatMap Lexeme.written ++ r → LexicalBefore r ls → Fault r m →
    ∃ (ts : List Token) (f : Failure),
      (Lexer.ofString source).tokens.Yields (ts.map .ok ++ [.error f]) ∧
        ts.map Token.lexeme = ls ∧ f.position = Position.origin.after (ls.flatMap Lexeme.written) ∧
        f.cause.message = m
  := by
  have yields : (Lexer.ofString source).tokens.Yields
      ((Cursor.ofString source).readAll.tokens.map .ok ++
        ((Cursor.ofString source).readAll.failure.map .error).toList) :=
    Lexer.yields_drain (.ofString source)
  constructor
  · obtain ⟨d, passes, stop⟩ := (Cursor.ofString source).passes_stop
    have text : source.toList = _ ++ d.rest := passes.text
    obtain ⟨success, none, _⟩ | ⟨f, failed, read⟩ := stop
    · rw [success] at yields
      rw [none] at text
      refine .inl ⟨(Cursor.ofString source).readAll.tokens, ?_, ?_⟩
      · simpa using yields
      · simpa using text.symm
    · rw [failed] at yields
      refine .inr ⟨_, f, d.rest, yields, text, Cursor.lexicalBefore_readAll _ text, ?_,
        Cursor.fault_of_read read⟩
      rw [Cursor.position_of_error read, passes.place]
      rfl
  · intro ls r m text lexical fault
    obtain ⟨lexemes, f, failed, message, place⟩ :=
      Cursor.readAll_of_fault (c := .ofString source) text lexical fault
    rw [failed] at yields
    exact ⟨_, f, yields, lexemes, place, message⟩

end LosslessScss
