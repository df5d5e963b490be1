import LosslessScss.Proofs.Lexicon.Faults

/-!
# The character that marks the end of a text

What is looked at past the end of a text is the character U+0000, which may stand in a text as
well.  Replacing it by U+0001 (`Character.unmark`), which like it belongs to no class of characters
and takes one byte, is how to see whether it is ever taken for the end.  It is so in one place: a
backslash in front of it escapes nothing, and reading stops there.  Any other text is read as with
U+0001 in it (`tokenize_unmark`).
-/

namespace LosslessScss

open Character

/-! ### Characters -/

/-- A character, and U+0001 for the one that marks the end of a text. -/
def Character.unmark (c : Char) : Char := if c = endMark then '\x01' else c

namespace Character

variable {c d : Char}

theorem unmark_ne_endMark (c : Char) :
  unmark c ≠ endMark
  := by
  unfold unmark
  split
  case isTrue => decide
  case isFalse real => exact real

/-- No character but the two that are replaced and put in is concerned. -/
theorem unmark_eq_iff (plain : d ≠ endMark ∧ d ≠ '\x01') :
  unmark c = d ↔ c = d
  := by
  unfold unmark
  split
  case isTrue mark => exact iff_of_false plain.2.symm (mark ▸ plain.1.symm)
  case isFalse => rfl

/-- A class that has both or none of U+0000 and U+0001 does not tell them apart. -/
theorem class_unmark {p : Char → Bool} (same : p endMark = p '\x01') (c : Char) :
  p (unmark c) = p c
  := by
  unfold unmark
  split
  case isTrue mark => rw [mark, same]
  case isFalse => rfl

variable {s : List Char}

/-- What is seen at the beginning of a text is in the same classes, also where the text is at its
end. -/
theorem class_headD_unmark {p : Char → Bool} (same : p endMark = p '\x01') (s : List Char) :
  p ((s.map unmark).headD endMark) = p (s.headD endMark)
  := by
  cases s with
  | nil => rfl
  | cons c s => exact class_unmark same c

theorem headD_unmark_eq_iff (plain : d ≠ endMark ∧ d ≠ '\x01') :
  (s.map unmark).headD endMark = d ↔ s.headD endMark = d
  := by
  cases s with
  | nil => rfl
  | cons c s => exact unmark_eq_iff plain

theorem head?_unmark_eq_iff (plain : d ≠ endMark ∧ d ≠ '\x01') :
  (s.map unmark).head? = some d ↔ s.head? = some d
  := by
  cases s with
  | nil => rfl
  | cons c s =>
    simp only [List.map_cons, List.head?_cons, Option.some.injEq]
    exact unmark_eq_iff plain

theorem takeWhile_unmark {p : Char → Bool} (same : p endMark = p '\x01') (s : List Char) :
  (s.map unmark).takeWhile p = (s.takeWhile p).map unmark
  := by
  rw [List.takeWhile_map, show p ∘ unmark = p from funext (class_unmark same)]

theorem dropWhile_unmark {p : Char → Bool} (same : p endMark = p '\x01') (s : List Char) :
  (s.map unmark).dropWhile p = (s.dropWhile p).map unmark
  := by
  rw [List.dropWhile_map, show p ∘ unmark = p from funext (class_unmark same)]

/-- A text is the same without the mark if its characters are. -/
theorem map_unmark {m : String} (same : m.toList.map unmark = m.toList) :
  m.map unmark = m
  := by
  apply String.toList_inj.mp
  rw [String.toList_map, same]

end Character

/-- A place depends on the length of the text in front, in characters and in bytes, and on its
lines. -/
theorem Position.after_unmark (p : Position) (cs : List Char) :
  p.after (cs.map unmark) = p.after cs
  := by
  induction cs generalizing p with
  | nil => rfl
  | cons c cs ih =>
    have step : p.advance (unmark c) = p.advance c := by
      have bytes : (unmark c).utf8Size = c.utf8Size := by
        unfold unmark
        split
        case isTrue mark => exact mark ▸ rfl
        case isFalse => rfl
      simp only [advance, unmark_eq_iff (d := '\n') (by decide), bytes]
    rw [List.map_cons, after_cons, after_cons, ih, step]

/-! ### Parts of a text -/

/-- Both parts of a text that is split, without the mark. -/
def unmarkBoth : List Char × List Char → List Char × List Char :=
  Prod.map (List.map unmark) (List.map unmark)

/-- A text that begins with a backslash in front of the character that marks the end. -/
def Blind (r : List Char) : Prop := ∃ s, r = '\\' :: endMark :: s

theorem Text.splitQuoted_unmark {q : Char} (quote : q = '"' ∨ q = '\'') (s : List Char) :
  Text.splitQuoted q (s.map unmark) = (Text.splitQuoted q s).map unmarkBoth
  := by
  have sameQuote (c : Char) : unmark c = q ↔ c = q := by
    obtain rfl | rfl := quote <;> exact unmark_eq_iff (by decide)
  have sameBackslash (c : Char) : unmark c = '\\' ↔ c = '\\' :=
    unmark_eq_iff (by decide)
  fun_induction Text.splitQuoted q s with
  | case1 => rfl
  | case2 =>
    rw [List.map_cons, Text.splitQuoted.eq_def]
    exact if_pos ((sameQuote _).mpr rfl)
  | case3 noQuote =>
    rw [List.map_cons, Text.splitQuoted.eq_def]
    exact if_neg (mt (sameQuote _).mp noQuote)
  | case4 d s noQuote ih =>
    rw [List.map_cons, Text.splitQuoted.eq_def]
    simp only [List.map_cons, sameQuote, sameBackslash, noQuote, ih, ↓reduceIte, Option.map_map]
    rfl
  | case5 c s noQuote noBackslash ih =>
    rw [List.map_cons, Text.splitQuoted.eq_def]
    simp only [sameQuote, sameBackslash, noQuote, noBackslash, ih, ↓reduceIte, Option.map_map]
    rfl

namespace Reading

variable {c : Char} {s : List Char}

theorem splitComment_unmark (s : List Char) :
  splitComment (s.map unmark) = (splitComment s).map unmarkBoth
  := by
  induction s with
  | nil => rfl
  | cons c s ih =>
    simp only [List.map_cons, splitComment, unmark_eq_iff (d := '*') (by decide),
      head?_unmark_eq_iff (d := '/') (by decide), ih]
    split
    case isTrue => simp [unmarkBoth]
    case isFalse =>
      rw [Option.map_map, Option.map_map]
      rfl

theorem splitNumber_unmark (s : List Char) :
  splitNumber (s.map unmark) = unmarkBoth (splitNumber s)
  := by
  have taken := takeWhile_unmark (p := Char.isDigit) rfl
  have left := dropWhile_unmark (p := Char.isDigit) rfl
  unfold splitNumber
  simp only [head?_unmark_eq_iff (d := '.') (by decide), ← List.map_tail, taken, left]
  split
  case isTrue => rfl
  case isFalse =>
    generalize s.dropWhile Char.isDigit = r
    by_cases point : r.head? = some '.'
    · obtain ⟨r, rfl⟩ := List.head?_eq_some_iff.mp point
      cases r with
      | nil => rfl
      | cons d r =>
        simp only [List.map_cons, show unmark '.' = '.' from rfl,
          class_unmark (p := Char.isDigit) rfl, taken, left]
        split
        case isTrue => simp [unmarkBoth, show unmark '.' = '.' from rfl]
        case isFalse => rfl
    · have point' : (r.map unmark).head? ≠ some '.' :=
        mt (head?_unmark_eq_iff (by decide)).mp point
      split
      case h_1 same => exact absurd (by rw [same]; rfl) point'
      case h_2 =>
        split
        case h_1 => exact absurd rfl point
        case h_2 => rfl

/-- A run of characters of an identifier goes on in front of the same ones, unless a backslash
stands there that the mark follows. -/
theorem splitIdentifier_unmark (sight : ¬Blind (splitIdentifier s).2) :
  splitIdentifier (s.map unmark) = unmarkBoth (splitIdentifier s)
  := by
  have sameBackslash (c : Char) : unmark c = '\\' ↔ c = '\\' :=
    unmark_eq_iff (by decide)
  fun_induction splitIdentifier s with
  | case1 => rfl
  | case2 => rfl
  | case3 s => exact absurd ⟨s, rfl⟩ sight
  | case4 d s real text rest split ih =>
    rw [split] at ih
    rw [List.map_cons, splitIdentifier.eq_def]
    simp only [List.map_cons, sameBackslash, unmark_ne_endMark, ih sight, ↓reduceIte]
    rfl
  | case5 c s noBackslash continues text rest split ih =>
    rw [split] at ih
    rw [List.map_cons, splitIdentifier.eq_def]
    simp only [sameBackslash, noBackslash, class_unmark (p := continuesIdentifier) rfl, continues,
      ih sight, ↓reduceIte]
    rfl
  | case6 c s noBackslash stops =>
    rw [List.map_cons, splitIdentifier.eq_def]
    simp only [sameBackslash, noBackslash, class_unmark (p := continuesIdentifier) rfl, stops,
      ↓reduceIte]
    rfl

theorem startsEscape_unmark {r : List Char} (sight : ¬Blind r) :
  startsEscape (r.map unmark) = startsEscape r
  := by
  match r with
  | [] => rfl
  | c :: r =>
    by_cases backslash : c = '\\'
    · subst backslash
      cases r with
      | nil => rfl
      | cons d r =>
        have real : d ≠ endMark := fun mark => sight ⟨r, by rw [mark]⟩
        rw [List.map_cons, List.map_cons, show unmark '\\' = '\\' from rfl, startsEscape,
          startsEscape, bne_iff_ne.mpr real, bne_iff_ne.mpr (unmark_ne_endMark d)]
    · have backslash' : unmark c ≠ '\\' := mt (unmark_eq_iff (by decide)).mp backslash
      rw [Bool.eq_iff_iff]
      exact iff_of_false (mt startsEscape_eq_true backslash') (mt startsEscape_eq_true backslash)

theorem colourLength_unmark (s : List Char) :
  colourLength (s.map unmark) = colourLength s
  := by
  simp only [colourLength, ← List.map_take, takeWhile_unmark (p := isHexDigit) rfl,
    List.length_map]

end Reading

/-! ### Lexemes -/

theorem opening_unmark (kind : Kind) :
  kind.opening.toList.map Character.unmark = kind.opening.toList
  := by
  cases kind <;> rfl

theorem closing_unmark (kind : Kind) :
  kind.closing.toList.map Character.unmark = kind.closing.toList
  := by
  cases kind <;> rfl

/-- A lexeme without the mark. -/
def Lexeme.unmark (l : Lexeme) : Lexeme := { l with text := l.text.map Character.unmark }

theorem Lexeme.written_unmark (l : Lexeme) :
  l.unmark.written = l.written.map Character.unmark
  := by
  simp only [written, unmark, List.map_append, opening_unmark, closing_unmark]

namespace Reading

/-- The outcome of reading a text without the mark. -/
def unmark : Reading → Reading
  | lexeme l rest => .lexeme l.unmark (rest.map Character.unmark)
  | unclosed wanted => .unclosed (wanted.map Character.unmark)
  | unclassifiable found => .unclassifiable (Character.unmark found)

/-- The readings of a text and of the same one without the mark agree, unless the lexeme that is
read leaves a text that begins with a backslash in front of the mark. -/
def Agrees (r r' : Reading) : Prop :=
  (∀ l rest, r = .lexeme l rest → ¬Blind rest) → r' = r.unmark

namespace Agrees

theorem ite {c c' : Prop} [Decidable c] [Decidable c'] {r₁ r₂ r₁' r₂' : Reading} (same : c' ↔ c)
    (yes : c → Agrees r₁ r₁') (no : Agrees r₂ r₂') :
  Agrees (if c then r₁ else r₂) (if c' then r₁' else r₂')
  := by
  simp only [same]
  split
  case isTrue holds => exact yes holds
  case isFalse => exact no

theorem run (kind : Kind) {p : Char → Bool} (same : p endMark = p '\x01') (s : List Char) :
  Agrees (run kind p s) (run kind p (s.map Character.unmark))
  := by
  intro _
  rw [Reading.run, takeWhile_unmark same, dropWhile_unmark same]
  rfl

theorem closed (kind : Kind) {found found' : Option (List Char × List Char)}
    (same : found' = found.map unmarkBoth) :
  Agrees (closed kind found) (closed kind found')
  := by
  intro _
  subst same
  cases found with
  | none => exact congrArg Reading.unclosed (map_unmark (closing_unmark kind)).symm
  | some => rfl

end Agrees

/-- A text is read as the same one without the mark, unless it begins with a backslash in front of
the mark or the lexeme stops there. -/
theorem ofText_unmark {c : Char} {s : List Char} (sight : ¬Blind (c :: s)) :
  Agrees (ofText c s) (ofText (Character.unmark c) (s.map Character.unmark))
  := by
  have is {d : Char} (plain : d ≠ endMark ∧ d ≠ '\x01') := unmark_eq_iff (c := c) plain
  have isNext {d : Char} (plain : d ≠ endMark ∧ d ≠ '\x01') := headD_unmark_eq_iff (s := s) plain
  unfold ofText
  dsimp only
  simp only [class_unmark (p := isBlank) rfl c, class_unmark (p := Char.isDigit) rfl c,
    class_unmark (p := startsIdentifier) rfl c, class_unmark (p := isPunctuation) rfl c,
    class_unmark (p := isRepeatableOperator) rfl c, class_unmark (p := isOperator) rfl c,
    class_headD_unmark (p := startsName) rfl s, class_headD_unmark (p := Char.isDigit) rfl s,
    startsEscape_unmark sight, colourLength_unmark, ← List.map_tail, ← List.map_cons]
  apply Agrees.ite .rfl fun _ => .run _ rfl (c :: s)
  apply Agrees.ite (and_congr (is (by decide)) (isNext (by decide))) fun _ => .run _ rfl s.tail
  apply Agrees.ite (and_congr (is (by decide)) (isNext (by decide)))
    fun _ => .closed _ (splitComment_unmark _)
  apply Agrees.ite (is (by decide)) fun _ => .closed _ (Text.splitQuoted_unmark (.inl rfl) s)
  apply Agrees.ite (is (by decide)) fun _ => .closed _ (Text.splitQuoted_unmark (.inr rfl) s)
  apply Agrees.ite (and_congr_left' (is (by decide))) fun _ => .run _ rfl s
  apply Agrees.ite (and_congr_left' (is (by decide))) fun _ => .run _ rfl s
  apply Agrees.ite (and_congr_left' (is (by decide)))
  · intro _ _
    rw [← List.map_take, ← List.map_drop]
    rfl
  apply Agrees.ite (or_congr_right (and_congr_left' (is (by decide))))
  · intro _ _
    rw [splitNumber_unmark]
    rfl
  apply Agrees.ite .rfl
  · -- Only an identifier can stop at a backslash that the mark follows.
    intro _ others
    rw [splitIdentifier_unmark (others _ _ rfl)]
    rfl
  apply Agrees.ite .rfl fun _ _ => rfl
  apply Agrees.ite .rfl
  · intro repeatable
    have real : c ≠ endMark := by
      rintro rfl
      cases repeatable
    have other : c ≠ '\x01' := by
      rintro rfl
      cases repeatable
    rw [(is ⟨real, other⟩).mpr rfl]
    apply Agrees.run
    rw [beq_eq_false_iff_ne.mpr real.symm, beq_eq_false_iff_ne.mpr other.symm]
  exact .ite .rfl (fun _ _ => rfl) fun _ => rfl

end Reading

/-! ### Tokens -/

/-- A token without the mark in its text. -/
def Token.unmark (t : Token) : Token := { t with text := t.text.map Character.unmark }

/-- A cause without the mark. -/
def Cause.unmark : Cause → Cause
  | expected wanted => .expected (wanted.map Character.unmark)
  | unexpected found => .unexpected (Character.unmark found)
  | unclassifiable found => .unclassifiable (Character.unmark found)
  | nestedTooDeep => .nestedTooDeep
  | endOfInput => .endOfInput
  | remark message => .remark (message.map Character.unmark)

/-- A failure without the mark in its message. -/
def Failure.unmark (f : Failure) : Failure := { f with cause := f.cause.unmark }

theorem Cause.message_unmark (c : Cause) :
  c.unmark.message = c.message.map Character.unmark
  := by
  have around {p m m' q : String} (front : p.toList.map Character.unmark = p.toList)
      (within : m'.toList = m.toList.map Character.unmark)
      (back : q.toList.map Character.unmark = q.toList) :
      p ++ m' ++ q = (p ++ m ++ q).map Character.unmark := by
    apply String.toList_inj.mp
    simp only [String.toList_map, String.toList_append, List.map_append, front, within, back]
  have single (d : Char) :
      (Character.unmark d).toString.toList = d.toString.toList.map Character.unmark := by
    rw [Char.toString_eq_singleton, Char.toString_eq_singleton, String.toList_singleton,
      String.toList_singleton, List.map_singleton]
  cases c with
  | expected wanted => exact around rfl String.toList_map rfl
  | unexpected found => exact around rfl (single found) rfl
  | unclassifiable found => exact around rfl (single found) rfl
  | nestedTooDeep => exact (map_unmark rfl).symm
  | endOfInput => exact (map_unmark rfl).symm
  | remark message => rfl

/-- The cursor at the same place of the text without the mark. -/
def Cursor.unmark (c : Cursor) : Cursor := { c with rest := c.rest.map Character.unmark }

/-- The stretch of the same text without the mark. -/
def Stretch.unmark (s : Stretch) : Stretch :=
  ⟨s.tokens.map Token.unmark, s.failure.map Failure.unmark, s.cursor.unmark⟩

theorem Token.ofLexeme_unmark (l : Lexeme) (p : Position) :
  Token.ofLexeme l.unmark p = (Token.ofLexeme l p).unmark
  := by
  have text : String.ofList (l.text.map Character.unmark)
      = (String.ofList l.text).map Character.unmark := by
    apply String.toList_inj.mp
    rw [String.toList_map, String.toList_ofList, String.toList_ofList]
  rw [ofLexeme, Lexeme.written_unmark, Position.after_unmark]
  simp only [Lexeme.unmark, text]
  rfl

namespace Cursor

variable {c d : Cursor}

/-- Nothing is read of a backslash in front of the mark, and the cursor stays there. -/
theorem read_of_blind (blind : Blind c.rest) :
  c.read = (.error ⟨.unclassifiable '\\', c.position⟩, c)
  := by
  obtain ⟨s, text⟩ := blind
  exact read_unclassifiable text rfl

theorem read_unmark (sight : ¬Blind c.rest)
    (onward : ∀ t d, c.read = (.ok (some t), d) → ¬Blind d.rest) :
  c.unmark.read
    = ((c.read.1.map (Option.map Token.unmark)).mapError Failure.unmark, c.read.2.unmark)
  := by
  obtain ⟨rest, p⟩ := c
  cases rest with
  | nil => rfl
  | cons x s =>
    have agrees := Reading.ofText_unmark sight
    unfold read at onward ⊢
    simp only [unmark, List.map_cons] at onward ⊢
    cases read : Reading.ofText x s with
    | lexeme l rest =>
      simp only [read] at onward agrees ⊢
      have there : ¬Blind rest := onward _ _ rfl
      rw [agrees (by rintro _ _ ⟨⟩; exact there)]
      simp only [Reading.unmark, Token.ofLexeme_unmark, Lexeme.written_unmark,
        Position.after_unmark]
      rfl
    | unclosed wanted =>
      rw [read] at agrees
      rw [agrees (by rintro _ _ ⟨⟩)]
      simp only [toEnd, ← List.map_cons, Position.after_unmark]
      rfl
    | unclassifiable =>
      rw [read] at agrees
      rw [agrees (by rintro _ _ ⟨⟩)]
      rfl

/-- A text that reading does not leave at a backslash in front of the mark is read as without the
mark. -/
theorem readAll_unmark (sight : ¬Blind c.readAll.cursor.rest) :
  c.unmark.readAll = c.readAll.unmark
  := by
  fun_induction readAll c with
  | case1 c f d read =>
    have sightHere : ¬Blind c.rest := by
      intro blind
      rw [read_of_blind blind] at read
      cases read
      exact sight blind
    have unmarked := read_unmark sightHere (by rw [read]; rintro _ _ ⟨⟩)
    rw [read] at unmarked
    exact readAll_of_error unmarked
  | case2 c d read =>
    obtain ⟨rfl, none⟩ := read_eq_none read
    have unmarked : d.unmark.rest = [] := by rw [unmark, none]; rfl
    exact readAll_of_rest unmarked
  | case3 c t d read ih =>
    have sightHere : ¬Blind c.rest := by
      intro blind
      rw [read_of_blind blind] at read
      cases read
    have sightThere : ¬Blind d.rest := by
      intro blind
      rw [Stretch.cons, readAll_of_error (read_of_blind blind)] at sight
      exact sight blind
    have unmarked := read_unmark sightHere (by
      intro _ _ same
      rw [read] at same
      cases same
      exact sightThere)
    rw [read] at unmarked
    rw [readAll_of_some unmarked, ih sight]
    rfl

end Cursor

/-! ### Texts -/

/-- Two outcomes of reading a text are the same but for the mark: tokens of the same kinds at the
same places, or failures at the same place, with the same texts and messages. -/
def SameUnmarked : Except Failure (List Token) → Except Failure (List Token) → Prop
  | .ok ts, .ok us => us = ts.map Token.unmark
  | .error f, .error g =>
    g.position = f.position ∧ g.cause.message = f.cause.message.map Character.unmark
  | _, _ => False

theorem sameUnmarked_of_readAll {source : String}
    (same : (Cursor.ofString source).unmark.readAll = (Cursor.ofString source).readAll.unmark) :
  SameUnmarked (tokenize source) (tokenize (source.map Character.unmark))
  := by
  have start : Cursor.ofString (source.map Character.unmark) = (Cursor.ofString source).unmark := by
    rw [Cursor.ofString, String.toList_map]
    rfl
  unfold tokenize Lexer.all Lexer.drain Lexer.ofString Lexer.ofCursor
  simp only [start, same, List.nil_append]
  cases failure : (Cursor.ofString source).readAll.failure with
  | none => simp [Stretch.unmark, failure, SameUnmarked]
  | some f =>
    simp only [Stretch.unmark, failure, Option.map_some, SameUnmarked]
    exact ⟨rfl, f.cause.message_unmark⟩

theorem Cursor.stays_of_error {c d : Cursor} {f : Failure} (failed : c.read = (.error f, d))
    (some : d.rest ≠ []) :
  d = c
  := by
  unfold read at failed
  split at failed
  · cases failed
  · split at failed
    · cases failed
    · cases failed
      exact absurd rfl some
    · cases failed
      rfl

/-- Reading leaves the cursor of a text at the place where it stops, which begins a text that is
not read. -/
theorem Cursor.stopped_of_blind {c : Cursor} (blind : Blind c.readAll.cursor.rest) :
  ∃ before, c.rest = before ++ c.readAll.cursor.rest ∧
    c.readAll.failure = some ⟨.unclassifiable '\\', c.position.after before⟩
  := by
  obtain ⟨d, passes, ⟨_, none, last⟩ | ⟨f, failed, read⟩⟩ := c.passes_stop
  · obtain ⟨s, text⟩ := blind
    rw [last, none] at text
    cases text
  · have stays : c.readAll.cursor = d := by
      obtain ⟨s, text⟩ := blind
      exact stays_of_error read (by rw [text]; exact List.cons_ne_nil _ _)
    rw [stays] at blind read ⊢
    rw [read_of_blind blind] at read
    cases read
    exact ⟨_, passes.text, passes.place ▸ failed⟩

/-- A text whose reading fails is faulty from the place of the failure on. -/
theorem fault_of_tokenize {source : String} {f : Failure} {before r : List Char}
    (failed : tokenize source = .error f) (text : source.toList = before ++ r)
    (place : f.position = Position.origin.after before) :
  Fault r f.cause.message
  := by
  have failure := tokenize_eq_error_iff.mp failed
  obtain ⟨d, passes, ⟨success, _⟩ | ⟨g, failed, read⟩⟩ := (Cursor.ofString source).passes_stop
  · rw [success] at failure
    cases failure
  · obtain rfl : g = f := Option.some.inj (failed.symm.trans failure)
    have split : before ++ r = spelling _ ++ d.rest := text.symm.trans passes.text
    -- the place counts the characters in front
    rw [Cursor.position_of_error read, passes.place] at place
    have index := congrArg Position.index place.symm
    rw [Position.index_after, Position.index_after] at index
    rw [(List.append_inj split (Nat.add_left_cancel index)).2]
    exact Cursor.fault_of_read read

/-- A backslash is no fault in front of a character but the mark. -/
theorem not_fault_backslash {d : Char} {s : List Char} {m : String} (real : d ≠ endMark) :
  ¬Fault ('\\' :: d :: s) m
  := by
  intro fault
  cases fault with
  | quoted quote => cases quote <;> contradiction
  | foreign none =>
    obtain none | mark := none.escape rfl
    · cases none
    · exact real (Option.some.inj mark)

/-- A text is read as the same one with U+0001 for each U+0000, unless reading stops at a backslash
that U+0000 follows; and reading never stops at a backslash that another character follows. -/
theorem tokenize_unmark (source : String) :
  (SameUnmarked (tokenize source) (tokenize (source.map Character.unmark)) ↔
    ¬∃ before after : List Char, source.toList = before ++ '\\' :: endMark :: after ∧
      tokenize source = .error ⟨.unclassifiable '\\', Position.origin.after before⟩) ∧
  ∀ (before after : List Char) (d : Char) (f : Failure),
    source.toList = before ++ '\\' :: d :: after → tokenize source = .error f →
      f.position = Position.origin.after before → d = endMark
  := by
  refine ⟨⟨?_, ?_⟩, ?_⟩
  · rintro same ⟨before, after, text, failed⟩
    rw [failed] at same
    have text' : (source.map Character.unmark).toList
        = before.map Character.unmark ++ '\\' :: '\x01' :: after.map Character.unmark := by
      rw [String.toList_map, text, List.map_append]
      rfl
    cases outcome : tokenize (source.map Character.unmark) with
    | ok us =>
      rw [outcome] at same
      exact same
    | error g =>
      rw [outcome] at same
      have place : g.position = Position.origin.after (before.map Character.unmark) :=
        same.1.trans (Position.after_unmark _ before).symm
      exact not_fault_backslash (by decide) (fault_of_tokenize outcome text' place)
  · intro sight
    apply sameUnmarked_of_readAll
    apply Cursor.readAll_unmark
    intro blind
    obtain ⟨before, text, failed⟩ := Cursor.stopped_of_blind blind
    obtain ⟨after, stop⟩ := blind
    exact sight ⟨before, after, stop ▸ text, tokenize_eq_error_iff.mpr failed⟩
  · intro before after d f text failed place
    by_contra real
    exact not_fault_backslash real (fault_of_tokenize failed text place)

/-- The mark is taken for the end of the text behind a backslash. -/
theorem not_sameUnmarked_backslash :
  ¬SameUnmarked (tokenize "\\\x00") (tokenize ("\\\x00".map Character.unmark))
  := by
  have replaced : "\\\x00".map Character.unmark = "\\\x01" :=
    String.toList_inj.mp (String.toList_map.trans rfl)
  have stops : tokenize "\\\x00" = .error ⟨.unclassifiable '\\', .origin⟩ := by decide +kernel
  have reads : tokenize "\\\x01" = .ok [⟨.identifier, "\\\x01", .origin, ⟨2, 1, 2, 2⟩⟩] := by
    decide +kernel
  rw [replaced, stops, reads]
  exact id

end LosslessScss
