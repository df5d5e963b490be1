import LosslessScss.Proofs.Lexicon.Reading
import LosslessScss.Proofs.Reading.Append

/-!
# The lexemes of a text

The text of lexemes that all fit is read as these lexemes, and no other text can be read: the
lexemes `ls` are those of a text if and only if they make it up and every one of them fits in
front of those behind it (`tokenize_iff_lexical`).  So a text is made up in at most one such way.
-/

namespace LosslessScss

namespace Cursor

variable {c d : Cursor} {l : Lexeme} {r : List Char}

/-- A lexeme that comes first and fits is read. -/
theorem read_of_fits (text : c.rest = l.written ++ r) (fits : l.Fits r) :
  c.read = (.ok (some (.ofLexeme l c.position)), ⟨r, c.position.after l.written⟩)
  := by
  obtain ⟨x, s, some⟩ := List.exists_cons_of_ne_nil fits.written_ne_nil
  rw [some, List.cons_append] at text
  have found : Reading.ofText x (s ++ r) = .lexeme l r := by
    apply Reading.ofText_of_fits fits
    rw [some, List.cons_append]
  unfold read
  split
  next none => rw [none] at text; cases text
  next text' =>
    rw [text'] at text
    cases text
    rw [found]

theorem fits_of_read {t : Token} (h : c.read = (.ok (some t), d)) :
  t.lexeme.Fits d.rest
  := by
  unfold read at h
  split at h
  · cases h
  · split at h
    next found =>
      cases h
      rw [Token.lexeme_ofLexeme]
      exact Reading.fits_of_ofText found
    · cases h
    · cases h

/-- Tokens that are read are lexemes that fit in front of the text that is left. -/
theorem lexicalBefore_readAll (c : Cursor) (text : c.rest = spelling c.readAll.tokens ++ r) :
  LexicalBefore r (c.readAll.tokens.map Token.lexeme)
  := by
  fun_induction readAll c with
  | case1 | case2 => trivial
  | case3 _ t d read ih =>
    have whole := (Passes.of_read read).text
    rw [text, Stretch.cons, spelling_cons, spelling_cons, spelling_nil, List.append_nil,
      List.append_assoc, List.append_cancel_left_eq] at whole
    refine ⟨?_, ih whole.symm⟩
    rw [List.flatMap_map]
    exact whole ▸ fits_of_read read

/-- Tokens that are read up to the end of a text are lexemes that fit. -/
theorem lexical_readAll (c : Cursor) (h : c.readAll.failure = none) :
  Lexical (c.readAll.tokens.map Token.lexeme)
  := by
  obtain ⟨passes, text⟩ := passes_readAll c h
  rw [← lexicalBefore_nil_iff]
  apply lexicalBefore_readAll
  rw [passes.text, text]

/-- Lexemes that come first and fit are read, and then what can be read behind them. -/
theorem readAll_of_lexicalBefore {ls : List Lexeme} (text : c.rest = ls.flatMap Lexeme.written ++ r)
    (lexical : LexicalBefore r ls) :
  ∃ ts, ts.map Token.lexeme = ls ∧
    c.readAll = (readAll ⟨r, c.position.after (ls.flatMap Lexeme.written)⟩).behind ts
  := by
  induction ls generalizing c with
  | nil =>
    obtain ⟨rest, p⟩ := c
    cases text
    exact ⟨[], rfl, rfl⟩
  | cons l ls ih =>
    obtain ⟨fits, others⟩ := lexical
    rw [List.flatMap_cons, List.append_assoc] at text
    obtain ⟨ts, lexemes, reads⟩ := @ih ⟨_, c.position.after l.written⟩ rfl others
    refine ⟨.ofLexeme l c.position :: ts, ?_, ?_⟩
    · rw [List.map_cons, lexemes, Token.lexeme_ofLexeme]
    · rw [readAll_of_some (read_of_fits text fits), reads, List.flatMap_cons,
        Position.after_append]
      rfl

/-- Lexemes that make up a text and fit are read. -/
theorem readAll_of_lexical {ls : List Lexeme} (text : c.rest = ls.flatMap Lexeme.written)
    (lexical : Lexical ls) :
  c.readAll.failure = none ∧ c.readAll.tokens.map Token.lexeme = ls
  := by
  rw [← List.append_nil (ls.flatMap Lexeme.written)] at text
  obtain ⟨ts, lexemes, reads⟩ :=
    readAll_of_lexicalBefore text (lexicalBefore_nil_iff.mpr lexical)
  rw [reads, readAll_of_rest rfl]
  exact ⟨rfl, by rwa [Stretch.behind, List.append_nil]⟩

end Cursor

/-- The lexer hands out the lexemes that make up a text and fit, and comes to its end. -/
theorem Lexer.stream_of_lexical {source : String} {ls : List Lexeme}
    (text : source.toList = ls.flatMap Lexeme.written) (lexical : Lexical ls) :
  (ofString source).stream.tokens.map Token.lexeme = ls ∧
    (ofString source).stream.ending.reach = .ok ()
  := by
  obtain ⟨success, lexemes⟩ := Cursor.readAll_of_lexical (c := .ofString source) text lexical
  refine ⟨lexemes, ?_⟩
  change (Cursor.ofString source).readAll.stream.ending.reach = .ok ()
  rw [Stretch.stream, success]
  rfl

/-- Tokens that follow each other in a text have lexemes that fit. -/
theorem lexical_of_tokenize {source : String} {ts : List Token}
    (tokens : tokenize source = .ok ts) :
  Lexical (ts.map Token.lexeme) ∧ spelling ts = source.toList
  := by
  obtain ⟨success, rfl⟩ := tokenize_eq_ok_iff.mp tokens
  obtain ⟨passes, rest⟩ := Cursor.passes_readAll _ success
  refine ⟨Cursor.lexical_readAll _ success, ?_⟩
  have text := passes.text
  rw [rest, List.append_nil] at text
  exact text.symm

/-- The lexemes that a text is read as are those that make it up and fit, each by the rule of its
kind, in front of the text behind them. -/
theorem tokenize_iff_lexical (source : String) (ls : List Lexeme) :
  (∃ ts, tokenize source = .ok ts ∧ ts.map Token.lexeme = ls) ↔
    ls.flatMap Lexeme.written = source.toList ∧ Lexical ls
  := by
  constructor
  · rintro ⟨ts, tokens, rfl⟩
    obtain ⟨lexical, text⟩ := lexical_of_tokenize tokens
    rw [List.flatMap_map]
    exact ⟨text, lexical⟩
  · rintro ⟨text, lexical⟩
    obtain ⟨success, lexemes⟩ := Cursor.readAll_of_lexical (c := .ofString source) text.symm lexical
    exact ⟨_, tokenize_eq_ok_iff.mpr ⟨success, rfl⟩, lexemes⟩

end LosslessScss
