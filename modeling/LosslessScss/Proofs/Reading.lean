import LosslessScss.Lexer

/-!
# What a lexer hands out

The tokens that are read from a text make up the part of the text that has been read:
`Cursor.Passes c ts d` says that the tokens `ts` lie between the cursors `c` and `d`.  They
keep doing so when a lexer reads ahead and when it hands them out, and so the text of the
tokens that a lexer still has to hand out is the text from the next one on
(`Lexer.Handed.passes`, `Lexer.Stands.stream`).
-/

namespace LosslessScss

/-! ### Tokens between two places -/

theorem Position.index_after (p : Position) (cs : List Char) :
  (p.after cs).index = p.index + cs.length
  := by
  induction cs generalizing p with
  | nil => rfl
  | cons c cs ih =>
    have one : (p.advance c).index = p.index + 1 := by
      unfold advance
      split <;> rfl
    rw [after_cons, ih, one, List.length_cons]
    omega

/-- A token is of a kind that the lexer produces, and one of punctuation has a single
character. -/
structure Token.Proper (t : Token) : Prop where
  kind : t.kind.isToken = true
  text : t.kind = .punctuation → ∃ c, t.text.toList = [c]

theorem Token.Proper.lexeme {t : Token} (proper : t.Proper) {c : Char} (mark : t.mark? = some c) :
  t.lexeme = ⟨.punctuation, [c]⟩
  := by
  unfold mark? at mark
  split at mark
  case isTrue kind =>
    obtain ⟨d, text⟩ := proper.text kind
    rw [text] at mark
    cases mark
    rw [Token.lexeme, kind, text]
  case isFalse => cases mark

/-- The tokens `ts` follow each other from the place `p` on up to `q`. -/
def Laid (p : Position) : List Token → Position → Prop
  | [], q => p = q
  | t :: ts, q => t.start = p ∧ t.stop = p.after t.lexeme.written ∧ Laid t.stop ts q

theorem Laid.append {p q r : Position} {ts us : List Token} (first : Laid p ts q)
    (second : Laid q us r) :
  Laid p (ts ++ us) r
  := by
  induction ts generalizing p with
  | nil => exact first ▸ second
  | cons t ts ih => exact ⟨first.1, first.2.1, ih first.2.2⟩

/-- The text of tokens that follow each other. -/
def spelling (ts : List Token) : List Char := ts.flatMap fun t => t.lexeme.written

@[simp]
theorem spelling_nil :
  spelling [] = []
  := rfl

@[simp]
theorem spelling_cons (t : Token) (ts : List Token) :
  spelling (t :: ts) = t.lexeme.written ++ spelling ts
  := rfl

theorem spelling_append (ts us : List Token) :
  spelling (ts ++ us) = spelling ts ++ spelling us
  := List.flatMap_append

/-- The tokens `ts` lie between the cursors `c` and `d`. -/
structure Cursor.Passes (c : Cursor) (ts : List Token) (d : Cursor) : Prop where
  text : c.rest = spelling ts ++ d.rest
  place : d.position = c.position.after (spelling ts)
  laid : Laid c.position ts d.position
  proper : ∀ t ∈ ts, t.Proper

namespace Cursor.Passes

variable {c d e : Cursor} {t : Token} {ts us : List Token}

theorem refl (c : Cursor) :
  Passes c [] c
  := ⟨rfl, rfl, rfl, nofun⟩

theorem append (first : Passes c ts d) (second : Passes d us e) :
  Passes c (ts ++ us) e
  := by
  refine ⟨?_, ?_, first.laid.append second.laid, ?_⟩
  · rw [first.text, second.text, spelling_append, List.append_assoc]
  · rw [second.place, first.place, spelling_append, Position.after_append]
  · intro t mem
    obtain mem | mem := List.mem_append.mp mem
    · exact first.proper t mem
    · exact second.proper t mem

/-- The first of several tokens lies before the others. -/
theorem uncons (passes : Passes c (t :: ts) d) :
  ∃ e, Passes c [t] e ∧ Passes e ts d
  := by
  obtain ⟨text, place, ⟨start, stop, laid⟩, proper⟩ := passes
  refine ⟨⟨spelling ts ++ d.rest, t.stop⟩, ?_, ?_⟩
  · refine ⟨?_, ?_, ⟨start, stop, rfl⟩, ?_⟩
    · rw [text, spelling_cons, List.append_assoc]
      simp
    · rw [stop]
      simp
    · intro u mem
      exact proper u (List.mem_singleton.mp mem ▸ List.mem_cons_self)
  · refine ⟨rfl, ?_, laid, fun u mem => proper u (List.mem_cons_of_mem t mem)⟩
    rw [place, stop, spelling_cons, Position.after_append]

end Cursor.Passes

/-! ### Reading -/

/-- A lexeme of punctuation is a single character. -/
theorem Reading.ofText_punctuation {c : Char} {s rest : List Char} {l : Lexeme}
    (h : Reading.ofText c s = .lexeme l rest) (kind : l.kind = .punctuation) :
  l.text = [c]
  := by
  revert h
  fun_cases Reading.ofText c s with
  | case3 | case4 | case5 =>
    intro h
    rw [(closed_eq_lexeme h).1] at kind
    cases kind
  | case11 => rintro ⟨⟩; rfl
  | case14 => rintro ⟨⟩
  | _ => rintro ⟨⟩; cases kind

/-- The kind of a lexeme is that of a token. -/
theorem Reading.ofText_isToken {c : Char} {s rest : List Char} {l : Lexeme}
    (h : Reading.ofText c s = .lexeme l rest) :
  l.kind.isToken = true
  := by
  revert h
  fun_cases Reading.ofText c s with
  | case3 | case4 | case5 =>
    intro h
    rw [(closed_eq_lexeme h).1]
    rfl
  | case14 => rintro ⟨⟩
  | _ => rintro ⟨⟩; rfl

namespace Cursor

variable {c d : Cursor}

theorem Passes.of_read {t : Token} (h : c.read = (.ok (some t), d)) :
  c.Passes [t] d
  := by
  unfold read at h
  split at h
  · cases h
  next x s text =>
    split at h
    next l rest found =>
      cases h
      refine ⟨?_, ?_, ⟨rfl, ?_, rfl⟩, ?_⟩
      · simp [text, Reading.ofText_append found]
      · simp
      · rw [Token.lexeme_ofLexeme]
        rfl
      · rintro u mem
        obtain rfl := List.mem_singleton.mp mem
        refine ⟨Reading.ofText_isToken found, fun kind => ⟨x, ?_⟩⟩
        simpa [Token.ofLexeme] using Reading.ofText_punctuation found kind
    · cases h
    · cases h

/-- Nothing is read at the end of the text only. -/
theorem read_eq_none (h : c.read = (.ok none, d)) :
  d = c ∧ c.rest = []
  := by
  unfold read at h
  split at h
  next text => cases h; exact ⟨rfl, text⟩
  next =>
    split at h
    all_goals cases h

theorem passes_readUpTo (n : Nat) (c : Cursor) (h : (readUpTo n c).failure = none) :
  c.Passes (readUpTo n c).tokens (readUpTo n c).cursor
  := by
  fun_induction readUpTo n c with
  | case1 => exact .refl _
  | case2 => cases h
  | case3 _ _ _ read => exact (read_eq_none read).1 ▸ .refl _
  | case4 _ _ _ _ read ih => exact (Passes.of_read read).append (ih h)

theorem readAll_of_error {f : Failure} (h : c.read = (.error f, d)) :
  c.readAll = ⟨[], some f, d⟩
  := by
  rw [readAll]
  split
  · next same => rw [h] at same; cases same; rfl
  · next other => rw [h] at other; cases other
  · next other => rw [h] at other; cases other

theorem readAll_of_none (h : c.read = (.ok none, d)) :
  c.readAll = ⟨[], none, d⟩
  := by
  rw [readAll]
  split
  · next other => rw [h] at other; cases other
  · next same => rw [h] at same; cases same; rfl
  · next other => rw [h] at other; cases other

theorem readAll_of_rest (none : c.rest = []) :
  c.readAll = ⟨[], .none, c⟩
  := by
  apply readAll_of_none
  rw [read, none]

theorem readAll_of_some {t : Token} (h : c.read = (.ok (some t), d)) :
  c.readAll = d.readAll.cons t
  := by
  rw [readAll]
  split
  · next other => rw [h] at other; cases other
  · next other => rw [h] at other; cases other
  · next same => rw [h] at same; cases same; rfl

theorem passes_readAll (c : Cursor) (h : c.readAll.failure = none) :
  c.Passes c.readAll.tokens c.readAll.cursor ∧ c.readAll.cursor.rest = []
  := by
  fun_induction readAll c with
  | case1 => cases h
  | case2 _ _ read =>
    obtain ⟨rfl, text⟩ := read_eq_none read
    exact ⟨.refl _, text⟩
  | case3 _ _ _ read ih =>
    obtain ⟨passes, text⟩ := ih h
    exact ⟨(Passes.of_read read).append passes, text⟩

/-- Whether or not the reading fails in the end, what is read before is proper. -/
theorem proper_readAll (c : Cursor) :
  ∀ t ∈ c.readAll.tokens, t.Proper
  := by
  fun_induction readAll c with
  | case1 | case2 => exact nofun
  | case3 _ _ _ read ih =>
    intro t mem
    obtain rfl | mem := List.mem_cons.mp mem
    · exact (Passes.of_read read).proper t List.mem_cons_self
    · exact ih t mem

end Cursor

/-! ### Handing out -/

namespace Lexer

/-- The next token of a lexer is the one at the cursor `c`. -/
def Stands (l : Lexer) (c : Cursor) : Prop := c.Passes l.ahead l.cursor

/-- Tokens are taken from a lexer one after another, and others are looked at in between: `ts`
have been handed out when the lexer `l` has become another one. -/
inductive Handed (l : Lexer) : List Token → Lexer → Prop where
  | start : Handed l [] l
  | next {ts l' t? l''} (before : Handed l ts l') (step : l'.next = (.ok t?, l'')) :
      Handed l (ts ++ t?.toList) l''
  | peek {ts l' n t? l''} (before : Handed l ts l') (step : l'.peek n = (.ok t?, l'')) :
      Handed l ts l''

variable {l l' : Lexer} {c : Cursor} {ts : List Token}

theorem stands_ofCursor (c : Cursor) :
  (ofCursor c).Stands c
  := .refl c

theorem Stands.position (stands : l.Stands c) :
  l.position = c.position
  := by
  obtain ⟨cursor, ahead⟩ := l
  cases ahead with
  | nil => exact stands.place
  | cons => exact stands.laid.1

/-- To read ahead does not move on. -/
theorem Stands.fill (stands : l.Stands c) {n : Nat} (h : l.fill n = (none, l')) :
  l'.Stands c
  := by
  obtain ⟨none, rfl⟩ := Prod.mk.inj h
  exact stands.append (Cursor.passes_readUpTo _ _ none)

/-- The tokens handed out lie between the place where a lexer has stood and the one where it
stands. -/
theorem Handed.passes (handed : Handed l ts l') (stands : l.Stands c) :
  ∃ d, c.Passes ts d ∧ l'.Stands d
  := by
  induction handed with
  | start => exact ⟨c, .refl c, stands⟩
  | @next ts l₁ t? l₂ _ step ih =>
    obtain ⟨d, passes, stands⟩ := ih
    unfold Lexer.next at step
    split at step
    · cases step
    next l₃ filled =>
      have stands := stands.fill filled
      cases step
      unfold Stands at stands
      cases ahead : l₃.ahead with
      | nil =>
        rw [ahead] at stands
        exact ⟨d, by simpa using passes, stands⟩
      | cons t ts =>
        rw [ahead] at stands
        obtain ⟨e, first, others⟩ := stands.uncons
        exact ⟨e, passes.append first, others⟩
  | peek _ step ih =>
    obtain ⟨d, passes, stands⟩ := ih
    unfold Lexer.peek at step
    split at step
    · cases step
    next filled =>
      cases step
      exact ⟨d, passes, stands.fill filled⟩

/-- A text comes to its end only if nothing in it fails to be read. -/
theorem failure_of_stream {p : Position} (ending : l.stream.ending = .finished p) :
  l.cursor.readAll.failure = none
  := by
  unfold Lexer.stream Stretch.stream at ending
  split at ending
  · next h => exact h
  · cases ending

/-- The tokens that a lexer still has to hand out are proper. -/
theorem Stands.proper_stream (stands : l.Stands c) :
  ∀ t ∈ l.stream.tokens, t.Proper
  := by
  intro t mem
  obtain mem | mem := List.mem_append.mp mem
  · exact stands.proper t mem
  · exact l.cursor.proper_readAll t mem

/-- The tokens that a lexer still has to hand out make up the text from the next one on. -/
theorem Stands.stream (stands : l.Stands c) {p : Position}
    (ending : l.stream.ending = .finished p) :
  c.rest = spelling l.stream.tokens ∧ ∀ t ∈ l.stream.tokens, t.Proper
  := by
  obtain ⟨passes, text⟩ := Cursor.passes_readAll l.cursor (failure_of_stream ending)
  have all := stands.append passes
  refine ⟨?_, all.proper⟩
  rw [all.text, text, List.append_nil]
  rfl

end Lexer

/-- A text has tokens if they are all read, and they are what is read. -/
theorem tokenize_eq_ok_iff {source : String} {ts : List Token} :
  tokenize source = .ok ts ↔
    (Cursor.ofString source).readAll.failure = none ∧ (Cursor.ofString source).readAll.tokens = ts
  := by
  unfold tokenize Lexer.all Lexer.drain
  cases failure : (Cursor.ofString source).readAll.failure with
  | some f => simp [Lexer.ofString, Lexer.ofCursor, failure]
  | none => simp [Lexer.ofString, Lexer.ofCursor, failure]

/-- A text fails to have tokens with the failure that keeps it from being read. -/
theorem tokenize_eq_error_iff {source : String} {f : Failure} :
  tokenize source = .error f ↔ (Cursor.ofString source).readAll.failure = some f
  := by
  unfold tokenize Lexer.all Lexer.drain
  cases failure : (Cursor.ofString source).readAll.failure with
  | some g => simp [Lexer.ofString, Lexer.ofCursor, failure]
  | none => simp [Lexer.ofString, Lexer.ofCursor, failure]

end LosslessScss
