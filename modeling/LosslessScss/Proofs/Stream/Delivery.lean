import LosslessScss.Proofs.Stream

/-!
# Calls after a failure

A lexer may be called again after a call has failed.  A character that begins no token stays where
it is, so that every later call which comes to it fails in the same way.  A string or a comment that
is never closed is used up by the call that meets it: the failure is told once, and from then on the
lexer answers as if the text ended before the string or comment.  So a lexer comes to a clean end
behind the whole of its text only, and tells its failure as often as it is asked, if and only if the
text does not break off within a string or a comment (`clean_end_iff`).
-/

namespace LosslessScss

/-- A string or a comment stands at the end of the text and is never closed. -/
def Ending.IsUnclosed (e : Ending) : Prop := ∃ wanted p, e = .broken ⟨.expected wanted, p⟩

theorem Ending.reach_ne_ok {e : Ending} (unclosed : e.IsUnclosed) :
  e.reach ≠ .ok ()
  := by
  obtain ⟨_, _, rfl⟩ := unclosed
  exact nofun

/-- What becomes of a stream of which `ts` are taken by calls that may fail: the rest of it, which
ends as before or, in place of what is never closed, without a failure. -/
def TokenStream.LeadsTo (s : TokenStream) (ts : List Token) (s' : TokenStream) : Prop :=
  s.tokens = ts ++ s'.tokens ∧
    (s'.ending = s.ending ∨ s.ending.IsUnclosed ∧ ∃ p, s'.ending = .finished p)

namespace TokenStream.LeadsTo

variable {s s' s'' : TokenStream} {ts us : List Token}

theorem of_eq (same : s = ⟨ts ++ s'.tokens, s'.ending⟩) :
  s.LeadsTo ts s'
  := by
  subst same
  exact ⟨rfl, .inl rfl⟩

theorem trans (first : s.LeadsTo ts s') (second : s'.LeadsTo us s'') :
  s.LeadsTo (ts ++ us) s''
  := by
  obtain ⟨tokens, ending⟩ := first
  obtain ⟨tokens', ending'⟩ := second
  refine ⟨by rw [tokens, tokens', List.append_assoc], ?_⟩
  obtain same | ⟨unclosed, p, finished⟩ := ending
  · rwa [same] at ending'
  · right
    refine ⟨unclosed, ?_⟩
    obtain same | ⟨⟨_, _, broken⟩, _⟩ := ending'
    · exact ⟨p, same.trans finished⟩
    · rw [finished] at broken
      cases broken

/-- A stream that is not broken off by what is never closed keeps its ending. -/
theorem eq_of_closed (leads : s.LeadsTo ts s') (closed : ¬s.ending.IsUnclosed) :
  s = ⟨ts ++ s'.tokens, s'.ending⟩
  := by
  obtain ⟨tokens, same | ⟨unclosed, _⟩⟩ := leads
  · rw [← tokens, same]
  · exact absurd unclosed closed

end TokenStream.LeadsTo

/-! ### A failure and what is left behind it -/

namespace Cursor

variable {c d : Cursor} {f : Failure}

/-- A failure uses up a text that breaks off within a string or a comment, and nothing else. -/
theorem read_eq_error (failed : c.read = (.error f, d)) :
  c.rest ≠ [] ∧ ((Ending.broken f).IsUnclosed ∧ d.rest = [] ∨
    ¬(Ending.broken f).IsUnclosed ∧ d = c)
  := by
  unfold read at failed
  split at failed
  · cases failed
  next text =>
    refine ⟨text ▸ List.cons_ne_nil _ _, ?_⟩
    split at failed
    · cases failed
    · cases failed
      exact .inl ⟨⟨_, _, rfl⟩, rfl⟩
    · cases failed
      refine .inr ⟨?_, rfl⟩
      rintro ⟨_, _, same⟩
      cases same

/-- No token can be read where a failure has left the cursor. -/
theorem readAll_of_failure (failed : c.readAll.failure = some f) :
  (Ending.broken f).IsUnclosed ∧ (∃ p, c.readAll.cursor.readAll.stream = ⟨[], .finished p⟩) ∨
    ¬(Ending.broken f).IsUnclosed ∧ c.readAll.cursor.readAll.stream = ⟨[], .broken f⟩
  := by
  obtain ⟨d, _, ⟨success, _⟩ | ⟨g, failed', read⟩⟩ := c.passes_stop
  · rw [success] at failed
    cases failed
  · obtain rfl : f = g := Option.some.inj (failed.symm.trans failed')
    obtain ⟨_, ⟨unclosed, none⟩ | ⟨other, same⟩⟩ := read_eq_error read
    · rw [readAll_of_rest none]
      exact .inl ⟨unclosed, _, rfl⟩
    · rw [same] at read ⊢
      rw [readAll_of_error read]
      exact .inr ⟨other, rfl⟩

end Cursor

namespace Lexer

variable {l l' : Lexer} {n : Nat} {ts : List Token}

/-- What is never closed is gone once it has been met, and another failure is still there. -/
theorem stream_of_fill_failed {f : Failure} (filled : l.fill n = (some f, l')) :
  l'.stream.tokens = l.stream.tokens ∧
    (l.stream.ending.IsUnclosed ∧ (∃ p, l'.stream.ending = .finished p) ∨
      ¬l.stream.ending.IsUnclosed ∧ l'.stream.ending = l.stream.ending)
  := by
  obtain ⟨broken, _, rfl⟩ := fill_failed filled
  have failed : l.cursor.readAll.failure = some f := by
    simp only [stream, Stretch.stream] at broken
    split at broken
    · cases broken
    next failed =>
      cases broken
      exact failed
  rw [broken]
  obtain ⟨unclosed, p, left⟩ | ⟨other, left⟩ := Cursor.readAll_of_failure failed
  · rw [stream, left]
    exact ⟨List.append_nil _, .inl ⟨unclosed, p, rfl⟩⟩
  · rw [stream, left]
    exact ⟨List.append_nil _, .inr ⟨other, rfl⟩⟩

/-- To read ahead takes no token from the stream, be it with success or not. -/
theorem fill_leadsTo (l : Lexer) (n : Nat) :
  l.stream.LeadsTo [] (l.fill n).2.stream
  := by
  obtain ⟨failure, l', filled⟩ : ∃ failure l', l.fill n = (failure, l') := ⟨_, _, rfl⟩
  rw [filled]
  cases failure with
  | none => exact .of_eq (fill_stream filled).1.symm
  | some f =>
    obtain ⟨tokens, gone | ⟨_, same⟩⟩ := stream_of_fill_failed filled
    · exact ⟨tokens.symm, .inr gone⟩
    · exact ⟨tokens.symm, .inl same⟩

/-- The token that is handed out. -/
def handed : Except Failure (Option Token) → List Token
  | .ok (some t) => [t]
  | _ => []

theorem peek_leadsTo (l : Lexer) (n : Distance) :
  l.stream.LeadsTo [] (l.peek n).2.stream
  := by
  have leads := l.fill_leadsTo (n + 1).toNat
  unfold peek
  split
  all_goals
    next filled =>
      rw [filled] at leads
      exact leads

theorem next_leadsTo (l : Lexer) :
  l.stream.LeadsTo (handed l.next.1) l.next.2.stream
  := by
  cases step : l.next with
  | mk answer l' =>
    cases answer with
    | ok t? =>
      have taken : handed (.ok t?) = t?.toList := by cases t? <;> rfl
      rw [taken]
      exact .of_eq (stream_of_next step)
    | error =>
      have leads := l.fill_leadsTo 1
      unfold next at step
      split at step
      next filled =>
        cases step
        rw [filled] at leads
        exact leads
      next => cases step

/-! ### Calls of any outcome -/

/-- A lexer has become `l'` by calls that look ahead and calls that take a token, each of which may
have failed, and `ts` have been handed out. -/
inductive Called (l : Lexer) : List Token → Lexer → Prop where
  | start : Called l [] l
  | next {us m} (before : Called l us m) : Called l (us ++ handed m.next.1) m.next.2
  | peek {us m} (before : Called l us m) (n : Distance) : Called l us (m.peek n).2

/-- What calls do to the stream of a lexer. -/
theorem Called.leadsTo (called : Called l ts l') :
  l.stream.LeadsTo ts l'.stream
  := by
  induction called with
  | start => exact .of_eq rfl
  | next _ ih => exact ih.trans (next_leadsTo _)
  | peek _ n ih =>
    have leads := ih.trans (peek_leadsTo _ n)
    rwa [List.append_nil] at leads

/-- All tokens that are left can be taken. -/
theorem Called.takeAll {us : List Token} {e : Ending} (called : Called l ts l')
    (left : l'.stream = ⟨us, e⟩) :
  ∃ l'', Called l (ts ++ us) l'' ∧ l''.stream = ⟨[], e⟩
  := by
  induction us generalizing ts l' with
  | nil => exact ⟨l', (List.append_nil ts).symm ▸ called, left⟩
  | cons t us ih =>
    have answer : l'.next.1 = .ok (some t) := by
      rw [next_stream, left]
      rfl
    have rest : l'.stream = ⟨[t] ++ l'.next.2.stream.tokens, l'.next.2.stream.ending⟩ :=
      stream_of_next (Prod.ext answer rfl)
    have one : Called l (ts ++ [t]) l'.next.2 := by
      have one := called.next
      rwa [answer] at one
    rw [left] at rest
    obtain ⟨tokens, ending⟩ := TokenStream.mk.inj rest
    obtain ⟨l'', all, none⟩ := ih one (by
      rw [(List.cons.inj tokens).2, ending]
      rfl)
    exact ⟨l'', by rwa [List.append_assoc] at all, none⟩

/-! ### The whole text -/

/-- The tokens of a text make it up if no failure keeps any from being read. -/
theorem spelling_stream_iff (source : String) :
  spelling (ofString source).stream.tokens = source.toList ↔
    (ofString source).stream.ending.reach = .ok ()
  := by
  obtain ⟨d, passes, stop⟩ := (Cursor.ofString source).passes_stop
  have text : source.toList = spelling (ofString source).stream.tokens ++ d.rest := passes.text
  have whole : spelling (ofString source).stream.tokens = source.toList ↔ d.rest = [] := by
    rw [text, List.self_eq_append_right]
  rw [whole]
  change _ ↔ (Cursor.ofString source).readAll.stream.ending.reach = .ok ()
  obtain ⟨success, none, _⟩ | ⟨f, failed, read⟩ := stop
  · rw [Stretch.stream, success]
    exact iff_of_true none rfl
  · rw [Stretch.stream, failed]
    exact iff_of_false (Cursor.read_eq_error read).1 (by rintro ⟨⟩)

/-- Nothing more is handed out exactly at the end of the stream. -/
theorem next_eq_none_iff (l : Lexer) :
  l.next.1 = .ok none ↔ l.stream.tokens = [] ∧ l.stream.ending.reach = .ok ()
  := by
  rw [next_stream]
  constructor
  · intro none
    obtain ⟨beyond, reached⟩ := TokenStream.peek_eq_none none
    exact ⟨List.length_eq_zero_iff.mp (Nat.le_zero.mp beyond), reached⟩
  · rintro ⟨none, reached⟩
    rw [TokenStream.peek_beyond (by rw [none]; rfl), reached]
    rfl

theorem next_eq_none_of_atEnd (ended : l.atEnd = true) :
  l.next.1 = .ok none
  := by
  rw [next_eq_none_iff, Ending.reach_eq_ok]
  exact (atEnd_iff l).mp ended

/-- Where nothing but what is never closed is left, the next call fails, and the one after it tells
an end. -/
theorem next_next_of_unclosed (unclosed : l.stream.ending.IsUnclosed)
    (taken : l.stream.tokens = []) :
  handed l.next.1 = [] ∧ l.next.2.next.1 = .ok none
  := by
  have answer := l.next_stream
  rw [TokenStream.peek_beyond (by rw [taken]; rfl)] at answer
  obtain ⟨wanted, p, broken⟩ := id unclosed
  rw [broken] at answer
  unfold next at answer ⊢
  rcases filled : l.fill 1 with ⟨_ | f, l'⟩
  · rw [filled] at answer
    cases answer
  · refine ⟨rfl, (next_eq_none_iff l').mpr ?_⟩
    obtain ⟨tokens, ⟨_, q, ending⟩ | ⟨other, _⟩⟩ := stream_of_fill_failed filled
    · rw [tokens, taken, ending]
      exact ⟨rfl, rfl⟩
    · exact absurd unclosed other

/-- A text that breaks off within a string or a comment comes to a clean end before its own. -/
theorem Called.of_unclosed {source : String}
    (unclosed : (ofString source).stream.ending.IsUnclosed) :
  ∃ l, Called (ofString source) (ofString source).stream.tokens l ∧ l.next.1 = .ok none
  := by
  obtain ⟨l, called, left⟩ := Called.start.takeAll (l := ofString source) rfl
  rw [List.nil_append] at called
  obtain ⟨none, ended⟩ := next_next_of_unclosed (l := l) (by rwa [left]) (by rw [left])
  have failed := called.next
  rw [none, List.append_nil] at failed
  exact ⟨_, failed, ended⟩

/-- The end of a text is told behind the whole text only, and the failure that keeps the end from
being reached is told again and again, exactly if the text does not break off within a string or a
comment. -/
theorem clean_end_iff (source : String) :
  ((∀ ts l, Called (ofString source) ts l → l.next.1 = .ok none ∨ l.atEnd = true →
      spelling ts = source.toList) ↔ ¬(ofString source).stream.ending.IsUnclosed) ∧
    ((∀ ts l, Called (ofString source) ts l →
      l.next.1 = (ofString source).stream.peek ts.length) ↔
        ¬(ofString source).stream.ending.IsUnclosed)
  := by
  constructor
  · constructor
    · intro whole unclosed
      obtain ⟨l, called, none⟩ := Called.of_unclosed unclosed
      have spelled := whole _ l called (.inl none)
      exact Ending.reach_ne_ok unclosed ((spelling_stream_iff source).mp spelled)
    · intro closed ts l called ended
      have stream := called.leadsTo.eq_of_closed closed
      have none : l.next.1 = .ok none := ended.elim id next_eq_none_of_atEnd
      obtain ⟨none, reached⟩ := (next_eq_none_iff l).mp none
      rw [none, List.append_nil] at stream
      have all := (spelling_stream_iff source).mpr (by rw [stream]; exact reached)
      rwa [stream] at all
  · constructor
    · intro same unclosed
      obtain ⟨l, called, none⟩ := Called.of_unclosed unclosed
      rw [same _ l called, TokenStream.peek_beyond (Nat.le_refl _)] at none
      obtain ⟨_, _, broken⟩ := unclosed
      rw [broken] at none
      cases none
    · intro closed ts l called
      rw [next_stream, called.leadsTo.eq_of_closed closed, ← TokenStream.peek_append, Nat.add_zero]

/-- A quote that is never closed: the call that meets it fails, and the next one tells an end though
nothing has been handed out. -/
theorem not_clean_end_quote :
  ¬∀ ts l, Called (ofString "\x22") ts l → l.next.1 = .ok none ∨ l.atEnd = true →
    spelling ts = "\x22".toList
  := by
  intro whole
  exact absurd (whole _ _ Called.start.next (.inr (by decide +kernel))) (by decide +kernel)

end Lexer

end LosslessScss
