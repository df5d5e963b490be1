import LosslessScss.Proofs.Reading.Append

/-!
# The stream behind a lexer

However far a lexer has been looked ahead in, it hands out the tokens of one stream in order.
`Lexer.stream` tells all that the lexer answers: to look ahead takes nothing from the stream, and
to take a token takes the first one.  `Lexer.Shows l s j` says that the lexer `l` answers every
call as the stream `s` does of which `j` tokens have been taken; this is so after any calls none
of which has failed (`shows_of_session`).  Only to look ahead by the greatest distance is to read
nothing and to see nothing (`not_shows_greatest`).
-/

namespace LosslessScss

/-! ### What a stream tells -/

/-- The place that an ending stands at. -/
def Ending.position : Ending → Position
  | finished p => p
  | broken f => f.position

theorem Ending.reach_eq_ok (e : Ending) :
  e.reach = .ok () ↔ ∃ p, e = .finished p
  := by
  refine ⟨eq_finished_of_reach, ?_⟩
  rintro ⟨p, rfl⟩
  rfl

namespace TokenStream

/-- A stream of which the first `j` tokens have been taken. -/
def drop (s : TokenStream) (j : Nat) : TokenStream := { s with tokens := s.tokens.drop j }

/-- What is seen `n` tokens ahead: a token, or past the last one what the stream ends with. -/
def peek (s : TokenStream) (n : Nat) : Except Failure (Option Token) :=
  match s.tokens[n]? with
  | some t => .ok (some t)
  | none => do
    s.ending.reach
    return none

/-- All tokens, unless a failure follows them. -/
def all (s : TokenStream) : Except Failure (List Token) := do
  s.ending.reach
  return s.tokens

/-- The place of the token `j`, or past the last one the place after all of them. -/
def place (s : TokenStream) (j : Nat) : Position :=
  (s.tokens[j]?.map Token.start).getD ((s.tokens.getLast?.map Token.stop).getD .origin)

variable {s : TokenStream} {ts us : List Token} {e : Ending}

theorem peek_append (ts us : List Token) (e : Ending) (n : Nat) :
  peek ⟨ts ++ us, e⟩ (ts.length + n) = peek ⟨us, e⟩ n
  := by
  simp [peek, List.getElem?_append_right]

theorem drop_append (ts us : List Token) (e : Ending) :
  drop ⟨ts ++ us, e⟩ ts.length = ⟨us, e⟩
  := by
  simp [drop]

/-- To see nothing is to look past the last token of a text that ends there. -/
theorem peek_eq_none {n : Nat} (seen : s.peek n = .ok none) :
  s.tokens.length ≤ n ∧ s.ending.reach = .ok ()
  := by
  unfold peek at seen
  split at seen
  next => cases seen
  next beyond =>
    refine ⟨List.getElem?_eq_none_iff.mp beyond, ?_⟩
    cases reached : s.ending.reach with
    | error => rw [reached] at seen; cases seen
    | ok => rfl

/-- To look past the last token is to see the end, or to meet the failure. -/
theorem peek_beyond {n : Nat} (beyond : s.tokens.length ≤ n) :
  s.peek n = s.ending.reach.map fun _ => none
  := by
  rw [peek, List.getElem?_eq_none beyond]
  cases s.ending <;> rfl

end TokenStream

/-! ### Reading on -/

/-- Tokens that follow each other end with the last of them. -/
theorem Laid.stop {p q : Position} {ts : List Token} (laid : Laid p ts q) :
  q = (ts.getLast?.map Token.stop).getD p
  := by
  induction ts generalizing p with
  | nil => exact laid.symm
  | cons t ts ih =>
    rw [ih laid.2.2, List.getLast?_cons]
    cases ts.getLast? <;> rfl

namespace Cursor

variable {c d : Cursor} {n : Nat}

/-- What is read in one go is read in two. -/
theorem readAll_of_readUpTo (n : Nat) (c : Cursor) (success : (readUpTo n c).failure = none) :
  c.readAll = (readUpTo n c).cursor.readAll.behind (readUpTo n c).tokens
  := by
  fun_induction readUpTo n c with
  | case1 => rfl
  | case2 => cases success
  | case3 _ _ _ read => exact (read_eq_none read).1 ▸ rfl
  | case4 _ _ _ _ read ih =>
    rw [readAll_of_some read, ih success]
    rfl

/-- A failure that keeps some tokens from being read keeps all others from it too. -/
theorem readUpTo_of_failure {f : Failure} (n : Nat) (c : Cursor)
    (failed : (readUpTo n c).failure = some f) :
  readUpTo n c = c.readAll ∧ c.readAll.tokens.length < n
  := by
  fun_induction readUpTo n c with
  | case1 => cases failed
  | case2 _ _ _ _ read =>
    rw [readAll_of_error read]
    exact ⟨rfl, Nat.succ_pos _⟩
  | case3 => cases failed
  | case4 _ _ _ _ read ih =>
    obtain ⟨same, short⟩ := ih failed
    rw [readAll_of_some read, same]
    exact ⟨rfl, Nat.succ_lt_succ short⟩

/-- Fewer tokens than wanted are read only at the end of the text. -/
theorem readUpTo_enough (n : Nat) (c : Cursor) (success : (readUpTo n c).failure = none) :
  (readUpTo n c).tokens.length = n ∨ (readUpTo n c).cursor.rest = []
  := by
  fun_induction readUpTo n c with
  | case1 => exact .inl rfl
  | case2 => cases success
  | case3 _ _ _ read =>
    obtain ⟨rfl, none⟩ := read_eq_none read
    exact .inr none
  | case4 _ _ _ _ _ ih => exact (ih success).imp_left (congrArg Nat.succ)

/-- The tokens of a text lie before the place where no more can be read. -/
theorem passes_stop (c : Cursor) :
  ∃ d, c.Passes c.readAll.tokens d ∧
    ((c.readAll.failure = none ∧ d.rest = [] ∧ c.readAll.cursor = d) ∨
      ∃ f, c.readAll.failure = some f ∧ d.read = (.error f, c.readAll.cursor))
  := by
  fun_induction readAll c with
  | case1 _ _ _ read => exact ⟨_, .refl _, .inr ⟨_, rfl, read⟩⟩
  | case2 _ _ read =>
    obtain ⟨rfl, none⟩ := read_eq_none read
    exact ⟨_, .refl _, .inl ⟨rfl, none, rfl⟩⟩
  | case3 _ _ _ read ih =>
    obtain ⟨e, passes, stop⟩ := ih
    exact ⟨e, (Passes.of_read read).append passes, stop⟩

/-- A failure stands where it is met. -/
theorem position_of_error {f : Failure} (failed : c.read = (.error f, d)) :
  f.position = c.position
  := by
  unfold read at failed
  split at failed
  · cases failed
  · split at failed
    all_goals cases failed
    all_goals rfl

end Cursor

/-! ### Calls -/

namespace Lexer

variable {l l' : Lexer} {c : Cursor} {n : Nat} {f : Failure}

/-- To read ahead takes nothing from the stream, and stops at the end of the text only. -/
theorem fill_stream (filled : l.fill n = (none, l')) :
  l'.stream = l.stream ∧ (n ≤ l'.ahead.length ∨ l'.cursor.rest = [])
  := by
  obtain ⟨success, rfl⟩ := Prod.mk.inj filled
  constructor
  · have reads := Cursor.readAll_of_readUpTo _ l.cursor success
    simp only [stream, Stretch.stream]
    rw [reads]
    simp only [Stretch.behind, List.append_assoc]
  · obtain enough | none := Cursor.readUpTo_enough _ l.cursor success
    · left
      simp only [List.length_append, enough]
      omega
    · exact .inr none

/-- A failure while reading ahead is the one that the stream ends with; all tokens before it are
kept. -/
theorem fill_failed (filled : l.fill n = (some f, l')) :
  l.stream.ending = .broken f ∧ l.stream.tokens.length < n ∧
    l' = ⟨l.cursor.readAll.cursor, l.stream.tokens⟩
  := by
  obtain ⟨failed, rfl⟩ := Prod.mk.inj filled
  obtain ⟨same, short⟩ := Cursor.readUpTo_of_failure _ l.cursor failed
  rw [same] at failed
  refine ⟨?_, ?_, ?_⟩
  · simp only [stream, Stretch.stream, failed]
  · simp only [stream, Stretch.stream, List.length_append]
    omega
  · rw [same]
    rfl

/-- What has been read ahead is what is seen. -/
theorem stream_peek_of_filled {i : Nat} (lt : i < n)
    (filled : n ≤ l.ahead.length ∨ l.cursor.rest = []) :
  l.stream.peek i = .ok l.ahead[i]?
  := by
  obtain enough | none := filled
  · have inside : i < l.ahead.length := Nat.lt_of_lt_of_le lt enough
    rw [TokenStream.peek, stream, List.getElem?_append_left inside, List.getElem?_eq_getElem inside]
  · rw [stream, Cursor.readAll_of_rest none]
    simp only [TokenStream.peek, Stretch.stream, List.append_nil]
    cases l.ahead[i]? <;> rfl

/-- What is seen where reading ahead fails. -/
theorem stream_peek_of_failed (filled : l.fill n = (some f, l')) {i : Nat} (le : n ≤ i + 1) :
  l.stream.peek i = .error f
  := by
  obtain ⟨broken, short, _⟩ := fill_failed filled
  rw [TokenStream.peek_beyond (by omega), broken]
  rfl

/-- Below the greatest distance one token more than the distance is needed. -/
theorem toNat_needed {n : Distance} (lt : n < .allOnes 64) :
  (n + 1).toNat = n.toNat + 1
  := by
  bv_omega

theorem peek_stream (l : Lexer) {n : Distance} (lt : n < .allOnes 64) :
  (l.peek n).1 = l.stream.peek n.toNat
  := by
  rw [peek, toNat_needed lt]
  split
  next filled => exact (stream_peek_of_failed filled (Nat.le_refl _)).symm
  next filled =>
    obtain ⟨same, enough⟩ := fill_stream filled
    rw [← same, stream_peek_of_filled (Nat.lt_succ_self _) enough]

/-- To look ahead takes nothing from the stream. -/
theorem stream_of_peek {n : Distance} {t? : Option Token} (step : l.peek n = (.ok t?, l')) :
  l'.stream = l.stream
  := by
  unfold peek at step
  split at step
  next => cases step
  next filled =>
    cases step
    exact (fill_stream filled).1

theorem next_stream (l : Lexer) :
  l.next.1 = l.stream.peek 0
  := by
  rw [next]
  split
  next filled => exact (stream_peek_of_failed filled (Nat.le_refl _)).symm
  next filled =>
    obtain ⟨same, enough⟩ := fill_stream filled
    rw [← same, stream_peek_of_filled Nat.one_pos enough, List.head?_eq_getElem?]

/-- To take a token takes the first one from the stream. -/
theorem stream_of_next {t? : Option Token} (step : l.next = (.ok t?, l')) :
  l.stream = ⟨t?.toList ++ l'.stream.tokens, l'.stream.ending⟩
  := by
  unfold next at step
  split at step
  next => cases step
  next l'' filled =>
    cases step
    rw [← (fill_stream filled).1]
    cases ahead : l''.ahead with
    | nil => simp [stream, ahead]
    | cons t ts => simp [stream, ahead]

theorem all_stream (l : Lexer) :
  l.all.1 = l.stream.all
  := by
  unfold all drain TokenStream.all stream Stretch.stream
  cases failure : l.cursor.readAll.failure with
  | none => simp only [failure]; rfl
  | some f => simp only [failure]; rfl

/-- Nothing is left exactly if the stream is used up and the text has come to its end. -/
theorem atEnd_iff (l : Lexer) :
  l.atEnd = true ↔ l.stream.tokens = [] ∧ ∃ p, l.stream.ending = .finished p
  := by
  rw [atEnd, Bool.and_eq_true, List.isEmpty_iff, Cursor.atEnd, List.isEmpty_iff]
  constructor
  · rintro ⟨ahead, none⟩
    rw [stream, Cursor.readAll_of_rest none, ahead]
    exact ⟨rfl, _, rfl⟩
  · rintro ⟨none, p, finished⟩
    obtain ⟨ahead, unread⟩ := List.append_eq_nil_iff.mp none
    have unread : l.cursor.readAll.tokens = [] := unread
    obtain ⟨passes, last⟩ := Cursor.passes_readAll l.cursor (failure_of_stream finished)
    refine ⟨ahead, ?_⟩
    rw [passes.text, unread, last]
    rfl

/-- All tokens are taken up to the end of the text, and nothing is left then. -/
theorem stream_of_all_eq {ts : List Token} (step : l.all = (.ok ts, l')) :
  ts = l.stream.tokens ∧ l'.stream = ⟨[], l.stream.ending⟩ ∧ l'.atEnd = true
  := by
  have answer : l.all.1 = .ok ts := congrArg Prod.fst step
  obtain ⟨rfl, p, finished⟩ := stream_of_all answer
  have success := failure_of_stream finished
  obtain ⟨_, last⟩ := Cursor.passes_readAll l.cursor success
  have left : l' = ⟨l.cursor.readAll.cursor, []⟩ := by
    unfold all drain at step
    simp only [success] at step
    cases step
    rfl
  have used : l'.stream = ⟨[], l.stream.ending⟩ := by
    rw [left, stream, Cursor.readAll_of_rest last, stream, Stretch.stream, Stretch.stream, success]
    rfl
  refine ⟨rfl, used, ?_⟩
  rw [atEnd_iff, used]
  exact ⟨rfl, p, finished⟩

/-- The next token of a lexer stands where the first one of its stream does. -/
theorem position_stream (l : Lexer) :
  l.position = (l.stream.tokens.head?.map Token.start).getD l.stream.ending.position
  := by
  obtain ⟨cursor, ahead⟩ := l
  cases ahead with
  | cons => rfl
  | nil =>
    obtain ⟨d, passes, stop⟩ := cursor.passes_stop
    rw [position, stream, List.nil_append]
    cases tokens : cursor.readAll.tokens with
    | cons t ts =>
      rw [tokens] at passes
      simpa [Stretch.stream, tokens] using passes.laid.1.symm
    | nil =>
      rw [tokens] at passes
      have place : cursor.position = d.position := passes.laid
      simp only [Stretch.stream, tokens, List.head?_nil, Option.map_none, Option.getD_none]
      obtain ⟨success, _, last⟩ | ⟨f, failed, read⟩ := stop
      · rw [success, place, last]
        rfl
      · rw [failed, place]
        exact (Cursor.position_of_error read).symm

/-! ### Many calls -/

/-- The stream consists of what has been handed out and of the stream that is left. -/
theorem Handed.stream {ts : List Token} (handed : Handed l ts l') :
  l.stream = ⟨ts ++ l'.stream.tokens, l'.stream.ending⟩
  := by
  induction handed with
  | start => rfl
  | next _ step ih => rw [ih, stream_of_next step, List.append_assoc]
  | peek _ step ih => rw [ih, stream_of_peek step]

/-- Calls are made on a lexer one after another and none of them fails: `ts` have been taken, one by
one or all that were left, when the lexer `l` has become another one.  To ask whether anything is
left, or for a failure at the next token, is no step, since it leaves a lexer as it is. -/
inductive Session (l : Lexer) : List Token → Lexer → Prop where
  | start : Session l [] l
  | handed {ts l' us l''} (before : Session l ts l') (calls : Handed l' us l'') :
      Session l (ts ++ us) l''
  | all {ts l' us l''} (before : Session l ts l') (step : l'.all = (.ok us, l'')) :
      Session l (ts ++ us) l''

/-- The stream consists of what has been taken and of the stream that is left. -/
theorem Session.stream {ts : List Token} (session : Session l ts l') :
  l.stream = ⟨ts ++ l'.stream.tokens, l'.stream.ending⟩
  := by
  induction session with
  | start => rfl
  | handed _ calls ih => rw [ih, calls.stream, List.append_assoc]
  | all _ step ih =>
    obtain ⟨rfl, left, _⟩ := stream_of_all_eq step
    rw [ih, left, List.append_nil]

/-- A lexer answers every call as a stream does of which `j` tokens have been taken, unless the call
looks ahead by the greatest distance there is. -/
structure Shows (l : Lexer) (s : TokenStream) (j : Nat) : Prop where
  next : l.next.1 = s.peek j
  peek : ∀ n : Distance, n < .allOnes 64 → (l.peek n).1 = s.peek (j + n.toNat)
  atEnd : l.atEnd = true ↔ j = s.tokens.length ∧ s.ending.reach = .ok ()
  fail : ∀ m, l.fail m = ⟨.remark m, s.place j⟩
  all : l.all.1 = (s.drop j).all
  drained : ∀ ts l', l.all = (.ok ts, l') → l'.atEnd = true

/-! ### The end of a stream -/

/-- A text ends, or cannot be read on, directly behind its last token. -/
theorem position_ending (c : Cursor) :
  (ofCursor c).stream.ending.position
    = ((ofCursor c).stream.tokens.getLast?.map Token.stop).getD c.position
  := by
  obtain ⟨d, passes, stop⟩ := c.passes_stop
  have place : (ofCursor c).stream.ending.position = d.position := by
    simp only [stream, ofCursor, Stretch.stream]
    obtain ⟨success, _, last⟩ | ⟨f, failed, read⟩ := stop
    · rw [success, last]
      rfl
    · rw [failed]
      exact Cursor.position_of_error read
  rw [place]
  exact passes.laid.stop

/-- After any calls none of which has failed a lexer answers as the stream of its text does. -/
theorem shows_of_session (source : String) (ts : List Token) (l : Lexer)
    (session : Session (ofString source) ts l) :
  tokenize source = (ofString source).stream.all ∧
    ts = (ofString source).stream.tokens.take ts.length ∧
    l.Shows (ofString source).stream ts.length
  := by
  have stream := session.stream
  have ends : (ofString source).stream.ending.position
      = ((ofString source).stream.tokens.getLast?.map Token.stop).getD .origin :=
    position_ending (.ofString source)
  refine ⟨all_stream _, ?_, ?_⟩
  · rw [stream, List.take_left]
  · constructor
    case next => rw [next_stream, stream, ← TokenStream.peek_append, Nat.add_zero]
    case peek =>
      intro n lt
      rw [peek_stream l lt, stream, TokenStream.peek_append]
    case atEnd =>
      rw [atEnd_iff, stream, List.length_append, Ending.reach_eq_ok, ← List.length_eq_zero_iff]
      dsimp only
      exact and_congr_left' (by omega)
    case fail =>
      intro m
      have place : (ofString source).stream.place ts.length
          = (l.stream.tokens.head?.map Token.start).getD l.stream.ending.position := by
        rw [TokenStream.place, ← ends, stream, List.getElem?_append_right (Nat.le_refl _),
          Nat.sub_self, ← List.head?_eq_getElem?]
      rw [fail, position_stream, place]
    case all => rw [all_stream, stream, TokenStream.drop_append]
    case drained =>
      intro us l' step
      exact (stream_of_all_eq step).2.2

/-- A name that is looked at and taken, and behind it a character that begins no token, which is met
by taking the next token and by looking ahead, however far. -/
theorem shows_of_session_unclassifiable :
  ∃ t l, Session (ofString "a@") [t] l ∧ l.Shows (ofString "a@").stream 1 ∧
    l.next.1 = .error ⟨.unclassifiable '@', ⟨1, 1, 1, 1⟩⟩ ∧
    (l.peek 0xfffffffffffffffe).1 = .error ⟨.unclassifiable '@', ⟨1, 1, 1, 1⟩⟩
  := by
  let t : Token := ⟨.identifier, "a", .origin, ⟨1, 1, 1, 1⟩⟩
  let l : Lexer := ⟨⟨['@'], ⟨1, 1, 1, 1⟩⟩, []⟩
  have name : (ofString "a@").peek 0 = (.ok (some t), { l with ahead := [t] }) := by decide +kernel
  have session : Session (ofString "a@") [t] l :=
    Session.start.handed ((Handed.start.peek name).next rfl)
  have stream : (ofString "a@").stream = ⟨[t], .broken ⟨.unclassifiable '@', ⟨1, 1, 1, 1⟩⟩⟩ := by
    decide +kernel
  have shows := (shows_of_session "a@" _ _ session).2.2
  have next : (ofString "a@").stream.peek 1 = .error ⟨.unclassifiable '@', ⟨1, 1, 1, 1⟩⟩ := by
    rw [stream]
    rfl
  have far : (ofString "a@").stream.peek (1 + (0xfffffffffffffffe : Distance).toNat)
      = .error ⟨.unclassifiable '@', ⟨1, 1, 1, 1⟩⟩ := by
    rw [stream, TokenStream.peek_beyond (Nat.le_add_right 1 _)]
    rfl
  exact ⟨t, l, session, shows, shows.next.trans next, (shows.peek _ (by decide)).trans far⟩

/-- To look ahead by the greatest distance is to see nothing, be it in front of a character that
begins no token. -/
theorem not_shows_greatest :
  ¬∀ source ts l, Session (ofString source) ts l → ∀ n : Distance,
    (l.peek n).1 = (ofString source).stream.peek (ts.length + n.toNat)
  := by
  intro shows
  have stream : (ofString "@").stream = ⟨[], .broken ⟨.unclassifiable '@', .origin⟩⟩ := by
    decide +kernel
  have seen : ((ofString "@").peek (BitVec.allOnes 64)).1 = .ok none := by decide +kernel
  have same := shows "@" [] (ofString "@") .start (BitVec.allOnes 64)
  rw [seen, stream, TokenStream.peek_beyond (Nat.zero_le _)] at same
  cases same

end Lexer

end LosslessScss
