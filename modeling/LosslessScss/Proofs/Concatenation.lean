import LosslessScss.Proofs.Acceptance
import LosslessScss.Proofs.Finished
import LosslessScss.Proofs.Shift

/-!
# Stylesheets one behind the other

Two texts one behind the other make up the nodes of the first one, followed by those of the second
one at shifted places, if the last node of the first one is finished (`parse_append`).  Both the
lexer and the parser come to the second text as they would come to it alone.
-/

namespace LosslessScss

/-! ### The tokens of two texts -/

/-- The first token of a text is at its beginning. -/
theorem Cursor.head_of_readAll {c : Cursor} {t : Token} {ts : List Token} {x : Char}
    (tokens : c.readAll.tokens = t :: ts) (mark : t.mark? = some x) :
  c.rest.head? = some x
  := by
  cases read : c.read with
  | mk r d =>
    rcases r with f | _ | u
    · rw [readAll_of_error read] at tokens
      cases tokens
    · rw [readAll_of_none read] at tokens
      cases tokens
    · rw [readAll_of_some read] at tokens
      cases tokens
      have passes := Passes.of_read read
      rw [passes.text, spelling_cons, (passes.proper t List.mem_cons_self).lexeme mark]
      rfl

/-- A stream of tokens with others in front of it. -/
def TokenStream.behind (ts : List Token) (s : TokenStream) : TokenStream :=
  { s with tokens := ts ++ s.tokens }

/-- The tokens of a text whose last one is a barrier, followed by those of another text. -/
theorem Lexer.stream_append (a b : String) {p : Position}
    (finished : (ofString a).stream.ending = .finished p)
    (ends : EndsWith Token.bars (ofString a).stream.tokens) :
  (ofString (a ++ b)).stream
    = ((ofString b).stream.shift (Position.origin.after a.toList)).behind (ofString a).stream.tokens
  := by
  have noFailure := failure_of_stream finished
  obtain ⟨passes, last⟩ := Cursor.passes_readAll _ noFailure
  have text : a.toList = spelling (Cursor.ofString a).readAll.tokens := by
    have whole := passes.text
    rwa [last, List.append_nil] at whole
  have place : (Cursor.ofString a).readAll.cursor.position = Position.origin.after a.toList := by
    rw [text]
    exact passes.place
  have whole : Cursor.ofString (a ++ b) = ⟨a.toList ++ b.toList, .origin⟩ := by
    rw [Cursor.ofString, String.toList_append]
  have all := Cursor.readAll_append (Cursor.ofString a) b.toList noFailure ends
  rw [place, Cursor.readAll_of_place] at all
  have reads : (Cursor.ofString (a ++ b)).readAll
      = ((Cursor.ofString b).readAll.shift (Position.origin.after a.toList)).behind
        (Cursor.ofString a).readAll.tokens := by
    rw [whole]
    exact all
  have stream (c : Cursor) : (ofCursor c).stream = c.readAll.stream := rfl
  rw [ofString, ofString, ofString, stream, stream, stream, reads, ← Stretch.stream_shift]
  rfl

/-! ### The nodes of two texts -/

namespace TokenStream

variable {s u : TokenStream} {ns : List Node} {m : Node} {p : Position}

/-- Statements of which the last one is finished, followed by a stylesheet at another place. -/
theorem children_behind (derives : Derives s.ending maxNesting (.sequence .top) s.tokens ns [])
    (proper : ∀ t ∈ s.tokens, t.Proper) (last : ns.getLast? = some m)
    (done : m.isFinished = true ∨ m.endsInBlock = true)
    (before : m.FinishedBefore (u.shift p).ending (u.shift p).tokens) :
  ((u.shift p).behind s.tokens).stylesheet.map Node.children
    = (u.stylesheet.map fun n => ns ++ Node.shiftList p n.children).mapError (Failure.shift p)
  := by
  have continues := (derives.continues proper last done).2 (u.ending.shift p) _ before
  obtain ⟨s', rest, read⟩ := continues ((u.shift p).behind s.tokens).initial rfl
  have shifted := Level.sequence_shift (n := maxNesting) (e := u.ending) (s := u.initial) p rest
  have alone := u.children_stylesheet
  have ending : ((u.shift p).behind s.tokens).ending = u.ending.shift p := rfl
  rw [children_stylesheet, ending, read]
  generalize (levels (u.ending.shift p) Survey.plain maxNesting).sequence .top s' = y at shifted ⊢
  generalize (levels u.ending Survey.plain maxNesting).sequence .top u.initial = x at shifted alone
  cases stylesheet : u.stylesheet with
  | error f =>
    rw [stylesheet] at alone
    cases x with
    | ok => cases alone
    | error =>
      cases alone
      cases y with
      | ok => cases shifted
      | error => cases shifted; rfl
  | ok n =>
    rw [stylesheet] at alone
    cases x with
    | error => cases alone
    | ok r =>
      have same : n.children = r.1 := Except.ok.inj alone
      cases y with
      | error => cases shifted
      | ok =>
        have nodes := Except.ok.inj shifted
        change _ = Except.ok (ns ++ Node.shiftList p n.children)
        rw [same]
        exact congrArg (fun ms => Except.ok (ns ++ ms)) nodes

/-- Balanced tokens, followed by what cannot be read. -/
theorem broken_behind {f : Failure} (balanced : Balanced maxNesting s.tokens [])
    (none : u.tokens = []) (broken : u.ending = .broken f) (p : Position) :
  u.stylesheet = .error f ∧ ((u.shift p).behind s.tokens).stylesheet = .error (f.shift p)
  := by
  constructor
  · exact stylesheet_of_broken broken (none ▸ .refl)
  · apply stylesheet_of_broken (congrArg (Ending.shift p) broken)
    simpa [behind, shift, none] using balanced

end TokenStream

/-- No semicolon stands at the beginning of a text that starts with another character, unless the
text cannot be read at all. -/
theorem Lexer.finishedBefore {b : String} (m : Node) (other : b.toList.head? ≠ some ';')
    (read : (ofString b).stream.tokens = [] → (ofString b).stream.ending.reach = .ok ())
    (p : Position) :
  m.FinishedBefore ((ofString b).stream.shift p).ending ((ofString b).stream.shift p).tokens
  := by
  right
  unfold TokenStream.shift
  cases tokens : (ofString b).stream.tokens with
  | nil =>
    obtain ⟨q, finished⟩ := Ending.eq_finished_of_reach (read tokens)
    rw [finished]
    rfl
  | cons t ts =>
    have noMark : t.mark? ≠ some ';' := fun mark => other (Cursor.head_of_readAll tokens mark)
    exact congrArg Except.ok (decide_eq_false noMark)

/-- Statements of which the last one is finished do not change when a text follows.  The nodes of
that text are those that it makes up alone, at places that are shifted by the end of the
statements, and where it fails alone it fails at a shifted place. -/
theorem parse_append (a b : String) (m n : Node) (parsed : parse a = .ok m)
    (last : m.children.getLast? = some n)
    (finished : n.isFinished = true ∨ n.endsInBlock = true ∧ b.toList.head? ≠ some ';') :
  (∀ t, parse b = .ok t → ∃ t', parse (a ++ b) = .ok t' ∧
      t'.children = m.children ++ Node.shiftList (Position.origin.after a.toList) t.children) ∧
    ∀ f, parse b = .error f → parse (a ++ b) = .error (f.shift (Position.origin.after a.toList))
  := by
  obtain ⟨ns, rfl, derives⟩ := TokenStream.derives_of_stylesheet parsed
  obtain ⟨q, ending⟩ := TokenStream.finished_of_stylesheet parsed
  have proper := ((Lexer.stands_ofCursor (.ofString a)).stream ending).2
  have done : n.isFinished = true ∨ n.endsInBlock = true := finished.imp_right And.left
  have ends := (derives.continues proper last done).1
  have stream := Lexer.stream_append a b ending ends
  have whole : parse (a ++ b) = (Lexer.ofString (a ++ b)).stream.stylesheet := rfl
  have second : parse b = (Lexer.ofString b).stream.stylesheet := rfl
  rw [whole, stream, second]
  generalize Position.origin.after a.toList = p
  by_cases read : (Lexer.ofString b).stream.tokens = [] →
      (Lexer.ofString b).stream.ending.reach = .ok ()
  · have before : n.FinishedBefore ((Lexer.ofString b).stream.shift p).ending
        ((Lexer.ofString b).stream.shift p).tokens :=
      finished.elim .inl fun ⟨_, other⟩ => Lexer.finishedBefore n other read p
    have nodes := TokenStream.children_behind derives proper last done before
    generalize (TokenStream.behind _ _).stylesheet = joined at nodes ⊢
    constructor
    · intro t stylesheet
      rw [stylesheet] at nodes
      cases joined with
      | error => cases nodes
      | ok t' => exact ⟨t', rfl, Except.ok.inj nodes⟩
    · intro f stylesheet
      rw [stylesheet] at nodes
      cases joined with
      | ok => cases nodes
      | error => exact congrArg Except.error (Except.error.inj nodes)
  · obtain ⟨none, broken⟩ := Classical.not_imp.mp read
    cases failure : (Lexer.ofString b).stream.ending with
    | finished => exact absurd (by rw [failure]; rfl) broken
    | broken f =>
      obtain ⟨alone, joined⟩ := TokenStream.broken_behind derives.balanced none failure p
      rw [alone, joined]
      exact ⟨nofun, fun _ same => Except.error.inj same ▸ rfl⟩

/-- A declaration that ends in a block, followed by a rule, and by a bracket that closes nothing. -/
theorem parse_append_declaration :
  (∃ m t t', parse "a: b\x7bc\x7d" = .ok m ∧ parse "\nd\x7b\x7d" = .ok t ∧
      parse ("a: b\x7bc\x7d" ++ "\nd\x7b\x7d") = .ok t' ∧
      t'.children = m.children ++ Node.shiftList ⟨7, 1, 7, 7⟩ t.children) ∧
    parse ("a: b\x7bc\x7d" ++ "\n)") = .error ⟨.unexpected ')', ⟨8, 2, 0, 8⟩⟩
  := by
  have place : Position.origin.after "a: b\x7bc\x7d".toList = ⟨7, 1, 7, 7⟩ := by decide +kernel
  have ends : ((parse "a: b\x7bc\x7d").toOption.bind fun m => m.children.getLast?).any
      Node.endsInBlock = true := by
    decide +kernel
  have rule : (parse "\nd\x7b\x7d").isOk = true := by decide +kernel
  have bracket : parse "\n)" = .error ⟨.unexpected ')', ⟨1, 2, 0, 1⟩⟩ := by decide +kernel
  cases first : parse "a: b\x7bc\x7d" with
  | error => rw [first] at ends; cases ends
  | ok m =>
    rw [first] at ends
    obtain ⟨n, last, block⟩ := (Option.any_eq_true _ _).mp ends
    have joins b (other : b.toList.head? ≠ some ';') :=
      parse_append _ b m n first last (.inr ⟨block, other⟩)
    rw [place] at joins
    constructor
    · cases second : parse "\nd\x7b\x7d" with
      | error => rw [second] at rule; cases rule
      | ok t =>
        obtain ⟨t', joined, children⟩ := (joins _ (by decide +kernel)).1 t second
        exact ⟨m, t, t', rfl, rfl, joined, children⟩
    · exact (joins "\n)" (by decide +kernel)).2 _ bracket

end LosslessScss
