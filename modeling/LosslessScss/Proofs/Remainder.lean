import LosslessScss.Proofs.RoundTrip
import LosslessScss.Proofs.Shift
import LosslessScss.Proofs.Stream

/-!
# Parsing the rest of a text

A lexer may start anywhere in a text, hand out some tokens and be looked ahead in before it is given
to the parser.  None of that bears on the tree: the parser makes of the text that is left what it
makes of this text alone, and only the places are shifted by the place of the next token
(`parse_of_handed`).  The one place that is never shifted is that of a stylesheet without a node.
-/

namespace LosslessScss

/-! ### The tokens that are left -/

/-- There is one place behind tokens that have been read. -/
theorem Cursor.Passes.unique {c d e : Cursor} {ts : List Token} (passes : c.Passes ts d)
    (passes' : c.Passes ts e) :
  d = e
  := by
  have rest : d.rest = e.rest := List.append_cancel_left (passes.text.symm.trans passes'.text)
  have place : d.position = e.position := passes.place.trans passes'.place.symm
  cases d
  cases e
  rw [mk.injEq]
  exact ⟨rest, place⟩

/-- Some of the tokens of a text have been read when the cursor stands behind them, and the others
are read from there. -/
theorem Cursor.readAll_behind {c : Cursor} {ts us : List Token}
    (tokens : c.readAll.tokens = ts ++ us) :
  ∃ d, c.Passes ts d ∧ c.readAll = d.readAll.behind ts
  := by
  induction ts generalizing c with
  | nil => exact ⟨c, .refl c, rfl⟩
  | cons t ts ih =>
    rcases read : c.read with ⟨f | _ | u, d⟩
    · rw [readAll_of_error read] at tokens
      cases tokens
    · rw [readAll_of_none read] at tokens
      cases tokens
    · rw [readAll_of_some read] at tokens ⊢
      have tokens : u :: d.readAll.tokens = t :: (ts ++ us) := tokens
      obtain ⟨rfl, rest⟩ := List.cons.inj tokens
      obtain ⟨e, passes, others⟩ := ih rest
      exact ⟨e, (Passes.of_read read).append passes, congrArg (Stretch.cons u) others⟩

namespace Lexer

variable {l : Lexer} {c : Cursor} {ts : List Token}

/-- A lexer that has handed out tokens has the same ones left as a lexer that starts behind them. -/
theorem Handed.stream_behind (handed : Handed (ofCursor c) ts l) :
  ∃ d, c.Passes ts d ∧ l.position = d.position ∧ l.stream = (ofCursor d).stream
  := by
  have whole : c.readAll.stream = ⟨ts ++ l.stream.tokens, l.stream.ending⟩ := handed.stream
  have tokens : c.readAll.tokens = ts ++ l.stream.tokens := congrArg TokenStream.tokens whole
  obtain ⟨d, passes, reads⟩ := Cursor.readAll_behind tokens
  obtain ⟨e, passes', stands⟩ := handed.passes (stands_ofCursor c)
  obtain rfl := passes.unique passes'
  refine ⟨d, passes, stands.position, ?_⟩
  have split : c.readAll.stream = ⟨ts ++ d.readAll.tokens, d.readAll.stream.ending⟩ := by
    rw [reads]
    rfl
  obtain ⟨tokens, ending⟩ := TokenStream.mk.inj (whole.symm.trans split)
  have tokens := List.append_cancel_left tokens
  calc
    l.stream = ⟨l.stream.tokens, l.stream.ending⟩ := rfl
    _ = ⟨d.readAll.tokens, d.readAll.stream.ending⟩ := by rw [tokens, ending]

/-- The tokens of a text that stands at a place. -/
theorem stream_shift (u : String) (p : Position) :
  (ofCursor ⟨u.toList, p⟩).stream = (ofString u).stream.shift p
  := by
  have stream (c : Cursor) : (ofCursor c).stream = c.readAll.stream := rfl
  rw [ofString, stream, stream, Cursor.readAll_of_place, Stretch.stream_shift]

end Lexer

/-! ### The tree of the rest -/

/-- The stylesheet of a text that itself stands at `p`.  Without a node it stays where it is. -/
def Node.shiftStylesheet (p : Position) (n : Node) : Node :=
  if n.children = [] then n else n.shift p

/-- Nodes at other places span a node at another place. -/
theorem Node.shiftStylesheet_spanning (p : Position) (ns : List Node) :
  (spanning .stylesheet ns .origin).shiftStylesheet p
    = spanning .stylesheet (shiftList p ns) .origin
  := by
  have last (ns : List Node) : (shiftList p ns).getLast? = ns.getLast?.map (Node.shift p) := by
    induction ns with
    | nil => rfl
    | cons n ns ih =>
      cases ns with
      | nil => rfl
      | cons => exact ih
  cases ns with
  | nil => rfl
  | cons n ns =>
    have other : (spanning .stylesheet (n :: ns) .origin).children ≠ [] := List.cons_ne_nil n ns
    obtain ⟨m, final⟩ : ∃ m, (n :: ns).getLast? = some m := ⟨_, List.getLast?_cons⟩
    rw [shiftStylesheet, if_neg other, spanning, spanning, last, final, shift]
    simp only [shiftList, List.head?_cons, Option.map_some, Option.getD_some, start_shift,
      stop_shift]

namespace TokenStream

variable {s : TokenStream} {n : Node}

/-- A stylesheet spans its children. -/
theorem spanning_children (parsed : s.stylesheet = .ok n) :
  .spanning .stylesheet n.children .origin = n
  := by
  obtain ⟨ns, rfl, _⟩ := derives_of_stylesheet parsed
  rfl

/-- The nodes of a text that itself stands at `p`. -/
theorem children_shift (p : Position) (s : TokenStream) :
  (s.shift p).stylesheet.map Node.children
    = ((s.stylesheet.map Node.children).map (Node.shiftList p)).mapError (Failure.shift p)
  := by
  have tokens : (s.shift p).initial.tokens = s.initial.tokens.map (Token.shift p) := rfl
  rw [children_stylesheet, children_stylesheet]
  apply (Level.sequence_shift (e := s.ending) p tokens).trans
  cases (levels s.ending Survey.plain maxNesting).sequence .top s.initial <;> rfl

/-- The stylesheet of a text that itself stands at `p`. -/
theorem stylesheet_shift (p : Position) (s : TokenStream) :
  (s.shift p).stylesheet
    = (s.stylesheet.map (Node.shiftStylesheet p)).mapError (Failure.shift p)
  := by
  have children := children_shift p s
  cases shifted : (s.shift p).stylesheet with
  | error g =>
    cases parsed : s.stylesheet with
    | error f =>
      rw [shifted, parsed] at children
      exact congrArg Except.error (Except.error.inj children)
    | ok n =>
      rw [shifted, parsed] at children
      cases children
  | ok m =>
    cases parsed : s.stylesheet with
    | error f =>
      rw [shifted, parsed] at children
      cases children
    | ok n =>
      rw [shifted, parsed] at children
      have children : m.children = Node.shiftList p n.children := Except.ok.inj children
      apply congrArg Except.ok
      calc
        m = .spanning .stylesheet m.children .origin := (spanning_children shifted).symm
        _ = .spanning .stylesheet (Node.shiftList p n.children) .origin := by rw [children]
        _ = (Node.spanning .stylesheet n.children .origin).shiftStylesheet p :=
          (Node.shiftStylesheet_spanning p n.children).symm
        _ = n.shiftStylesheet p := by rw [spanning_children parsed]

end TokenStream

/-- The tree of a text moves to another place, unless the text is empty. -/
theorem Node.shiftStylesheet_of_parse {u : String} {n : Node} (parsed : parse u = .ok n)
    (p : Position) :
  n.shiftStylesheet p = if u = "" then .branch .stylesheet [] .origin .origin else n.shift p
  := by
  split
  case isTrue empty =>
    have alone : parse "" = .ok (.branch .stylesheet [] .origin .origin) := by decide +kernel
    rw [empty, alone] at parsed
    cases parsed
    rfl
  case isFalse other =>
    apply if_neg
    intro none
    have written := (Lexer.stands_ofCursor (.ofString u)).written_parse parsed
    rw [← TokenStream.spanning_children parsed, none] at written
    exact other (String.toList_eq_nil_iff.mp (written.symm.trans rfl))

/-- The rest of a text is parsed as this rest alone is, whatever has been skipped, handed out or
looked at before.  Its nodes and its failures are found at places that are shifted by the place of
the next token; only the stylesheet of an empty rest is not. -/
theorem parse_of_handed (source : String) (k : Nat) (ts : List Token) (l : Lexer)
    (handed : Lexer.Handed (.ofCursor ((Cursor.ofString source).skip k)) ts l) :
  ∃ u : String, source.toList = source.toList.take k ++ spelling ts ++ u.toList ∧
    l.position = Position.origin.after (source.toList.take k ++ spelling ts) ∧
    ((∃ n, l.parse = .ok n) ↔ ∃ n, parse u = .ok n) ∧
    (∀ n, parse u = .ok n → l.parse =
      .ok (if u = "" then .branch .stylesheet [] .origin .origin else n.shift l.position)) ∧
    ∀ f, parse u = .error f → l.parse = .error (f.shift l.position)
  := by
  obtain ⟨d, passes, position, stream⟩ := handed.stream_behind
  have place : d.position = Position.origin.after (source.toList.take k ++ spelling ts) := by
    rw [Position.after_append]
    exact passes.place
  have text : source.toList.drop k = spelling ts ++ d.rest := passes.text
  have parses : l.parse
      = ((parse (.ofList d.rest)).map (Node.shiftStylesheet d.position)).mapError
        (Failure.shift d.position) := by
    have alone := Lexer.stream_shift (.ofList d.rest) d.position
    rw [String.toList_ofList] at alone
    rw [Lexer.parse, stream, alone, TokenStream.stylesheet_shift]
    rfl
  rw [parses, position]
  refine ⟨.ofList d.rest, ?_, place, ?_, ?_, ?_⟩
  · rw [String.toList_ofList, List.append_assoc, ← text, List.take_append_drop]
  · cases parse (.ofList d.rest) with
    | error => exact ⟨nofun, nofun⟩
    | ok n => exact ⟨fun _ => ⟨n, rfl⟩, fun _ => ⟨_, rfl⟩⟩
  · intro n parsed
    rw [parsed]
    apply congrArg Except.ok
    exact Node.shiftStylesheet_of_parse parsed d.position
  · intro f parsed
    rw [parsed]
    rfl

/-- One character is skipped, one token is handed out and the next but one is looked at before a
rest of two lines is parsed. -/
theorem parse_of_handed_lines :
  ∃ l n, Lexer.Handed (.ofCursor ((Cursor.ofString "xa b:\nc").skip 1))
      [⟨.identifier, "a", ⟨1, 1, 1, 1⟩, ⟨2, 1, 2, 2⟩⟩] l ∧ parse " b:\nc" = .ok n ∧
    l.parse = .ok (n.shift ⟨2, 1, 2, 2⟩)
  := by
  let start : Lexer := .ofCursor ((Cursor.ofString "xa b:\nc").skip 1)
  let behind : Lexer := ⟨⟨" b:\nc".toList, ⟨2, 1, 2, 2⟩⟩, []⟩
  have taken : start.next
      = (.ok (some ⟨.identifier, "a", ⟨1, 1, 1, 1⟩, ⟨2, 1, 2, 2⟩⟩), behind) := by
    decide +kernel
  have seen : behind.peek 1
      = (.ok (some ⟨.identifier, "b", ⟨3, 1, 3, 3⟩, ⟨4, 1, 4, 4⟩⟩), (behind.peek 1).2) := by
    decide +kernel
  have handed : start.Handed _ _ := .peek (.next .start taken) seen
  obtain ⟨u, text, place, _, parses, _⟩ := parse_of_handed _ 1 _ _ handed
  have whole : "xa b:\nc".toList = "xa b:\nc".toList.take 1
      ++ spelling [⟨.identifier, "a", ⟨1, 1, 1, 1⟩, ⟨2, 1, 2, 2⟩⟩] ++ " b:\nc".toList := by
    decide +kernel
  have rest : u.toList = " b:\nc".toList := List.append_cancel_left (text.symm.trans whole)
  obtain rfl := String.toList_injective rest
  have alone : (parse " b:\nc").isOk = true := by decide +kernel
  cases parsed : parse " b:\nc" with
  | error => rw [parsed] at alone; cases alone
  | ok n =>
    have shifted := parses n parsed
    rw [if_neg (by decide), place] at shifted
    exact ⟨_, n, handed, rfl, shifted⟩

end LosslessScss
