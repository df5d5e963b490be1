import LosslessScss.Proofs.Acceptance
import LosslessScss.Proofs.Blocks
import LosslessScss.Proofs.Extension
import LosslessScss.Proofs.Grammar.Levels
import LosslessScss.Proofs.Lexicon.Parts
import LosslessScss.Proofs.RoundTrip
import LosslessScss.Proofs.Shape

/-!
# Blocks by themselves

What stands in a block is a stylesheet by itself, and a stylesheet may be put into a block
(`parse_block`).  In a block a closing mark follows the last statement, where the text of a
stylesheet ends, and neither is seen by the statements in front.
-/

namespace LosslessScss

/-! ### Statements in a block -/

/-- The statements of a stylesheet are those of a block. -/
theorem Derives.enclose {e : Ending} {n : Nat} {ts : List Token} {ns : List Node} {c : Token}
    (derives : Derives e n (.sequence .top) ts ns [])
    (proper : ∀ t ∈ ts, t.Proper) (closing : c.mark? = some '\x7d') (e' : Ending) (p : Position)
    (us : List Token) :
  Derives e' n (.sequence (.inside .block p)) (ts ++ c :: us) ns (c :: us)
  := by
  have closes : c.closes = true := Token.closes_eq closing
  generalize phrase : Phrase.sequence .top = q, none : [] = vs at derives
  induction derives with
  | sequenceEnd => exact .sequenceCloser rfl closing
  | sequenceCloser closer =>
    cases phrase
    cases closer
  | sequenceCons goesOn first others _ ih =>
    cases phrase
    subst none
    obtain ⟨q, rfl⟩ := others.top_end.2
    have first' := first.extend (w := c :: us) proper nofun (.inl (.closer rfl closes)) e'
    exact .sequenceCons goesOn first' (ih (first.forall_rest proper) rfl rfl)
  | _ => cases phrase

/-! ### The content of a block -/

/-- What is read inside of a block is a stylesheet by itself. -/
theorem stylesheet_of_inside {e : Ending} {n : Nat} {p : Position} {ts us : List Token}
    {ns : List Node} (inside : Derives e n (.sequence (.inside .block p)) ts ns us)
    (deep : n ≤ maxNesting) (proper : ∀ t ∈ ts, t.Proper) (q : Position) :
  ∃ vs, ts = vs ++ us ∧
    TokenStream.stylesheet ⟨vs, .finished q⟩ = .ok (.spanning .stylesheet ns .origin)
  := by
  obtain ⟨c, ws, rfl, closing⟩ := inside.sequence_end
  obtain ⟨vs, rfl⟩ := inside.suffix
  refine ⟨vs, rfl, ?_⟩
  let s : TokenStream := ⟨vs, .finished q⟩
  have balanced : Balanced n vs [] := Balanced.cut (w := c :: ws) inside.balanced
  have finished : s.ending = .finished q := rfl
  obtain ⟨m, parsed⟩ := (TokenStream.stylesheet_iff_balanced finished).mpr (balanced.mono deep)
  obtain ⟨ns', rfl, derives⟩ := TokenStream.derives_of_stylesheet parsed
  have proper' := fun t mem => proper t (List.mem_append_left _ mem)
  have enclosed := derives.enclose proper' closing e p ws
  obtain ⟨rfl, _⟩ := enclosed.sequence_unique (inside.mono deep)
  exact parsed

/-- The content of a block is parsed by itself as it is in the block. -/
theorem parse_content {source : String} {n b : Node} (parsed : parse source = .ok n)
    (mem : b ∈ n.preorder) (block : b.kind = .block) :
  ∃ m, parse (String.join (b.children.map Node.written)) = .ok m ∧
    Node.shapes m.children = Node.shapes b.children
  := by
  obtain ⟨ns, rfl, derives⟩ := TokenStream.derives_of_stylesheet parsed
  obtain ⟨q, finished⟩ := TokenStream.finished_of_stylesheet parsed
  have lexical : Lexical ((Lexer.ofString source).stream.tokens.map Token.lexeme) :=
    Cursor.lexical_readAll _ (Lexer.failure_of_stream finished)
  have proper := ((Lexer.stands_ofCursor (.ofString source)).stream finished).2
  have mem : b ∈ Node.preorderList ns := by
    refine (List.mem_cons.mp mem).resolve_left ?_
    rintro rfl
    cases block
  have read := derives.everyBlock (Nat.le_refl _) (List.suffix_refl _) proper .nil b mem block
  obtain ⟨k, p, us, ws, lt, part, inside⟩ := read
  have proper' := fun t mem => proper t (part.subset mem)
  obtain ⟨vs, rfl, alone⟩ := stylesheet_of_inside inside (Nat.le_of_lt lt) proper' q
  have lexemes := TokenStream.flatten_stylesheet alone fun t mem =>
    proper' t (List.mem_append_left _ mem)
  rw [Node.flatten_spanning rfl rfl] at lexemes
  have text : (String.join (b.children.map Node.written)).toList
      = (vs.map Token.lexeme).flatMap Lexeme.written := by
    rw [← Node.texts_eq_map, Node.toList_texts, lexemes]
  obtain ⟨ts, whole⟩ := part
  rw [← whole, List.map_append, List.map_append] at lexical
  obtain ⟨lexemes', reached⟩ := Lexer.stream_of_lexical text lexical.right.left
  obtain ⟨m, parsed', shapes⟩ := TokenStream.shapes_stylesheet lexemes' reached alone
  exact ⟨m, parsed', shapes⟩

/-! ### A stylesheet in a block -/

/-- A sequence in a block is read, if what stands in front of the closing mark is balanced. -/
theorem exists_inside {e : Ending} {ts : List Token} {c : Token} (reached : e.reach = .ok ())
    (balanced : Balanced (maxNesting - 1) ts []) (closing : c.mark? = some '\x7d') (p : Position) :
  ∃ ns us, Derives e (maxNesting - 1) (.sequence (.inside .block p)) (ts ++ [c]) ns us
  := by
  have closes : c.closes = true := Token.closes_eq closing
  let opened : List Opener := [⟨'\x7d', p⟩]
  have depth : opened.length + (maxNesting - 1) = maxNesting := rfl
  let s : State := ⟨ts ++ [c], 0, ∅⟩
  have fails := (levels_strict e (maxNesting - 1)).sequence depth (.inside .block p) rfl s
  have sound := (levels_sound e (maxNesting - 1)).sequence (.inside .block p) s
  rw [levels_ending] at fails sound
  cases read : (levels e Survey.plain (maxNesting - 1)).sequence (.inside .block p) s with
  | ok r => exact ⟨r.1, r.2.tokens, sound.of_eq r read⟩
  | error f =>
    obtain walks | past := fails.of_eq f read
    · rw [walk_balanced (balanced.append (w := [c]) (.inr closes)) depth] at walks
      rw [List.nil_append, walk_closes closing rfl, walk, reached] at walks
      cases walks
    · rw [reached] at past
      cases past

/-- A stylesheet is the content of a block, if one more group may be around it. -/
theorem inside_of_stylesheet {s : TokenStream} {n : Node} {e : Ending} {c : Token}
    (parsed : s.stylesheet = .ok n) (proper : ∀ t ∈ s.tokens, t.Proper)
    (balanced : Balanced (maxNesting - 1) s.tokens []) (reached : e.reach = .ok ())
    (closing : c.mark? = some '\x7d') (p : Position) :
  Derives e (maxNesting - 1) (.sequence (.inside .block p)) (s.tokens ++ [c]) n.children [c]
  := by
  obtain ⟨ns, rfl, derives⟩ := TokenStream.derives_of_stylesheet parsed
  obtain ⟨ns', us, inside⟩ := exists_inside reached balanced closing p
  have enclosed := derives.enclose proper closing e p []
  obtain ⟨rfl, rfl⟩ := (inside.mono (Nat.sub_le _ 1)).sequence_unique enclosed
  exact inside

/-- A name and a block are a rule. -/
theorem Derives.named_block {e : Ending} {n : Nat} {ts : List Token} {ns : List Node}
    {x o c : Token} (reached : e.reach = .ok ()) (name : x.kind = .identifier)
    (opening : o.mark? = some '\x7b') (closing : c.mark? = some '\x7d')
    (inside : Derives e n (.sequence (.inside .block o.start)) ts ns [c]) :
  Derives e (n + 1) (.sequence .top) (x :: o :: ts)
    [.spanning .rule [.spanning .selector [.leaf x] x.start, .branch .block ns o.start c.stop]
      x.start] []
  := by
  have noMark := x.mark?_of_identifier name
  have marks : Marks [o] Group.block.kind.opening := congrArg (fun m => [m]) opening
  have block : Derives e (n + 1) (.group .block) ([o] ++ ts) _ [] := .group marks inside closing
  have start : Surveyed .statements x := by
    constructor
    · simp [Level.standsAlone, noMark, name, Kind.isTrivia]
    · rw [name]
      rintro ⟨⟩
  have survey : Statement.plainSurvey e .statements (x :: o :: ts) = .ok .rule := by
    have opened : Group.openedBy? o ts = some .block := Group.openedBy?_eq_block.mpr opening
    rw [Statement.plainSurvey, Statement.plainSurveyFrom, Statement.openerLength, Statement.turn,
      noMark]
    exact Statement.plainSurveyFrom_block opened .statements false ⟨false, false⟩
  have selector : Derives e (n + 1) (.atoms .selector) (x :: o :: ts) [.leaf x] (o :: ts) := by
    refine .atomsCons ?_ (.atomName name (.callNone ?_)) (.atomsStop ?_)
    · simp [Loop.stops, noMark]
    · rw [Ending.atMark, opening]
      rfl
    · simp [Loop.stops, opening]
  have rule : Derives e (n + 1) (.statement Surroundings.top.scope) (x :: o :: ts) _ [] :=
    .rule start survey selector block
  refine .sequenceCons ?_ rule (.sequenceEnd reached)
  rw [noMark]
  rfl

/-- The tokens of a text in a block with a name in front of it. -/
theorem Lexer.stream_in_block {source : String} {ls : List Lexeme}
    (text : source.toList = ls.flatMap Lexeme.written) (lexical : Lexical ls)
    (noComment : ∀ l ∈ ls.getLast?, l.kind ≠ .lineComment) :
  ∃ x o ts c, (ofString ("x\x7b" ++ source ++ "\x7d")).stream.tokens = x :: o :: (ts ++ [c]) ∧
    x.kind = .identifier ∧ o.mark? = some '\x7b' ∧ ts.map Token.lexeme = ls ∧
      c.mark? = some '\x7d' ∧
        (ofString ("x\x7b" ++ source ++ "\x7d")).stream.ending.reach = .ok ()
  := by
  let last : Lexeme := ⟨.punctuation, ['\x7d']⟩
  let whole : List Lexeme := ⟨.identifier, ['x']⟩ :: ⟨.punctuation, ['\x7b']⟩ :: (ls ++ [last])
  have name (r : List Char) : Lexeme.Fits ⟨.identifier, ['x']⟩ ('\x7b' :: r) := by
    refine ⟨⟨'x', rfl, .inl (by decide)⟩, .plain (by decide) .nil, ?_, nofun⟩
    rintro _ ⟨⟩
    decide
  have bracket (r : List Char) : Lexeme.Fits ⟨.punctuation, ['\x7b']⟩ r :=
    ⟨'\x7b', rfl, by decide, nofun, nofun⟩
  have lexical' : Lexical whole := ⟨name _, bracket _, lexical.close noComment⟩
  have text' : ("x\x7b" ++ source ++ "\x7d").toList = whole.flatMap Lexeme.written := by
    simp [whole, last, text, Lexeme.written, Kind.opening, Kind.closing]
  obtain ⟨lexemes, reached⟩ := stream_of_lexical text' lexical'
  obtain ⟨x, us, tokens, first, lexemes⟩ := List.map_eq_cons_iff.mp lexemes
  obtain ⟨o, vs, rfl, second, lexemes⟩ := List.map_eq_cons_iff.mp lexemes
  obtain ⟨ts, cs, rfl, others, lexemes⟩ := List.map_eq_append_iff.mp lexemes
  obtain ⟨c, rfl, closing⟩ := List.map_eq_singleton_iff.mp lexemes
  exact ⟨x, o, ts, c, tokens, congrArg Lexeme.kind first, Token.mark?_of_lexeme second, others,
    Token.mark?_of_lexeme closing, reached⟩

/-- A stylesheet is parsed in a block as it is by itself, unless it has too deep groups or ends with
a comment that would go on to the end of the block. -/
theorem parse_in_block {source : String} {n : Node} {ts : List Token}
    (parsed : parse source = .ok n) (tokens : tokenize source = .ok ts)
    (shallow : Balanced (maxNesting - 1) ts [])
    (noComment : ∀ t ∈ ts.getLast?, t.kind ≠ .lineComment) :
  ∃ m rule selector block, parse ("x\x7b" ++ source ++ "\x7d") = .ok m ∧ m.children = [rule] ∧
    rule.kind = .rule ∧ rule.children = [selector, block] ∧ block.kind = .block ∧
      Node.shapes block.children = Node.shapes n.children
  := by
  obtain ⟨lexical, text⟩ := lexical_of_tokenize tokens
  obtain ⟨rfl, _⟩ := Lexer.stream_of_all tokens
  have noComment' : ∀ l ∈ ((Lexer.ofString source).stream.tokens.map Token.lexeme).getLast?,
      l.kind ≠ .lineComment := by
    rw [List.getLast?_map]
    intro l mem
    obtain ⟨t, last, rfl⟩ := Option.mem_map.mp mem
    exact noComment t last
  rw [spelling, ← List.flatMap_map] at text
  obtain ⟨x, o, us, c, whole, name, opening, lexemes, closing, reached⟩ :=
    Lexer.stream_in_block text.symm lexical noComment'
  have stands := Lexer.stands_ofCursor (.ofString ("x\x7b" ++ source ++ "\x7d"))
  have proper : ∀ t ∈ us, t.Proper := by
    intro t mem
    apply stands.proper_stream
    change t ∈ (Lexer.ofString _).stream.tokens
    simp [whole, mem]
  obtain ⟨vs, left, balanced⟩ := shallow.of_lexemes lexemes
  obtain rfl := List.map_eq_nil_iff.mp left
  let u : TokenStream := ⟨us, (Lexer.ofString ("x\x7b" ++ source ++ "\x7d")).stream.ending⟩
  obtain ⟨n', parsed', shapes⟩ := TokenStream.shapes_stylesheet (u := u) lexemes reached parsed
  have inside := inside_of_stylesheet parsed' proper balanced reached closing o.start
  have derives := inside.named_block reached name opening closing
  rw [← whole] at derives
  exact ⟨_, _, _, _, TokenStream.stylesheet_of_derives derives, rfl, rfl, rfl, rfl, shapes⟩

/-- A block is parsed alike in any context.  What stands in a block of a text, however deep, makes
up the same nodes by itself, at other places.  A text that is parsed makes up the same nodes inside
of a block, if its groups leave room for one more around them and no comment at its end would go on
to the end of the block. -/
theorem parse_block (source : String) (n : Node) (parsed : parse source = .ok n) :
  (∀ b ∈ n.preorder, b.kind = .block →
    ∃ m, parse (String.join (b.children.map Node.written)) = .ok m ∧
      Node.shapes m.children = Node.shapes b.children) ∧
    ∃ ts, tokenize source = .ok ts ∧
      (Balanced (maxNesting - 1) ts [] → (∀ t ∈ ts.getLast?, t.kind ≠ .lineComment) →
        ∃ m rule selector block, parse ("x\x7b" ++ source ++ "\x7d") = .ok m ∧
          m.children = [rule] ∧ rule.kind = .rule ∧ rule.children = [selector, block] ∧
            block.kind = .block ∧ Node.shapes block.children = Node.shapes n.children)
  := by
  obtain ⟨p, finished⟩ := TokenStream.finished_of_stylesheet parsed
  have tokens : tokenize source = .ok (Lexer.ofString source).stream.tokens :=
    tokenize_eq_ok_iff.mpr ⟨Lexer.failure_of_stream finished, rfl⟩
  exact ⟨fun b mem block => parse_content parsed mem block, _, tokens,
    fun shallow noComment => parse_in_block parsed tokens shallow noComment⟩

/-- A rule with a declaration, which is parsed by itself, and which is put into another block with
the rule. -/
theorem parse_block_rule :
  ∃ n, parse "a\x7bb:c\x7d" = .ok n ∧
    (∃ b ∈ n.preorder, b.kind = .block ∧ ∃ m,
      parse (String.join (b.children.map Node.written)) = .ok m ∧
        Node.shapes m.children = Node.shapes b.children) ∧
      ∃ m rule selector block, parse ("x\x7b" ++ "a\x7bb:c\x7d" ++ "\x7d") = .ok m ∧
        m.children = [rule] ∧ rule.kind = .rule ∧ rule.children = [selector, block] ∧
          block.kind = .block ∧ Node.shapes block.children = Node.shapes n.children
  := by
  have blocks : (parse "a\x7bb:c\x7d").toOption.any
      (fun n => n.preorder.any fun b => b.kind = .block) = true := by
    decide +kernel
  have tokens : tokenize "a\x7bb:c\x7d" = .ok
      [⟨.identifier, "a", ⟨0, 1, 0, 0⟩, ⟨1, 1, 1, 1⟩⟩,
        ⟨.punctuation, "\x7b", ⟨1, 1, 1, 1⟩, ⟨2, 1, 2, 2⟩⟩,
        ⟨.identifier, "b", ⟨2, 1, 2, 2⟩, ⟨3, 1, 3, 3⟩⟩,
        ⟨.punctuation, ":", ⟨3, 1, 3, 3⟩, ⟨4, 1, 4, 4⟩⟩,
        ⟨.identifier, "c", ⟨4, 1, 4, 4⟩, ⟨5, 1, 5, 5⟩⟩,
        ⟨.punctuation, "\x7d", ⟨5, 1, 5, 5⟩, ⟨6, 1, 6, 6⟩⟩] := by
    decide +kernel
  cases parsed : parse "a\x7bb:c\x7d" with
  | error => rw [parsed] at blocks; cases blocks
  | ok n =>
    rw [parsed] at blocks
    obtain ⟨content, ts, tokens', embedded⟩ := parse_block _ n parsed
    obtain rfl := Except.ok.inj (tokens'.symm.trans tokens)
    obtain ⟨b, mem, block⟩ := List.any_eq_true.mp blocks
    have kind := of_decide_eq_true block
    refine ⟨n, rfl, ⟨b, mem, kind, content b mem kind⟩, embedded ?_ ?_⟩
    · have name {t : Token} {ts : List Token} (kind : t.kind = .identifier) : t.Passes ts :=
        .of_kind (by simp [kind])
      have colon {t : Token} {ts : List Token} (mark : t.mark? = some ':') : t.Passes ts :=
        .of_mark mark rfl (by decide) nofun
      refine .token (name rfl) (.group (g := .block) ?_
        (.token (name rfl) (.token (colon ?_) (.token (name rfl) .refl))) ?_ .refl)
      all_goals decide
    · rintro _ ⟨⟩
      nofun

end LosslessScss
