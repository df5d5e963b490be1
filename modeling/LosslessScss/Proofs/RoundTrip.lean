import LosslessScss.Proofs.Grammar.Stylesheet
import LosslessScss.Proofs.Reading

/-!
# The round trip

The syntax tree of a text keeps all of the text.  The lexemes of the nodes that a phrase makes
up are those of the tokens it takes (`Derives.flatten`), and the text of a node is the text of
its lexemes (`Node.toList_written`).
-/

namespace LosslessScss

/-! ### Lexemes of nodes -/

namespace Node

@[simp]
theorem flattenList_nil :
  flattenList [] = []
  := by
  rw [flattenList]

@[simp]
theorem flattenList_cons (n : Node) (ns : List Node) :
  flattenList (n :: ns) = n.flatten ++ flattenList ns
  := by
  rw [flattenList]

@[simp]
theorem flattenList_append (ms ns : List Node) :
  flattenList (ms ++ ns) = flattenList ms ++ flattenList ns
  := by
  induction ms with
  | nil => rfl
  | cons m ms ih => simp [ih]

@[simp]
theorem flattenList_map_leaf (ts : List Token) :
  flattenList (ts.map leaf) = ts.map Token.lexeme
  := by
  induction ts with
  | nil => rfl
  | cons t ts ih => simp [ih, flatten]

@[simp]
theorem flatten_leaf (t : Token) :
  (leaf t).flatten = [t.lexeme]
  := by
  rw [flatten]

theorem flatten_branch (k : Kind) (ns : List Node) (p q : Position) :
  (branch k ns p q).flatten
    = Lexeme.marks k.opening ++ flattenList ns ++ Lexeme.marks k.closing
  := by
  rw [flatten]

/-- A node without delimiters consists of the lexemes of its children. -/
theorem flatten_spanning {k : Kind} (opening : k.opening = "") (closing : k.closing = "")
    (ns : List Node) (p : Position) :
  (spanning k ns p).flatten = flattenList ns
  := by
  rw [spanning, flatten_branch, opening, closing]
  simp [Lexeme.marks]

theorem written_marks (delimiter : String) :
  (Lexeme.marks delimiter).flatMap Lexeme.written = delimiter.toList
  := by
  unfold Lexeme.marks
  induction delimiter.toList with
  | nil => rfl
  | cons c cs ih => simp [ih, Lexeme.written, Kind.opening, Kind.closing]

mutual

/-- The text of a node is the text of its lexemes. -/
theorem toList_written (n : Node) :
  n.written.toList = n.flatten.flatMap Lexeme.written
  := by
  cases n with
  | leaf t => simp [written, t.toList_written]
  | branch k ns p q =>
    rw [written, flatten_branch]
    simp only [String.toList_append, List.flatMap_append, written_marks, toList_texts ns]

theorem toList_texts (ns : List Node) :
  (String.join (texts ns)).toList = (flattenList ns).flatMap Lexeme.written
  := by
  cases ns with
  | nil => simp [texts]
  | cons n ns =>
    simp [texts, String.join_cons, toList_written n, toList_texts ns]

end

end Node

/-! ### Lexemes of derivations -/

theorem Marks.lexemes {ts : List Token} {delimiter : String} (marks : Marks ts delimiter)
    (proper : ∀ t ∈ ts, t.Proper) :
  ts.map Token.lexeme = Lexeme.marks delimiter
  := by
  unfold Marks at marks
  unfold Lexeme.marks
  generalize delimiter.toList = cs at marks ⊢
  induction ts generalizing cs with
  | nil =>
    cases cs with
    | nil => rfl
    | cons => cases marks
  | cons t ts ih =>
    cases cs with
    | nil => cases marks
    | cons c cs =>
      obtain ⟨mark, marks⟩ := List.cons.inj marks
      rw [List.map_cons, List.map_cons, (proper t List.mem_cons_self).lexeme mark,
        ih (fun u mem => proper u (List.mem_cons_of_mem t mem)) cs marks]

/-- The nodes `ns` have the lexemes of the tokens that `ts` starts with before `us`. -/
def Spells (ns : List Node) (ts us : List Token) : Prop :=
  Node.flattenList ns ++ us.map Token.lexeme = ts.map Token.lexeme

namespace Spells

variable {ms ns : List Node} {ts us vs : List Token}

theorem nil (ts : List Token) :
  Spells [] ts ts
  := by
  simp [Spells]

theorem leaves (bs ts : List Token) :
  Spells (bs.map .leaf) (bs ++ ts) ts
  := by
  simp [Spells]

theorem leaf (t : Token) (ts : List Token) :
  Spells [.leaf t] (t :: ts) ts
  := leaves [t] ts

theorem append (first : Spells ms ts us) (second : Spells ns us vs) :
  Spells (ms ++ ns) ts vs
  := by
  unfold Spells at *
  rw [Node.flattenList_append, List.append_assoc, second, first]

theorem branch {k : Kind} {p q : Position} {os : List Token} (cs : List Token)
    (opening : os.map Token.lexeme = Lexeme.marks k.opening)
    (inside : Spells ns ts (cs ++ us)) (closing : cs.map Token.lexeme = Lexeme.marks k.closing) :
  Spells [.branch k ns p q] (os ++ ts) us
  := by
  unfold Spells at *
  rw [List.map_append, ← inside, opening, List.map_append, closing]
  simp [Node.flatten_branch]

/-- A node without delimiters has the lexemes of its children. -/
theorem spanning (inside : Spells ns ts us) (k : Kind) (p : Position) (opening : k.opening = "")
    (closing : k.closing = "") :
  Spells [.spanning k ns p] ts us
  := by
  have bare {delimiter : String} (none : delimiter = "") :
      [].map Token.lexeme = Lexeme.marks delimiter := by
    rw [none]
    rfl
  exact branch [] (bare opening) inside (bare closing)

end Spells

theorem Terminator.spells {e : Ending} {marks : List Char} {ts us : List Token} {ns : List Node}
    (terminator : Terminator e marks ts ns us) :
  Spells ns ts us
  := by
  cases terminator with
  | mark => exact .leaf _ _
  | none => exact .nil _

/-- The lexemes that a phrase starts with: those of the caller of a call. -/
def Phrase.before : Phrase → List Lexeme
  | call caller => caller.flatten
  | _ => []

/-- The nodes that a phrase makes up have the lexemes of the tokens it takes, after those that
it starts with. -/
theorem Derives.flatten {e : Ending} {n : Nat} {p : Phrase} {ts us : List Token} {ns : List Node}
    (derives : Derives e n p ts ns us) (proper : ∀ t ∈ ts, t.Proper) :
  Node.flattenList ns ++ us.map Token.lexeme = p.before ++ ts.map Token.lexeme
  := by
  have behind {t : Token} {ts : List Token} (proper : ∀ u ∈ t :: ts, u.Proper) :
      ∀ u ∈ ts, u.Proper := fun u mem => proper u (List.mem_cons_of_mem t mem)
  -- For a call `m'` of `m` the lexemes of `m` come in front of the tokens.
  have called {m m' : Node} {ts us vs : List Token} (caller : Spells [m] ts us)
      (call : Node.flattenList [m'] ++ vs.map Token.lexeme
        = m.flatten ++ us.map Token.lexeme) : Spells [m'] ts vs := by
    unfold Spells at *
    rw [call, ← caller]
    simp
  induction derives with
  | group opening inside closing ih =>
    have proper' := fun t mem => proper t (List.mem_append_right _ mem)
    have last := (inside.forall_rest proper' _ List.mem_cons_self).lexeme closing
    apply Spells.branch [_] (opening.lexemes fun t mem => proper t (List.mem_append_left _ mem))
      (ih proper')
    rw [Lexeme.marks, Group.closing_kind, List.map_singleton, List.map_singleton, last]
  | callNone => simp [Phrase.before]
  | callArguments _ ih =>
    have ih : Spells _ _ _ := ih proper
    unfold Spells at ih
    rw [Node.flattenList_cons, Node.flatten_spanning rfl rfl, ← ih]
    simp [Phrase.before]
  | segmentsEnd | atomsStop | atomsEnd | headNone | sequenceEnd | sequenceCloser =>
    exact Spells.nil _
  | segmentToken | targetName | atomToken | statementToken => exact Spells.leaf _ _
  | segmentInterpolation _ ih | targetInterpolation _ ih | atomGroup _ _ ih
  | looseBlock _ _ _ _ ih =>
    exact ih proper
  | segmentsCons first _ ih ih' | atomsCons _ first _ ih ih' | sequenceCons _ first _ ih ih'
  | loose _ _ first _ _ ih ih' =>
    exact Spells.append (ih proper) (ih' (first.forall_rest proper))
  | atomName _ _ ih => exact called (.leaf _ _) (ih (behind proper))
  | atomInterpolation first _ ih ih' => exact called (ih proper) (ih' (first.forall_rest proper))
  | @atomCompound _ _ kind t _ _ _ which sigil _ _ _ ih =>
    have bare : [] = Lexeme.marks kind.closing := by obtain rfl | rfl := which <;> rfl
    have proper' : ∀ u ∈ [t], u.Proper := by simpa using proper t List.mem_cons_self
    exact Spells.branch [] (sigil.lexemes proper') (ih (behind proper)) bare
  | @atomPseudo _ kind _ _ _ _ _ _ _ which colons _ target _ ih ih' =>
    have proper' := fun t mem => proper t (List.mem_append_right _ mem)
    have bare : [] = Lexeme.marks kind.closing := by obtain rfl | rfl := which <;> rfl
    have name := called (ih proper') (ih' (target.forall_rest proper'))
    exact Spells.branch [] (colons.lexemes fun t mem => proper t (List.mem_append_left _ mem)) name
      bare
  | @headCall _ blanks t ts a us _ _ _ ih =>
    have arguments : Spells _ _ _ := ih fun t mem => proper t (by simp [mem])
    have name := (Spells.leaf t ts).append arguments
    exact (Spells.leaves blanks (t :: ts)).append name
  | atRuleBlock _ head prelude _ ih ih' ih'' =>
    have proper' := head.forall_rest (behind proper)
    have inside := (Spells.append (ih (behind proper)) (ih' proper')).append
      (ih'' (prelude.forall_rest proper'))
    exact ((Spells.leaf _ _).append inside).spanning .atRule _ rfl rfl
  | atRule _ head prelude _ final ih ih' =>
    have proper' := head.forall_rest (behind proper)
    have inside := (Spells.append (ih (behind proper)) (ih' proper')).append final.spells
    exact ((Spells.leaf _ _).append inside).spanning .atRule _ rfl rfl
  | rule _ _ selector _ ih ih' =>
    have selector' p := Spells.spanning (ih proper) .selector p rfl rfl
    exact ((selector' _).append (ih' (selector.forall_rest proper))).spanning .rule _ rfl rfl
  | @declarationBlock _ _ t _ _ c us _ _ _ _ _ _ _ _ property value _ final ih ih' ih'' =>
    have proper' := behind (property.forall_rest proper)
    have parts := Spells.append (ih' proper') (ih'' (value.forall_rest proper'))
    have value' := (Spells.leaf c us).append (parts.spanning .value c.stop rfl rfl)
    have property' := Spells.spanning (ih proper) .property t.start rfl rfl
    exact ((property'.append value').append final.spells).spanning .declaration _ rfl rfl
  | @declaration _ _ t _ _ c us _ _ _ _ _ _ property value _ final ih ih' =>
    have parts := ih' (behind (property.forall_rest proper))
    have value' := (Spells.leaf c us).append (Spells.spanning parts .value c.stop rfl rfl)
    have property' := Spells.spanning (ih proper) .property t.start rfl rfl
    exact ((property'.append value').append final.spells).spanning .declaration _ rfl rfl

/-! ### Stylesheets -/

/-- The tree of a stylesheet has the lexemes of its tokens. -/
theorem TokenStream.flatten_stylesheet {s : TokenStream} {n : Node} (parsed : s.stylesheet = .ok n)
    (proper : ∀ t ∈ s.tokens, t.Proper) :
  n.flatten = s.tokens.map Token.lexeme
  := by
  obtain ⟨ns, rfl, derives⟩ := derives_of_stylesheet parsed
  have lexemes : Node.flattenList ns ++ [] = s.tokens.map Token.lexeme := derives.flatten proper
  rw [List.append_nil] at lexemes
  rw [Node.flatten_spanning rfl rfl, lexemes]

/-- The tree of a stylesheet has the text of its tokens. -/
theorem TokenStream.written_stylesheet {s : TokenStream} {n : Node} (parsed : s.stylesheet = .ok n)
    (proper : ∀ t ∈ s.tokens, t.Proper) :
  n.written.toList = spelling s.tokens
  := by
  rw [Node.toList_written, s.flatten_stylesheet parsed proper, List.flatMap_map]
  rfl

/-- What a lexer still has to hand out and the text of its tree are the same. -/
theorem Lexer.Stands.written_parse {l : Lexer} {c : Cursor} {n : Node} (stands : l.Stands c)
    (parsed : l.parse = .ok n) :
  n.written.toList = c.rest
  := by
  obtain ⟨p, finished⟩ := TokenStream.finished_of_stylesheet parsed
  obtain ⟨text, proper⟩ := stands.stream finished
  rw [l.stream.written_stylesheet parsed proper, text]

/-- The text of a tree is the text that it was parsed from.  Of a text whose first `k` characters
have been skipped, and of which a lexer has handed out the tokens `ts` since, this is the
text from the next token on. -/
theorem written_of_parse :
  (∀ source n, parse source = .ok n → n.written = source) ∧
    ∀ source k ts l n, Lexer.Handed (.ofCursor ((Cursor.ofString source).skip k)) ts l →
      l.parse = .ok n →
        source.toList = source.toList.take k ++ spelling ts ++ n.written.toList ∧
          n.written.toList = source.toList.drop l.position.index
  := by
  constructor
  · intro source n parsed
    have written := (Lexer.stands_ofCursor (.ofString source)).written_parse parsed
    exact String.toList_injective written
  · intro source k ts l n handed parsed
    obtain ⟨c, passes, stands⟩ := handed.passes (Lexer.stands_ofCursor _)
    have text : source.toList.drop k = spelling ts ++ c.rest := passes.text
    have whole : source.toList = source.toList.take k ++ spelling ts ++ c.rest := by
      rw [List.append_assoc, ← text, List.take_append_drop]
    have place : c.position = Position.origin.after (source.toList.take k ++ spelling ts) := by
      rw [Position.after_append]
      exact passes.place
    rw [stands.written_parse parsed]
    generalize source.toList.take k ++ spelling ts = before at whole place ⊢
    refine ⟨whole, ?_⟩
    have index : (Position.origin.after before).index = before.length := by
      rw [Position.index_after]
      exact Nat.zero_add _
    rw [stands.position, place, index, whole, List.drop_left]

/-- One character is skipped, one token is handed out and the next but one is looked at before
the rest is parsed. -/
theorem written_of_parse_behind :
  ∃ l n, Lexer.Handed (.ofCursor ((Cursor.ofString "xa b\x7bc:d\x7d").skip 1))
      [⟨.identifier, "a", ⟨1, 1, 1, 1⟩, ⟨2, 1, 2, 2⟩⟩] l ∧ l.parse = .ok n ∧
    n.written = " b\x7bc:d\x7d"
  := by
  let start : Lexer := .ofCursor ((Cursor.ofString "xa b\x7bc:d\x7d").skip 1)
  let behind : Lexer := ⟨⟨" b\x7bc:d\x7d".toList, ⟨2, 1, 2, 2⟩⟩, []⟩
  have taken : start.next
      = (.ok (some ⟨.identifier, "a", ⟨1, 1, 1, 1⟩, ⟨2, 1, 2, 2⟩⟩), behind) := by
    decide +kernel
  have seen : behind.peek 1
      = (.ok (some ⟨.identifier, "b", ⟨3, 1, 3, 3⟩, ⟨4, 1, 4, 4⟩⟩), (behind.peek 1).2) := by
    decide +kernel
  have handed : start.Handed _ _ := .peek (.next .start taken) seen
  have parses : (behind.peek 1).2.parse.isOk = true := by decide +kernel
  cases parsed : (behind.peek 1).2.parse with
  | error => rw [parsed] at parses; cases parses
  | ok n =>
    have written := (written_of_parse.2 _ 1 _ _ n handed parsed).2
    refine ⟨_, n, handed, parsed, String.toList_injective (written.trans ?_)⟩
    decide +kernel

/-- A text that is parsed has tokens, and the tree has their lexemes in order: those of its leaves
and the marks that its other nodes leave out. -/
theorem flatten_of_parse (source : String) (n : Node) (parsed : parse source = .ok n) :
  ∃ ts, tokenize source = .ok ts ∧ n.flatten = ts.map Token.lexeme
  := by
  obtain ⟨p, finished⟩ := TokenStream.finished_of_stylesheet parsed
  obtain ⟨_, proper⟩ := (Lexer.stands_ofCursor (.ofString source)).stream finished
  refine ⟨_, ?_, TokenStream.flatten_stylesheet parsed proper⟩
  exact tokenize_eq_ok_iff.mpr ⟨Lexer.failure_of_stream finished, rfl⟩

/-- Marks of a compound name, an interpolation, a pseudo element and a call that the tree leaves
out. -/
theorem flatten_of_parse_marks :
  ∃ n, parse ".a#\x7bb\x7d::c(d)\x7b\x7d" = .ok n ∧
    ∃ ts, tokenize ".a#\x7bb\x7d::c(d)\x7b\x7d" = .ok ts ∧ n.flatten = ts.map Token.lexeme
  := by
  have parses : (parse ".a#\x7bb\x7d::c(d)\x7b\x7d").isOk = true := by decide +kernel
  cases parsed : parse ".a#\x7bb\x7d::c(d)\x7b\x7d" with
  | error => rw [parsed] at parses; cases parses
  | ok n => exact ⟨n, rfl, flatten_of_parse _ n parsed⟩

end LosslessScss
