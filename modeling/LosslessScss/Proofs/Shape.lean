import LosslessScss.Json.Tree
import LosslessScss.Proofs.Balance
import LosslessScss.Proofs.Grammar.Stylesheet
import LosslessScss.Proofs.Likeness.Survey

/-!
# Stylesheets with the same lexemes

The parser looks at the kinds and at the texts of tokens, and passes their places on.  So the shape
of a stylesheet depends on the lexemes of its tokens only (`TokenStream.shapes_stylesheet`).
-/

namespace LosslessScss

namespace Token

variable {t u : Token}

theorem kind_and_text_of_lexeme (same : t.lexeme = u.lexeme) :
  t.kind = u.kind ∧ t.text = u.text
  := ⟨congrArg Lexeme.kind same, String.toList_injective (congrArg Lexeme.text same)⟩

/-- The mark of a token is told by its lexeme. -/
theorem mark?_eq_of_lexeme (same : t.lexeme = u.lexeme) :
  t.mark? = u.mark?
  := by
  obtain ⟨kind, text⟩ := kind_and_text_of_lexeme same
  rw [mark?, mark?, kind, text]

theorem mark?_of_lexeme {c : Char} (lexeme : t.lexeme = ⟨.punctuation, [c]⟩) :
  t.mark? = some c
  := by
  have kind : t.kind = .punctuation := congrArg Lexeme.kind lexeme
  have text : t.text.toList = [c] := congrArg Lexeme.text lexeme
  rw [mark?, if_pos kind, text]
  rfl

/-- The shape of a token is told by its lexeme. -/
theorem shape_eq_of_lexeme (same : t.lexeme = u.lexeme) :
  t.shape = u.shape
  := by
  obtain ⟨kind, text⟩ := kind_and_text_of_lexeme same
  rw [shape, shape, kind, text]

theorem continuesName_eq_of_lexeme (same : t.lexeme = u.lexeme) (first : Bool) :
  Level.continuesName first t = Level.continuesName first u
  := by
  obtain ⟨kind, text⟩ := kind_and_text_of_lexeme same
  rw [Level.continuesName, Level.continuesName, kind, text]

end Token

namespace Node

/-- Nodes of the same shapes, one by one. -/
theorem shapes_eq_of_forall₂ {R : Node → Node → Prop} {ms ns : List Node}
    (shape : ∀ m n, R m n → m.shape = n.shape) (alike : List.Forall₂ R ms ns) :
  shapes ms = shapes ns
  := by
  induction alike with
  | nil => rfl
  | cons first _ ih => rw [shapes, shapes, shape _ _ first, ih]

end Node

/-- Stylesheets of tokens that are alike consist of nodes that are alike. -/
theorem Likeness.stylesheet {R : Likeness} {s u : TokenStream}
    (endings : R.Endings s.ending u.ending) (alike : R.state s.initial u.initial) :
  R.Agree
    (fun m n => ∃ ms ns, m = .spanning .stylesheet ms .origin ∧
      n = .spanning .stylesheet ns .origin ∧ List.Forall₂ R.node ms ns)
    s.stylesheet u.stylesheet
  := by
  rw [s.stylesheet_eq_plainStylesheet, u.stylesheet_eq_plainStylesheet]
  apply ((Likeness.plainLevels endings maxNesting).sequence .top _ _ alike).bind
  rintro ⟨ms, _⟩ ⟨ns, _⟩ ⟨nodes, _⟩
  exact .ok ⟨ms, ns, rfl, rfl, nodes⟩

/-- Two runs whose tokens have the same lexemes, wherever they stand. -/
def Likeness.shape : Likeness where
  token t u := t.lexeme = u.lexeme
  place _ _ := True
  node m n := m.shape = n.shape ∧ m.kind = n.kind
  failure f g := f.cause = g.cause
  state s s' := List.Forall₂ (fun t u => t.lexeme = u.lexeme) s.tokens s'.tokens
  escapes _ := False
  kind_eq same := congrArg Lexeme.kind same
  mark_eq := Token.mark?_eq_of_lexeme
  continues_eq := Token.continuesName_eq_of_lexeme
  start _ := trivial
  stop _ := trivial
  failureAt _ _ := rfl
  leaf same := ⟨Token.shape_eq_of_lexeme same, congrArg Lexeme.kind same⟩
  branch := by
    intro ms ns p q r s children _ _ kind
    refine ⟨?_, rfl⟩
    rw [Node.shape, Node.shape, Node.shapes_eq_of_forall₂ (fun _ _ => And.left) children]
  nodeKind_eq := And.right
  nodeStart _ := trivial
  nodeStop _ := trivial
  tokens := id
  advance := by
    intro s s' t u ts us like some some'
    rw [some, some'] at like
    exact (List.forall₂_cons.mp like).2

/-- Stylesheets whose tokens have the same lexemes have the same shape. -/
theorem TokenStream.shapes_stylesheet {s u : TokenStream} {n : Node}
    (lexemes : u.tokens.map Token.lexeme = s.tokens.map Token.lexeme)
    (reached : u.ending.reach = .ok ()) (parsed : s.stylesheet = .ok n) :
  ∃ n', u.stylesheet = .ok n' ∧ Node.shapes n'.children = Node.shapes n.children
  := by
  obtain ⟨p, ending⟩ := finished_of_stylesheet parsed
  obtain ⟨q, ending'⟩ := Ending.eq_finished_of_reach reached
  have endings : Likeness.shape.Endings s.ending u.ending := by
    rw [ending, ending']
    exact .finished trivial
  have alike : Likeness.shape.state s.initial u.initial := by
    have tokens := lexemes.symm
    rwa [← List.forall₂_eq_eq_eq, List.forall₂_map_left_iff, List.forall₂_map_right_iff] at tokens
  have agree := Likeness.stylesheet endings alike
  rw [parsed] at agree
  cases parsed' : u.stylesheet with
  | error => rw [parsed'] at agree; cases agree
  | ok n' =>
    rw [parsed'] at agree
    cases agree with
    | ok nodes =>
      obtain ⟨ms, ns, rfl, rfl, nodes⟩ := nodes
      exact ⟨_, rfl, (Node.shapes_eq_of_forall₂ (fun _ _ => And.left) nodes).symm⟩

/-! ### Balance -/

theorem Group.openedBy?_eq_of_lexeme {t t' : Token} {ts ts' : List Token}
    (first : t'.lexeme = t.lexeme) (others : ts'.map Token.lexeme = ts.map Token.lexeme) :
  Group.openedBy? t' ts' = Group.openedBy? t ts
  := by
  have next : ts'.head?.bind Token.mark? = ts.head?.bind Token.mark? := by
    cases ts' <;> cases ts
    case nil.nil => rfl
    case cons.cons => exact Token.mark?_eq_of_lexeme (List.cons.inj others).1
    all_goals cases others
  rw [openedBy?, openedBy?, Token.mark?_eq_of_lexeme first, next]

/-- Whether tokens are balanced is told by their lexemes. -/
theorem Balanced.of_lexemes {n : Nat} {ts us : List Token} (balanced : Balanced n ts us)
    {ts' : List Token} (lexemes : ts'.map Token.lexeme = ts.map Token.lexeme) :
  ∃ us', us'.map Token.lexeme = us.map Token.lexeme ∧ Balanced n ts' us'
  := by
  induction balanced generalizing ts' with
  | refl => exact ⟨ts', lexemes, .refl⟩
  | @token n t ts us passes _ ih =>
    obtain ⟨t', ts', rfl, first, others⟩ := List.map_eq_cons_iff.mp lexemes
    obtain ⟨us', left, balanced⟩ := ih others
    have passes' : t'.Passes ts' := by
      refine ⟨(Group.openedBy?_eq_of_lexeme first others).trans passes.opens, ?_⟩
      rw [Token.closes, Token.mark?_eq_of_lexeme first]
      exact passes.closes
    exact ⟨us', left, .token passes' balanced⟩
  | @group n t ts g c us vs opened _ closing _ ih ih' =>
    obtain ⟨t', ts', rfl, first, others⟩ := List.map_eq_cons_iff.mp lexemes
    have inside : (ts'.drop (g.openerLength - 1)).map Token.lexeme
        = (ts.drop (g.openerLength - 1)).map Token.lexeme := by
      rw [List.map_drop, List.map_drop, others]
    obtain ⟨cs', left, balanced⟩ := ih inside
    obtain ⟨c', us', rfl, last, rest⟩ := List.map_eq_cons_iff.mp left
    obtain ⟨vs', left', balanced'⟩ := ih' rest
    have opened' := (Group.openedBy?_eq_of_lexeme first others).trans opened
    have closing' := (Token.mark?_eq_of_lexeme last).trans closing
    exact ⟨vs', left', .group opened' balanced closing' balanced'⟩

end LosslessScss
