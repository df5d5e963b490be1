import LosslessScss.Proofs.Acceptance
import LosslessScss.Proofs.Shape

/-!
# Skeletons

The skeleton of a token is what the parser looks at.  Two texts whose tokens have the same skeletons
have the same structure: both make up trees, with the same kinds of nodes and the tokens at the same
places of them, or neither does, and both fail for the same cause at the same token
(`parse_of_skeletons`).  So nothing that is written inside of a comment, a string, a name or white
space has an influence on the structure.
-/

namespace LosslessScss

/-! ### Skeletons of tokens -/

/-- What the parser looks at of a token: its kind, the text of punctuation, whether an operator is a
minus, and whether a number starts with a point. -/
structure Skeleton where
  kind : Kind
  mark? : Option String
  minus : Bool
  pointed : Bool
  deriving DecidableEq, Repr

namespace Token

/-- The skeleton of a token. -/
def skeleton (t : Token) : Skeleton where
  kind := t.kind
  mark? := if t.kind = .punctuation then some t.text else none
  minus := t.kind = .operator && t.text = "-"
  pointed := t.kind = .number && t.text.toList.head? = some '.'

variable {t u : Token}

theorem kind_eq_of_skeleton (same : t.skeleton = u.skeleton) :
  t.kind = u.kind
  := congrArg Skeleton.kind same

theorem mark?_eq_of_skeleton (same : t.skeleton = u.skeleton) :
  t.mark? = u.mark?
  := by
  have kind := kind_eq_of_skeleton same
  have mark : t.skeleton.mark? = u.skeleton.mark? := congrArg Skeleton.mark? same
  rw [Token.mark?, Token.mark?, ← kind]
  split
  case isTrue punctuation =>
    have punctuation' : u.kind = .punctuation := kind.symm.trans punctuation
    simp only [skeleton, punctuation, punctuation', if_true, Option.some.injEq] at mark
    rw [mark]
  case isFalse => rfl

theorem continuesName_eq_of_skeleton (same : t.skeleton = u.skeleton) (first : Bool) :
  Level.continuesName first t = Level.continuesName first u
  := by
  have kind := kind_eq_of_skeleton same
  have minus : t.skeleton.minus = u.skeleton.minus := congrArg Skeleton.minus same
  have pointed : t.skeleton.pointed = u.skeleton.pointed := congrArg Skeleton.pointed same
  rw [Level.continuesName, Level.continuesName, ← kind]
  split
  case isTrue => rfl
  case isFalse =>
    split
    case isTrue number =>
      have number' : u.kind = .number := kind.symm.trans number
      have point : (t.text.toList.head? == some '.') = (u.text.toList.head? == some '.') := by
        rw [Bool.eq_iff_iff]
        simpa [skeleton, number, number'] using pointed
      rw [bne, bne, point]
    case isFalse =>
      by_cases operator : t.kind = .operator
      · have operator' : u.kind = .operator := kind.symm.trans operator
        have same : t.text = "-" ↔ u.text = "-" := by
          simpa [skeleton, operator, operator'] using minus
        simp only [operator, same]
      · simp only [operator, decide_false, Bool.and_false, Bool.false_and]

end Token

/-- Two tokens have the same index in two lists. -/
def SameIndex (ts us : List Token) (t u : Token) : Prop :=
  ∃ i : Nat, ts[i]? = some t ∧ us[i]? = some u

namespace SameIndex

variable {ts us : List Token}

theorem skeleton_eq {t u : Token} (skeletons : ts.map Token.skeleton = us.map Token.skeleton)
    (same : SameIndex ts us t u) :
  t.skeleton = u.skeleton
  := by
  obtain ⟨i, first, second⟩ := same
  have at_index := congrArg (·[i]?) skeletons
  simpa [first, second] using at_index

theorem forall₂ (skeletons : ts.map Token.skeleton = us.map Token.skeleton) :
  List.Forall₂ (SameIndex ts us) ts us
  := by
  have length : ts.length = us.length := by simpa using congrArg List.length skeletons
  rw [List.forall₂_iff_get]
  refine ⟨length, ?_⟩
  intro i lt lt'
  exact ⟨i, by simp, by simp⟩

end SameIndex

/-! ### Trees -/

namespace Node

variable {R : Token → Token → Prop} {m n : Node} {ms ns : List Node}

/-- Two trees of the same structure: they have the same kinds of nodes, as many children at each
of them, and leaves that are related. -/
inductive Corresponds (R : Token → Token → Prop) : Node → Node → Prop where
  | leaf {t u} (token : R t u) : Corresponds R (.leaf t) (.leaf u)
  | branch {k ms ns p q r s} (children : List.Forall₂ (Corresponds R) ms ns) :
      Corresponds R (.branch k ms p q) (.branch k ns r s)

/-- Two nodes of the same kind, with as many children, or both leaves that are related. -/
structure Matches (R : Token → Token → Prop) (m n : Node) : Prop where
  kind : m.kind = n.kind
  count : m.children.length = n.children.length
  leaf : ∀ t, m = .leaf t → ∃ u, n = .leaf u ∧ R t u
  leaf' : ∀ u, n = .leaf u → ∃ t, m = .leaf t ∧ R t u

theorem Corresponds.kind_eq (kinds : ∀ {t u}, R t u → t.kind = u.kind)
    (same : m.Corresponds R n) :
  m.kind = n.kind
  := by
  cases same with
  | leaf token => exact kinds token
  | branch => rfl

theorem Corresponds.matches (kinds : ∀ {t u}, R t u → t.kind = u.kind)
    (same : m.Corresponds R n) :
  m.Matches R n
  := by
  cases same with
  | leaf token =>
    refine ⟨kinds token, rfl, ?_, ?_⟩
    · rintro _ ⟨⟩
      exact ⟨_, rfl, token⟩
    · rintro _ ⟨⟩
      exact ⟨_, rfl, token⟩
  | branch children => exact ⟨rfl, children.length_eq, nofun, nofun⟩

mutual

/-- The nodes of trees of the same structure match in pre-order. -/
theorem Corresponds.preorder {R : Token → Token → Prop} (kinds : ∀ {t u}, R t u → t.kind = u.kind)
    (m n : Node) (same : m.Corresponds R n) :
  List.Forall₂ (Matches R) m.preorder n.preorder
  := by
  cases same with
  | leaf token =>
    exact .cons (Corresponds.leaf token |>.matches kinds) .nil
  | @branch _ ms ns _ _ _ _ children =>
    exact .cons ((Corresponds.branch children).matches kinds) (preorder_list kinds ms ns children)

theorem Corresponds.preorder_list {R : Token → Token → Prop}
    (kinds : ∀ {t u}, R t u → t.kind = u.kind) (ms ns : List Node)
    (same : List.Forall₂ (Corresponds R) ms ns) :
  List.Forall₂ (Matches R) (preorderList ms) (preorderList ns)
  := by
  cases same with
  | nil => exact .nil
  | @cons m n ms ns first others =>
    exact List.rel_append (preorder kinds m n first) (preorder_list kinds ms ns others)

end

end Node

/-- The place of a failure does not bear on its cause. -/
theorem Failure.cause_at (cause : Cause) (p q : Position) :
  (Failure.mk cause p).cause = (Failure.mk cause q).cause
  := rfl

/-- Two runs whose tokens are related, and have the same skeletons where they are. -/
def Likeness.skeleton (R : Token → Token → Prop)
    (skeletons : ∀ {t u}, R t u → t.skeleton = u.skeleton) : Likeness where
  token := R
  place _ _ := True
  node := Node.Corresponds R
  failure f g := f.cause = g.cause
  state s s' := List.Forall₂ R s.tokens s'.tokens
  escapes _ := False
  kind_eq same := Token.kind_eq_of_skeleton (skeletons same)
  mark_eq same := Token.mark?_eq_of_skeleton (skeletons same)
  continues_eq same := Token.continuesName_eq_of_skeleton (skeletons same)
  start _ := trivial
  stop _ := trivial
  failureAt _ cause := Failure.cause_at cause _ _
  leaf := .leaf
  branch children _ _ _ := .branch children
  nodeKind_eq := Node.Corresponds.kind_eq fun same => Token.kind_eq_of_skeleton (skeletons same)
  nodeStart _ := trivial
  nodeStop _ := trivial
  tokens := id
  advance := by
    intro s s' t u ts us like some some'
    rw [some, some'] at like
    exact (List.forall₂_cons.mp like).2

/-! ### Walks -/

section Walks

variable {R : Token → Token → Prop}

/-- Two groups of one kind that have been opened by related tokens. -/
inductive Opener.Corresponds (R : Token → Token → Prop) : Opener → Opener → Prop where
  | opened {closer t u} (token : R t u) : Corresponds R ⟨closer, t.start⟩ ⟨closer, u.start⟩

/-- Two walks both come to the end, or both fail for the same cause at related tokens. -/
inductive SameEnd (R : Token → Token → Prop) :
    Except Failure Unit → Except Failure Unit → Prop where
  | ok : SameEnd R (.ok ()) (.ok ())
  | error {cause t u} (token : R t u) :
      SameEnd R (.error ⟨cause, t.start⟩) (.error ⟨cause, u.start⟩)

/-- Of related tokens the first ones are related and open the same group, if any. -/
theorem corresponding_tokens (marks : ∀ {t u}, R t u → t.mark? = u.mark?) {t : Token}
    {ts vs : List Token} (tokens : List.Forall₂ R (t :: ts) vs) :
  ∃ u us, vs = u :: us ∧ R t u ∧ List.Forall₂ R ts us ∧
    Group.openedBy? t ts = Group.openedBy? u us ∧ t.mark? = u.mark?
  := by
  obtain ⟨u, us, first, others, rfl⟩ := List.forall₂_cons_left_iff.mp tokens
  have next : ts.head?.bind Token.mark? = us.head?.bind Token.mark? := by
    cases others with
    | nil => rfl
    | cons second => exact marks second
  refine ⟨u, us, rfl, first, others, ?_, marks first⟩
  rw [Group.openedBy?, Group.openedBy?, marks first, next]

theorem corresponding_openers {opened opened' : List Opener}
    (openers : List.Forall₂ (Opener.Corresponds R) opened opened') :
  opened.length = opened'.length ∧
    opened.head?.map Opener.closer = opened'.head?.map Opener.closer ∧
    List.Forall₂ (Opener.Corresponds R) opened.tail opened'.tail
  := by
  cases openers with
  | nil => exact ⟨rfl, rfl, .nil⟩
  | cons first others =>
    refine ⟨(List.Forall₂.cons first others).length_eq, ?_, others⟩
    cases first
    rfl

/-- Walks through tokens with the same marks come to the same end. -/
theorem sameEnd_walk (marks : ∀ {t u}, R t u → t.mark? = u.mark?) {opened opened' : List Opener}
    {ts us : List Token} (openers : List.Forall₂ (Opener.Corresponds R) opened opened')
    (tokens : List.Forall₂ R ts us) :
  SameEnd R (walk (.ok ()) opened ts) (walk (.ok ()) opened' us)
  := by
  -- Along the walk the groups that are still open correspond.
  fun_induction walk (.ok ()) opened ts generalizing opened' us with
  | case1 opened =>
    cases tokens
    cases openers with
    | nil =>
      rw [walk]
      exact .ok
    | cons first =>
      obtain ⟨token⟩ := first
      rw [walk]
      exact .error token
  | case2 opened t ts g opens shallow ih =>
    obtain ⟨u, us, rfl, first, others, opener, _⟩ := corresponding_tokens marks tokens
    obtain ⟨length, _, _⟩ := corresponding_openers openers
    rw [opener] at opens
    rw [walk_opened opens (length ▸ shallow)]
    exact ih (.cons (.opened first) openers) (List.forall₂_drop _ others)
  | case3 opened t ts g opens deep =>
    obtain ⟨u, us, rfl, first, others, opener, _⟩ := corresponding_tokens marks tokens
    obtain ⟨length, _, _⟩ := corresponding_openers openers
    rw [opener] at opens
    rw [walk, opens]
    simp only [length ▸ deep, if_false]
    exact .error first
  | case4 opened t ts opens other ih =>
    obtain ⟨u, us, rfl, first, others, opener, mark⟩ := corresponding_tokens marks tokens
    rw [opener] at opens
    rw [mark] at other
    rw [walk, opens]
    simp only [other]
    exact ih openers others
  | case5 opened t ts opens c closer same ih =>
    obtain ⟨u, us, rfl, first, others, opener, mark⟩ := corresponding_tokens marks tokens
    obtain ⟨_, innermost, outer⟩ := corresponding_openers openers
    rw [opener] at opens
    rw [mark] at closer
    rw [innermost] at same
    rw [walk, opens]
    simp only [closer, same, if_true]
    exact ih outer others
  | case6 opened t ts opens c closer differs =>
    obtain ⟨u, us, rfl, first, others, opener, mark⟩ := corresponding_tokens marks tokens
    obtain ⟨_, innermost, outer⟩ := corresponding_openers openers
    rw [opener] at opens
    rw [mark] at closer
    rw [innermost] at differs
    rw [walk, opens]
    simp only [closer, differs, if_false]
    exact .error first

end Walks

/-! ### Texts with the same skeletons -/

section Texts

variable {a b : String} {ts us : List Token}

/-- Texts whose tokens have the same skeletons make up trees of the same structure. -/
theorem corresponds_of_skeletons (tokens : tokenize a = .ok ts) (tokens' : tokenize b = .ok us)
    (skeletons : ts.map Token.skeleton = us.map Token.skeleton) {m n : Node}
    (parsed : parse a = .ok m) (parsed' : parse b = .ok n) :
  m.Corresponds (SameIndex ts us) n
  := by
  obtain ⟨rfl, p, finished⟩ := Lexer.stream_of_all tokens
  obtain ⟨rfl, q, finished'⟩ := Lexer.stream_of_all tokens'
  let R := Likeness.skeleton _ (SameIndex.skeleton_eq skeletons)
  have endings : R.Endings (Lexer.ofString a).stream.ending (Lexer.ofString b).stream.ending := by
    rw [finished, finished']
    exact .finished trivial
  have alike : R.state (Lexer.ofString a).stream.initial (Lexer.ofString b).stream.initial :=
    SameIndex.forall₂ skeletons
  have agree : R.Agree _ (parse a) (parse b) := Likeness.stylesheet endings alike
  rw [parsed, parsed'] at agree
  cases agree with
  | ok nodes =>
    obtain ⟨ms, ns, rfl, rfl, nodes⟩ := nodes
    exact R.spanning nodes trivial .stylesheet

/-- Texts whose tokens have the same skeletons fail for the same cause at the same token, or not at
all. -/
theorem sameEnd_of_skeletons (tokens : tokenize a = .ok ts) (tokens' : tokenize b = .ok us)
    (skeletons : ts.map Token.skeleton = us.map Token.skeleton) :
  SameEnd (SameIndex ts us) ((parse a).map fun _ => ()) ((parse b).map fun _ => ())
  := by
  obtain ⟨rfl, p, finished⟩ := Lexer.stream_of_all tokens
  obtain ⟨rfl, q, finished'⟩ := Lexer.stream_of_all tokens'
  have walks := TokenStream.stylesheet_walk finished
  have walks' := TokenStream.stylesheet_walk finished'
  change (parse a).map (fun _ => ()) = _ at walks
  change (parse b).map (fun _ => ()) = _ at walks'
  rw [walks, walks']
  apply sameEnd_walk _ .nil (SameIndex.forall₂ skeletons)
  exact fun same => Token.mark?_eq_of_skeleton (SameIndex.skeleton_eq skeletons same)

end Texts

/-- The structure of a text depends on the skeletons of its tokens only: texts with the same ones
both make up trees, or neither does; the nodes of the trees match in pre-order, and their leaves are
the tokens of the same indices; and they fail for the same cause at the start of the tokens of one
index. -/
theorem parse_of_skeletons (a b : String) (ts us : List Token) (tokens : tokenize a = .ok ts)
    (tokens' : tokenize b = .ok us) (skeletons : ts.map Token.skeleton = us.map Token.skeleton) :
  ((∃ m, parse a = .ok m) ↔ ∃ n, parse b = .ok n) ∧
    (∀ m n, parse a = .ok m → parse b = .ok n →
      List.Forall₂ (Node.Matches (SameIndex ts us)) m.preorder n.preorder) ∧
    ∀ f g, parse a = .error f → parse b = .error g →
      f.cause = g.cause ∧
        ∃ t u, SameIndex ts us t u ∧ f.position = t.start ∧ g.position = u.start
  := by
  have ends := sameEnd_of_skeletons tokens tokens' skeletons
  refine ⟨?_, ?_, ?_⟩
  · cases parsed : parse a <;> cases parsed' : parse b <;> rw [parsed, parsed'] at ends
    · exact ⟨nofun, nofun⟩
    · cases ends
    · cases ends
    · exact ⟨fun _ => ⟨_, rfl⟩, fun _ => ⟨_, rfl⟩⟩
  · intro m n parsed parsed'
    have same := corresponds_of_skeletons tokens tokens' skeletons parsed parsed'
    exact Node.Corresponds.preorder
      (fun same => Token.kind_eq_of_skeleton (SameIndex.skeleton_eq skeletons same)) m n same
  · intro f g parsed parsed'
    rw [parsed, parsed'] at ends
    change SameEnd _ (.error f) (.error g) at ends
    cases ends with
    | error token => exact ⟨rfl, _, _, token, rfl, rfl⟩

/-- Two texts that differ inside of a comment, a string, names and white space only, there in
brackets and line feeds as well. -/
theorem parse_of_skeletons_brackets :
  ∃ ts us m n, tokenize "a \x7b/*\x7d*/b:'\x7b'\x7d" = .ok ts ∧
    tokenize "cd\n\n\x7b/*;\n*/e-f:')'\x7d" = .ok us ∧ parse "a \x7b/*\x7d*/b:'\x7b'\x7d" = .ok m ∧
    parse "cd\n\n\x7b/*;\n*/e-f:')'\x7d" = .ok n ∧ m.preorder.length = 13 ∧
    List.Forall₂ (Node.Matches (SameIndex ts us)) m.preorder n.preorder
  := by
  have skeletons : (tokenize "a \x7b/*\x7d*/b:'\x7b'\x7d").map (·.map Token.skeleton) =
      (tokenize "cd\n\n\x7b/*;\n*/e-f:')'\x7d").map (·.map Token.skeleton) := by
    decide +kernel
  have reads : (tokenize "a \x7b/*\x7d*/b:'\x7b'\x7d").isOk = true := by decide +kernel
  have length : (parse "a \x7b/*\x7d*/b:'\x7b'\x7d").map (·.preorder.length) = .ok 13 := by
    decide +kernel
  cases tokens : tokenize "a \x7b/*\x7d*/b:'\x7b'\x7d" with
  | error => rw [tokens] at reads; cases reads
  | ok ts =>
    cases tokens' : tokenize "cd\n\n\x7b/*;\n*/e-f:')'\x7d" with
    | error => rw [tokens, tokens'] at skeletons; cases skeletons
    | ok us =>
      rw [tokens, tokens'] at skeletons
      obtain ⟨iff, trees, _⟩ :=
        parse_of_skeletons _ _ ts us tokens tokens' (Except.ok.inj skeletons)
      cases parsed : parse "a \x7b/*\x7d*/b:'\x7b'\x7d" with
      | error => rw [parsed] at length; cases length
      | ok m =>
        obtain ⟨n, parsed'⟩ := iff.mp ⟨m, parsed⟩
        rw [parsed] at length
        exact ⟨ts, us, m, n, rfl, rfl, rfl, parsed', Except.ok.inj length, trees m n parsed parsed'⟩

end LosslessScss
