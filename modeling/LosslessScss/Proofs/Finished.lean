import LosslessScss.Proofs.Extension
import LosslessScss.Proofs.Grammar.Completeness
import Mathlib.Data.List.Basic

/-!
# Finished statements

A statement at the end of a text may go on in the text that follows.  It does not if its last node
shows that it is finished: `Node.isFinished` says so of a semicolon and of a statement that ends
with a semicolon or with a block, and `Node.endsInBlock` of a declaration that ends with a block,
behind which a semicolon would still belong to it.  Statements of which the last one is finished
are read in front of others as if they were alone (`Derives.continues`).
-/

namespace LosslessScss

/-! ### The last node of a statement -/

namespace Node

/-- Whether a node is a semicolon. -/
def isSemicolon (n : Node) : Bool := n.isLeaf .punctuation ";"

/-- Whether a node is the last one of a statement that cannot go on: a rule, a block, a semicolon,
a declaration that ends with a semicolon, or an at-rule that ends with a semicolon or a block. -/
def isFinished (n : Node) : Bool :=
  match n.kind with
  | .rule | .block => true
  | .punctuation => n.isSemicolon
  | .declaration => n.children.getLast?.any isSemicolon
  | .atRule => n.children.getLast?.any fun m => m.isSemicolon || m.kind = .block
  | _ => false

/-- Whether a node is a declaration whose value ends in a block. -/
def endsInBlock (n : Node) : Bool :=
  n.kind = .declaration &&
    n.children.any fun v => v.kind = .value && v.children.getLast?.any (·.kind = .block)

theorem mark?_of_isSemicolon {t : Token} (semicolon : (leaf t).isSemicolon = true) :
  t.mark? = some ';'
  := by
  simp only [isSemicolon, isLeaf, Bool.and_eq_true, decide_eq_true_eq] at semicolon
  have kind : t.kind = .punctuation := semicolon.1
  have text : t.text = ";" := Option.some.inj semicolon.2
  rw [Token.mark?, if_pos kind, text]
  rfl

/-- A node does not show that a statement has come to its end. -/
structure Unfinished (n : Node) : Prop where
  isFinished : n.isFinished = false
  endsInBlock : n.endsInBlock = false

namespace Unfinished

variable {n : Node}

/-- A node of a kind that neither is a statement nor can end one. -/
theorem of_kind (kind : n.kind ∉ [.rule, .block, .punctuation, .declaration, .atRule]) :
  n.Unfinished
  := by
  constructor
  · unfold Node.isFinished
    split
    case h_6 => rfl
    all_goals simp_all
  · have noDeclaration : n.kind ≠ .declaration := by
      intro is
      exact kind (by simp [is])
    simp [Node.endsInBlock, noDeclaration]

theorem not_isSemicolon (unfinished : n.Unfinished) :
  n.isSemicolon = false
  := by
  by_contra semicolon
  have kind : n.kind = .punctuation := by
    simp only [isSemicolon, isLeaf, Bool.not_eq_false, Bool.and_eq_true, decide_eq_true_eq]
      at semicolon
    exact semicolon.1
  have no := unfinished.isFinished
  rw [Node.isFinished, kind] at no
  exact semicolon no

theorem kind_ne_block (unfinished : n.Unfinished) :
  n.kind ≠ .block
  := by
  intro kind
  have no := unfinished.isFinished
  rw [Node.isFinished, kind] at no
  cases no

/-- A token other than a semicolon. -/
theorem leaf {t : Token} (proper : t.Proper) (other : t.mark? ≠ some ';') :
  (Node.leaf t).Unfinished
  := by
  have token := proper.kind
  by_cases punctuation : t.kind = .punctuation
  · have kind : (Node.leaf t).kind = .punctuation := punctuation
    constructor
    · rw [Node.isFinished, kind]
      exact Bool.eq_false_iff.mpr fun semicolon => other (mark?_of_isSemicolon semicolon)
    · rw [Node.endsInBlock, kind]
      rfl
  · apply of_kind
    change t.kind ∉ _
    cases is : t.kind <;> simp_all [Kind.isToken]

/-- The keyword of an at-rule. -/
theorem atKeyword {t : Token} (keyword : t.kind = .atKeyword) :
  (Node.leaf t).Unfinished
  := by
  apply of_kind
  rw [show (Node.leaf t).kind = _ from keyword]
  decide

/-- An at-rule is unfinished if all of its children are. -/
theorem atRule {ms : List Node} (parts : ∀ m ∈ ms, m.Unfinished) (p : Position) :
  (spanning .atRule ms p).Unfinished
  := by
  constructor
  · change ms.getLast?.any _ = false
    rw [Option.any_eq_false]
    intro m last
    have unfinished := parts m (List.mem_of_getLast? last)
    simp [unfinished.not_isSemicolon, unfinished.kind_ne_block]
  · rfl

/-- A declaration without a semicolon is unfinished if its value does not end in a block. -/
theorem declaration {ps ms : List Node} {c : Token} (colon : c.mark? = some ':')
    (value : ∀ m ∈ ms, m.Unfinished) (p q r : Position) :
  (spanning .declaration [spanning .property ps p, .leaf c, spanning .value ms q] r).Unfinished
  := by
  constructor
  · rfl
  · have kind : (Node.leaf c).kind ≠ .value := by
      intro is
      have noMark : c.mark? = none := if_neg (by rw [show c.kind = _ from is]; decide)
      rw [noMark] at colon
      cases colon
    have last : ms.getLast?.any (·.kind = .block) = false := by
      rw [Option.any_eq_false]
      intro m last
      simp [(value m (List.mem_of_getLast? last)).kind_ne_block]
    have parts : [spanning .property ps p, .leaf c, spanning .value ms q].any
        (fun v => v.kind = .value && v.children.getLast?.any (·.kind = .block)) = false := by
      simp only [List.any_cons, kind, decide_false, Bool.false_and, List.any_nil, Bool.or_false]
      exact last
    exact parts

end Unfinished

end Node

section Unfinished

variable {e : Ending} {n : Nat} {scope : Scope} {ts us : List Token} {ms : List Node}

/-- An atom is unfinished, if it is neither a semicolon nor a block. -/
theorem Derives.atom_unfinished {selector : Bool} {t : Token} {m : Node}
    (derives : Derives e n (.atom selector) (t :: ts) [m] us) (proper : t.Proper)
    (noSemicolon : t.mark? ≠ some ';') (noBlock : m.kind ≠ .block) :
  m.Unfinished
  := by
  obtain ⟨_, ⟨⟩, rfl | block | kind⟩ := derives.atom_kind
  · exact .leaf proper noSemicolon
  · obtain ⟨_, ⟨⟩, kind⟩ := block.group_kind
    exact absurd kind noBlock
  · apply Node.Unfinished.of_kind
    generalize m.kind = k at kind
    revert k
    cases selector <;> decide

/-- The atoms of a run are unfinished. -/
theorem Derives.run_unfinished {selector : Bool}
    (derives : Derives e n (.atoms (.run scope selector)) ts ms us)
    (proper : ∀ t ∈ ts, t.Proper) :
  ∀ m ∈ ms, m.Unfinished
  := by
  generalize phrase : Phrase.atoms (.run scope selector) = p at derives
  induction derives with
  | atomsStop | atomsEnd => exact nofun
  | @atomsCons n loop t ts m us ms vs goesOn first others _ ih =>
    cases phrase
    have proper' := proper t List.mem_cons_self
    have noSemicolon : t.mark? ≠ some ';' := by
      intro mark
      simp [Loop.stops, Level.endsRun, mark] at goesOn
    have noBlock : m.kind ≠ .block := by
      intro block
      have stops := (first.block_of_atom block proper').block_stops scope t rfl
      exact absurd goesOn (by simp [Loop.stops, stops])
    intro k mem
    obtain rfl | mem := List.mem_cons.mp mem
    · exact first.atom_unfinished proper' noSemicolon noBlock
    · exact ih (first.forall_rest proper) rfl k mem
  | _ => cases phrase

/-- The name and the arguments of an at-rule are unfinished. -/
theorem Derives.head_unfinished (derives : Derives e n .head ts ms us) :
  ∀ m ∈ ms, m.Unfinished
  := by
  cases derives with
  | headNone => exact nofun
  | @headCall _ blanks t ts a _ blank name arguments =>
    obtain ⟨_, ⟨⟩, kind⟩ := arguments.group_kind
    intro m mem
    simp only [List.mem_append, List.mem_map, List.mem_cons, List.not_mem_nil, or_false] at mem
    apply Node.Unfinished.of_kind
    obtain ⟨b, mem, rfl⟩ | rfl | rfl := mem
    · rw [show (Node.leaf b).kind = _ from blank b mem]
      decide
    · rw [show (Node.leaf t).kind = _ from name]
      decide
    · rw [kind]
      decide

end Unfinished

/-! ### Statements that cannot go on -/

section Last

variable {e : Ending} {n : Nat} {ts vs : List Token} {ms ns : List Node} {m : Node}

/-- A node is finished in front of `w`: by itself, or as no semicolon follows its block. -/
def Node.FinishedBefore (m : Node) (e : Ending) (w : List Token) : Prop :=
  m.isFinished = true ∨ e.atMark ';' w = .ok false

/-- A semicolon at the end of the tokens is a barrier. -/
theorem ends_of_mark {t : Token} {c : Char} (mem : c ∈ [';']) (mark : t.mark? = some c) :
  EndsWith Token.bars [t]
  := by
  obtain rfl := List.mem_singleton.mp mem
  refine ⟨[], t, rfl, ?_⟩
  rw [Token.bars_of_mark mark]
  rfl

/-- The tokens of a group end with a barrier, if those behind it do or there are none. -/
theorem Derives.group_ends {g : Group} (derives : Derives e n (.group g) ts ns vs)
    (ends : vs = [] ∨ EndsWith Token.bars vs) :
  EndsWith Token.bars ts
  := by
  cases derives with
  | @group _ _ _ _ _ _ c _ _ inside closing =>
    have ends : EndsWith Token.bars (c :: vs) := by
      obtain rfl | ends := ends
      · refine ⟨[], c, rfl, ?_⟩
        rw [Token.bars_of_mark closing, isBarrier, g.isCloser_closer, Bool.or_true]
      · exact ends.append [c]
    exact (ends.extend inside.suffix).append _

/-- A finished statement at the end of a text ends with a barrier, and is the same in front of
others. -/
theorem Derives.last_statement (derives : Derives e n (.statement .statements) ts ms [])
    (proper : ∀ t ∈ ts, t.Proper) (last : ms.getLast? = some m)
    (done : m.isFinished = true ∨ m.endsInBlock = true) :
  EndsWith Token.bars ts ∧ ∀ e' w, m.FinishedBefore e' w →
    Derives e' n (.statement .statements) (ts ++ w) ms w
  := by
  have unfinished (none : m.Unfinished) : False := by
    rw [none.isFinished, none.endsInBlock] at done
    exact done.elim nofun nofun
  have settled (w : List Token) : Settled e w (.group .block) [] := .inr ⟨rfl, _, rfl⟩
  cases derives with
  | @statementToken _ _ t _ alone =>
    cases last
    have mark : t.mark? = some ';' := by
      by_contra other
      exact unfinished (.leaf (proper t List.mem_cons_self) other)
    exact ⟨ends_of_mark List.mem_cons_self mark, fun e' w _ => .statementToken alone⟩
  | @atRuleBlock _ _ k ts hs us ps vs b _ keyword head prelude block =>
    have ends := block.group_ends (.inl rfl)
    have ends' := ends.extend prelude.suffix
    refine ⟨(ends'.extend head.suffix).append [k], fun e' w _ => ?_⟩
    have proper' := (List.forall_mem_cons.mp proper).2
    have proper'' := head.forall_rest proper'
    exact .atRuleBlock keyword (head.extend proper' nofun (.inl (.barrier ends')) e')
      (prelude.extend proper'' nofun (.inl (.barrier ends)) e')
      (block.extend (prelude.forall_rest proper'') nofun (settled w) e')
  | @atRule _ _ k ts hs us ps vs fs _ keyword head prelude noBlock final =>
    have proper' := (List.forall_mem_cons.mp proper).2
    have proper'' := head.forall_rest proper'
    cases final with
    | none =>
      cases last
      rw [List.append_nil] at unfinished
      have parts := List.forall_mem_append.mpr
        ⟨head.head_unfinished, prelude.run_unfinished proper''⟩
      exact (unfinished (.atRule (List.forall_mem_cons.mpr ⟨.atKeyword keyword, parts⟩) _)).elim
    | @mark f _ c mem mark =>
      have ends := ends_of_mark mem mark
      have ends' := ends.extend prelude.suffix
      refine ⟨(ends'.extend head.suffix).append [k], fun e' w _ => ?_⟩
      refine .atRule keyword (head.extend proper' nofun (.inl (.barrier ends')) e')
        (prelude.extend proper'' nofun (.inl (.barrier ends)) e') ?_ (.mark mem mark)
      rwa [Ending.atMark_append (.barrier ends) e' rfl]
  | @rule _ _ t ts ms us b _ start survey selector block =>
    have ends := block.group_ends (.inl rfl)
    refine ⟨ends.extend selector.suffix, fun e' w _ => ?_⟩
    have proper' := selector.forall_rest proper
    exact .rule start (survey_append_rule survey selector block (settled w) e')
      (selector.extend proper nofun (.inl (.barrier ends)) e')
      (block.extend proper' nofun (settled w) e')
  | @declarationBlock _ _ t ts ps c us ms vs b ws fs _ start survey property value block final =>
    have proper' := (List.forall_mem_cons.mp (property.forall_rest proper)).2
    have proper'' := value.forall_rest proper'
    have ends : ws = [] ∨ EndsWith Token.bars ws := by
      cases final with
      | none => exact .inl rfl
      | mark mem mark => exact .inr (ends_of_mark mem mark)
    have settled (w : List Token) : Settled e w (.group .block) ws :=
      ends.elim (fun none => .inr ⟨none, _, rfl⟩) fun ends => .inl (.barrier ends)
    have ends := block.group_ends ends
    have ends' := (ends.extend value.suffix).append [c]
    refine ⟨ends'.extend property.suffix, fun e' w before => ?_⟩
    have final' : Terminator e' [';'] (ws ++ w) fs w := by
      cases final with
      | mark mem mark => exact .mark mem mark
      | none =>
        cases last
        have absent := before.resolve_left nofun
        exact .none fun _ mem => List.mem_singleton.mp mem ▸ absent
    exact .declarationBlock start
      (survey_append_declaration survey property value (.barrier ends) e')
      (property.extend proper nofun (.inl (.barrier ends')) e')
      (value.extend proper' nofun (.inl (.barrier ends)) e')
      (block.extend proper'' nofun (settled w) e') final'
  | @declaration _ _ t ts ps c us ms vs fs _ start survey property value noBlock final =>
    have proper' := (List.forall_mem_cons.mp (property.forall_rest proper)).2
    cases final with
    | none =>
      cases last
      have parts := value.run_unfinished proper'
      exact (unfinished (.declaration property.property_end parts _ _ _)).elim
    | @mark f _ d mem mark =>
      have ends := ends_of_mark mem mark
      have ends' := (ends.extend value.suffix).append [c]
      refine ⟨ends'.extend property.suffix, fun e' w _ => ?_⟩
      refine .declaration start
        (survey_append_declaration survey property value (.barrier ends) e')
        (property.extend proper nofun (.inl (.barrier ends')) e')
        (value.extend proper' nofun (.inl (.barrier ends)) e') ?_ (.mark mem mark)
      rwa [Ending.atMark_append (.barrier ends) e' rfl]
  | @looseBlock _ _ t ts m us start survey first kind =>
    have block := first.block_of_atom kind (proper t List.mem_cons_self)
    have stops := block.block_stops .statements
    have ends := block.group_ends (.inl rfl)
    refine ⟨ends, fun e' w _ => ?_⟩
    have first' : Derives e' n (.atom false) (t :: ts ++ w) [m] w :=
      .atomGroup (.inr (.inr rfl)) (block.extend proper nofun (settled w) e')
    have survey := survey_append survey (n := 0) (w := w) .refl stops (.barrier ends) e'
    exact .looseBlock start survey first' kind
  | @loose _ _ t ts k us ks _ start survey first noBlock others =>
    refine (unfinished ?_).elim
    have proper' := first.forall_rest proper
    obtain rfl | mem := List.mem_cons.mp (List.mem_of_getLast? last)
    · have noSemicolon : t.mark? ≠ some ';' := by
        intro mark
        have alone := start.1
        simp [Level.standsAlone, mark] at alone
      exact first.atom_unfinished (proper t List.mem_cons_self) noSemicolon noBlock
    · exact others.run_unfinished proper' m mem

end Last

/-! ### Sequences that go on -/

/-- A level reads a sequence of which it takes a statement as what that one makes up, followed by
the rest. -/
theorem Level.sequence_step {L : Level} {around : Surroundings} {t : Token} {ts us : List Token}
    {ms : List Node} (goesOn : t.mark?.all (! isCloser ·) = true)
    (first : Takes (L.statement around.scope) (t :: ts) ms us) {s : State}
    (tokens : s.tokens = t :: ts) :
  ∃ s', s'.tokens = us ∧ L.sequence around s = (do
    let (ns, s'') ← L.sequence around s'
    return (ms ++ ns, s''))
  := by
  obtain ⟨⟨_, s'⟩, read, rfl, rest⟩ := first s tokens
  refine ⟨s', rest, ?_⟩
  rw [sequence_eq, Reads.sequenceStatement_goesOn goesOn tokens, found, read]
  rfl

section Continues

variable {e : Ending} {n : Nat} {ts us : List Token} {ns : List Node} {m : Node}

theorem Derives.statement_ne_nil {scope : Scope}
    (derives : Derives e n (.statement scope) ts ns us) :
  ns ≠ []
  := by
  cases derives <;> exact List.cons_ne_nil _ _

/-- A sequence makes nodes of tokens. -/
theorem Derives.sequence_ne_nil (derives : Derives e n (.sequence .top) ts ns us) (some : ts ≠ []) :
  ns ≠ []
  := by
  cases derives with
  | sequenceEnd => exact absurd rfl some
  | sequenceCloser closer => cases closer
  | sequenceCons _ first =>
    intro none
    exact first.statement_ne_nil (List.append_eq_nil_iff.mp none).1

/-- Statements of which the last one is finished end with a barrier.  In front of other tokens a
level reads them and then goes on with those. -/
theorem Derives.continues (derives : Derives e n (.sequence .top) ts ns [])
    (proper : ∀ t ∈ ts, t.Proper) (last : ns.getLast? = some m)
    (done : m.isFinished = true ∨ m.endsInBlock = true) :
  EndsWith Token.bars ts ∧ ∀ e' w, m.FinishedBefore e' w → ∀ s, s.tokens = ts ++ w →
    ∃ s', s'.tokens = w ∧ (levels e' Survey.plain n).sequence .top s = (do
      let (ns', s'') ← (levels e' Survey.plain n).sequence .top s'
      return (ns ++ ns', s''))
  := by
  generalize phrase : Phrase.sequence .top = p, none : [] = us at derives
  induction derives with
  | sequenceEnd => cases last
  | sequenceCloser => cases none
  | @sequenceCons n around t ts ms us ns vs goesOn first others _ ih =>
    cases phrase
    subst none
    by_cases more : us = []
    · subst more
      obtain rfl : ns = [] := by
        cases others
        rfl
      rw [List.append_nil] at last ⊢
      obtain ⟨ends, same⟩ := first.last_statement proper last done
      refine ⟨ends, fun e' w before s tokens => ?_⟩
      have reads : Takes _ _ _ _ := (same e' w before).reads
      exact Level.sequence_step goesOn reads tokens
    · have proper' := first.forall_rest proper
      rw [List.getLast?_append_of_ne_nil ms (others.sequence_ne_nil more)] at last
      obtain ⟨ends, same⟩ := ih proper' last rfl rfl
      refine ⟨ends.extend first.suffix, fun e' w before s tokens => ?_⟩
      have first' : Derives e' n (.statement Surroundings.top.scope) (t :: ts ++ w) ms (us ++ w) :=
        first.extend proper nofun (.inl (.barrier ends)) e'
      have reads : Takes _ _ _ _ := first'.reads
      obtain ⟨s', rest, read⟩ := Level.sequence_step goesOn reads tokens
      obtain ⟨s'', rest', read'⟩ := same e' w before s' rest
      refine ⟨s'', rest', ?_⟩
      rw [read, read']
      cases (levels e' Survey.plain n).sequence .top s'' with
      | error => rfl
      | ok r =>
        have assoc := List.append_assoc ms ns r.1
        exact congrArg (fun ns => Except.ok (ns, r.2)) assoc.symm
  | _ => cases phrase

end Continues

end LosslessScss
