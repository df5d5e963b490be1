import LosslessScss.Proofs.Origin
import LosslessScss.Proofs.Classification
import LosslessScss.Proofs.Tree.Occurrence

/-!
# The trees of stylesheets

What the parser makes of a text is a tree as the grammar has it (`Derives.grammatical`).  A selector
and a property are read up to a certain mark, whatever stands before it; that no other mark stands
there which ends a statement is known from the survey of the statement (`Derives.atoms_inside`).
-/

namespace LosslessScss

open Statement

/-! ### Tokens as nodes -/

namespace Token.Plain

variable {t : Token}

theorem of_noMark (proper : t.Proper) (noMark : t.mark? = none) :
  t.Plain
  := by
  refine ⟨proper.kind, ?_⟩
  rw [noMark]
  exact nofun

theorem of_mark {c : Char} (proper : t.Proper) (mark : t.mark? = some c)
    (noBracket : c ∉ ['(', ')', '[', ']', '\x7b', '\x7d']) :
  t.Plain
  := by
  refine ⟨proper.kind, ?_⟩
  rw [mark]
  rintro _ ⟨⟩
  exact noBracket

/-- A token that is an atom by itself is no bracket. -/
theorem of_lone {e : Ending} {selector : Bool} {ts : List Token} (proper : t.Proper)
    (lone : e.Lone selector t ts) :
  t.Plain
  := by
  unfold Ending.Lone at lone
  split at lone
  case h_1 mark | h_2 mark | h_6 mark => exact of_mark proper mark (by decide)
  case h_3 | h_4 | h_5 => exact lone.elim
  case h_7 mark =>
    apply of_mark proper mark
    simp_all [isCloser]
  case h_8 noMark => exact of_noMark proper noMark

/-- A token that is a statement by itself is no bracket. -/
theorem of_standsAlone {scope : Scope} (proper : t.Proper)
    (alone : Level.standsAlone scope t = true) :
  t.Plain
  := by
  simp only [Level.standsAlone, Bool.or_eq_true, decide_eq_true_eq, Bool.and_eq_true] at alone
  obtain (trivia | semicolon) | ⟨_, comma⟩ := alone
  · apply of_noMark proper (Token.mark?_of_kind _)
    intro kind
    rw [kind] at trivia
    cases trivia
  · exact of_mark proper semicolon (by decide)
  · exact of_mark proper comma (by decide)

end Token.Plain

/-! ### Atoms -/

section Atoms

variable {e : Ending} {n : Nat} {scope : Scope} {first selector : Bool} {t : Token}
  {ts us : List Token} {m : Node} {ns : List Node}

/-- The nodes of a loop stay in the statement: none of them ends it. -/
theorem Derives.atoms_inside {loop : Loop} (derives : Derives e n (.atoms loop) ts ns us)
    (within : loop.Within scope (extentFrom scope 0 first ts)) :
  ∀ m ∈ ns, (∃ t ∈ ts, m = .leaf t ∧ loop.stops t = false ∧ Level.endsRun scope t = false) ∨
    m.kind ∈ Kind.atoms loop.inSelector
  := by
  generalize phrase : Phrase.atoms loop = p at derives
  induction derives generalizing first with
  | atomsStop | atomsEnd => exact nofun
  | @atomsCons _ _ t ts m us ms vs goesOn atom _ _ ih =>
    cases phrase
    have outside := within.goesOn goesOn
    intro k mem
    obtain rfl | mem := List.mem_cons.mp mem
    · obtain ⟨_, ⟨⟩, rfl | block | kind⟩ := atom.atom_kind
      · exact .inl ⟨t, List.mem_cons_self, rfl, goesOn, outside⟩
      · rw [block.block_stops scope t rfl] at outside
        cases outside
      · exact .inr kind
    · apply (ih (within.behind goesOn atom).2 rfl k mem).imp_left
      rintro ⟨u, mem, others⟩
      exact ⟨u, atom.suffix.subset mem, others⟩
  | _ => cases phrase

/-- A token that does not end a run ends no statement. -/
theorem not_terminator_of_endsRun (goesOn : Level.endsRun scope t = false) :
  ∀ c ∈ t.mark?, c ∉ scope.terminators
  := by
  rintro c mark mem
  have ends : Level.endsRun scope t = true := by
    have mark : t.mark? = some c := mark
    cases scope with
    | statements =>
      obtain rfl := List.mem_singleton.mp mem
      simp [Level.endsRun, mark]
    | entries =>
      simp only [Scope.terminators, List.mem_cons, List.not_mem_nil, or_false] at mem
      obtain rfl | rfl := mem <;> simp [Level.endsRun, mark]
  rw [goesOn] at ends
  cases ends

theorem Derives.atoms_isAtom {loop : Loop} (derives : Derives e n (.atoms loop) ts ns us)
    (within : loop.Within scope (extentFrom scope 0 first ts)) :
  ∀ m ∈ ns, m.IsAtom scope loop.inSelector
  := by
  intro m mem
  obtain ⟨t, _, leaf, _, goesOn⟩ | kind := derives.atoms_inside within m mem
  · exact .inl ⟨t, leaf, not_terminator_of_endsRun goesOn⟩
  · exact .inr kind

theorem Derives.run_isAtom (derives : Derives e n (.atoms (.run scope selector)) ts ns us) :
  ∀ m ∈ ns, m.IsAtom scope selector
  := by
  have within : Loop.Within scope (extentFrom scope 0 false ts) (.run scope selector) := rfl
  exact derives.atoms_isAtom within

/-- No token of a property is a colon. -/
theorem Derives.property_noColon (derives : Derives e n (.atoms .property) ts ns us)
    (within : Loop.Within scope (extentFrom scope 0 first ts) .property) :
  ∀ t, .leaf t ∈ ns → t.mark? ≠ some ':'
  := by
  intro t mem colon
  obtain ⟨_, _, ⟨⟩, goesOn, _⟩ | kind := derives.atoms_inside within _ mem
  · exact of_decide_eq_false goesOn colon
  · have punctuation : (Node.leaf t).kind = .punctuation := Token.kind_of_mark? colon
    rw [punctuation] at kind
    exact absurd kind (by decide)

end Atoms

/-! ### What a survey has told -/

section Surveys

variable {e : Ending} {n : Nat} {scope : Scope} {t : Token} {ts us : List Token} {ns : List Node}
  {form : Form}

/-- The form of a statement that is not loose is that of its extent, and no block opens at its
beginning. -/
theorem form_of_plainSurvey (survey : plainSurvey e scope (t :: ts) = .ok form)
    (other : form ≠ .loose) :
  ¬OpensBlock (t :: ts) ∧ form = (extent scope (t :: ts)).form ⟨false, false⟩
  := by
  have noBlock : ¬OpensBlock (t :: ts) := by
    intro opens
    have loose : plainSurvey e scope (t :: ts) = .ok .loose :=
      plainSurveyFrom_block opens.openedBy? scope true ⟨false, false⟩
    rw [loose] at survey
    exact other (Except.ok.inj survey).symm
  exact ⟨noBlock, form_of_survey survey fun _ => noBlock⟩

/-- The survey of a rule has seen a block. -/
theorem within_of_rule (survey : plainSurvey e scope (t :: ts) = .ok .rule) :
  Loop.Within scope (extent scope (t :: ts)) .selector
  := by
  obtain ⟨_, form⟩ := form_of_plainSurvey survey nofun
  rw [Extent.form_none] at form
  by_contra noBlock
  have noBlock : ¬OpensBlock (extent scope (t :: ts)).behind := noBlock
  rw [if_neg noBlock] at form
  split at form <;> cases form

/-- The survey of a declaration has seen a colon. -/
theorem within_of_declaration (survey : plainSurvey e scope (t :: ts) = .ok .declaration) :
  Loop.Within scope (extent scope (t :: ts)) .property
  := by
  obtain ⟨_, form⟩ := form_of_plainSurvey survey nofun
  rw [Extent.form_none] at form
  intro none
  rw [none] at form
  split at form <;> cases form

/-- A rule has at least one atom before its block. -/
theorem Derives.selector_ne_nil (derives : Derives e n (.atoms .selector) (t :: ts) ns us)
    (survey : plainSurvey e scope (t :: ts) = .ok .rule) :
  ns ≠ []
  := by
  obtain ⟨noBlock, _⟩ := form_of_plainSurvey survey nofun
  cases derives with
  | atomsStop stops => exact absurd (of_decide_eq_true stops) noBlock
  | atomsCons => exact List.cons_ne_nil _ _

end Surveys

/-! ### Names -/

section Names

variable {e : Ending} {n : Nat} {first : Bool} {ts us : List Token} {m : Node} {ns : List Node}

theorem isName_of_interpolation (derives : Derives e n (.group .interpolation) ts [m] us) :
  m.IsName
  := by
  obtain ⟨_, ⟨⟩, kind⟩ := derives.group_kind
  exact .inr kind

theorem Derives.target_isName (derives : Derives e n .target ts [m] us) :
  m.IsName
  := by
  cases derives with
  | targetName name => exact .inl name
  | targetInterpolation interpolation => exact isName_of_interpolation interpolation

/-- A token that continues the name of a class or an id is an identifier, if the name starts with
it. -/
theorem names_of_continuesName {t : Token} (continues : Level.continuesName first t = true) :
  (Node.leaf t).ContinuesName ∧ (first = true → (Node.leaf t).IsName)
  := by
  unfold Level.continuesName at continues
  split at continues
  case isTrue name => exact ⟨.inl (.inl name), fun _ => .inl name⟩
  case isFalse =>
    split at continues
    case isTrue number =>
      rw [Bool.and_eq_true, bne_iff_ne] at continues
      obtain ⟨later, noPoint⟩ := continues
      refine ⟨.inr (.inl ⟨number, ?_⟩), ?_⟩
      · rintro _ ⟨⟩
        exact noPoint
      · rintro rfl
        cases later
    case isFalse =>
      simp only [Bool.and_eq_true, decide_eq_true_eq] at continues
      obtain ⟨⟨later, operator⟩, minus⟩ := continues
      refine ⟨.inr (.inr ?_), ?_⟩
      · simp [Node.isLeaf, Node.kind, Node.text?, operator, minus]
      · rintro rfl
        cases later

theorem Derives.segment_continuesName (derives : Derives e n (.segment first) ts [m] us) :
  m.ContinuesName
  := by
  cases derives with
  | segmentToken continues => exact (names_of_continuesName continues).1
  | segmentInterpolation interpolation => exact .inl (isName_of_interpolation interpolation)

theorem Derives.segment_isName (derives : Derives e n (.segment true) ts [m] us) :
  m.IsName
  := by
  cases derives with
  | segmentToken continues => exact (names_of_continuesName continues).2 rfl
  | segmentInterpolation interpolation => exact isName_of_interpolation interpolation

theorem Derives.segments_continueName (derives : Derives e n (.segments first) ts ns us) :
  ∀ m ∈ ns, m.ContinuesName
  := by
  generalize phrase : Phrase.segments first = p at derives
  induction derives generalizing first with
  | segmentsEnd => exact nofun
  | segmentsCons one others _ ih =>
    cases phrase
    exact List.forall_mem_cons.mpr ⟨one.segment_continuesName, ih rfl⟩
  | _ => cases phrase

/-- No name begins behind the name of a class or an id. -/
theorem Ending.NameEnds.atName {e : Ending} {first : Bool} {ts : List Token}
    (ends : e.NameEnds first ts) :
  e.atName ts ≠ .ok true
  := by
  intro named
  obtain ⟨t, _, rfl, name⟩ | interpolation := Ending.exists_of_atName named
  · have continues : Level.continuesName first t = true := if_pos name
    rw [ends.2 t rfl] at continues
    cases continues
  · rw [ends.1] at interpolation
    cases interpolation

/-- The name of a class or an id consists of a name and what continues it. -/
theorem Derives.compound_names (derives : Derives e n (.segments true) ts ns us)
    (named : e.atName ts = .ok true) :
  ∃ m ms, ns = m :: ms ∧ m.IsName ∧ ∀ m ∈ ms, m.ContinuesName
  := by
  cases derives with
  | segmentsEnd ends => exact absurd named ends.atName
  | segmentsCons one others =>
    exact ⟨_, _, rfl, one.segment_isName, others.segments_continueName⟩

end Names

/-! ### Statements -/

section Statements

variable {e : Ending} {n : Nat} {scope : Scope} {around : Surroundings} {ts us : List Token}
  {ns : List Node}

theorem Terminator.optionalMark {marks marks' : List Char}
    (terminator : Terminator e marks ts ns us) (part : marks ⊆ marks') :
  Node.OptionalMark marks' ns
  := by
  cases terminator with
  | mark mem mark => exact .leaf (part mem) mark
  | none => exact .absent

theorem Scope.semicolon_subset (scope : Scope) :
  [';'] ⊆ scope.terminators
  := by
  cases scope <;> simp [terminators]

theorem Terminator.plain {marks : List Char} (terminator : Terminator e marks ts ns us)
    (part : marks ⊆ [';', ',']) (proper : ∀ t ∈ ts, t.Proper) :
  ∀ m ∈ ns, m.Grammatical scope
  := by
  cases terminator with
  | none => exact nofun
  | mark mem mark =>
    have mem := part mem
    rintro _ (_ | ⟨_, ⟨⟩⟩)
    apply Node.Grammatical.leaf
    apply Token.Plain.of_mark (proper _ List.mem_cons_self) mark
    simp only [List.mem_cons, List.not_mem_nil, or_false] at mem
    obtain rfl | rfl := mem <;> decide

theorem Derives.head_callHead (derives : Derives e n .head ts ns us) :
  Node.CallHead ns
  := by
  cases derives with
  | headNone => exact .none
  | headCall blank name arguments =>
    obtain ⟨_, ⟨⟩, kind⟩ := arguments.group_kind
    exact .call blank name kind

/-- The nodes of a statement are tokens or of the kinds of statements. -/
theorem Derives.statement_kinds (derives : Derives e n (.statement scope) ts ns us)
    (proper : ∀ t ∈ ts, t.Proper) :
  ∀ m ∈ ns, m.kind.isToken = true ∨ m.kind ∈ Kind.statements
  := by
  have token {t : Token} (mem : t ∈ ts) : (Node.leaf t).kind.isToken = true := (proper t mem).kind
  cases derives with
  | statementToken =>
    rintro _ (_ | ⟨_, ⟨⟩⟩)
    exact .inl (token List.mem_cons_self)
  | atRuleBlock | atRule | rule | declarationBlock | declaration =>
    rintro _ (_ | ⟨_, ⟨⟩⟩)
    exact .inr (by simp [Node.kind, Node.spanning, Kind.statements])
  | looseBlock _ _ _ block =>
    rintro _ (_ | ⟨_, ⟨⟩⟩)
    exact .inr (by simp [block, Kind.statements])
  | @loose _ _ t ts m us ms _ _ _ first noBlock others =>
    have within : Loop.Within scope (extentFrom scope 0 false us) (.run scope false) := rfl
    intro k mem
    obtain rfl | mem := List.mem_cons.mp mem
    · obtain ⟨_, ⟨⟩, rfl | block | kind⟩ := first.atom_kind
      · exact .inl (token List.mem_cons_self)
      · obtain ⟨_, ⟨⟩, kind⟩ := block.group_kind
        exact absurd kind noBlock
      · exact .inr (List.mem_append_right _ kind)
    · obtain ⟨u, part, rfl, _⟩ | kind := others.atoms_inside within k mem
      · exact .inl (token (first.suffix.subset part))
      · exact .inr (List.mem_append_right _ kind)

theorem Derives.sequence_kinds (derives : Derives e n (.sequence around) ts ns us)
    (proper : ∀ t ∈ ts, t.Proper) :
  ∀ m ∈ ns, m.kind.isToken = true ∨ m.kind ∈ Kind.statements
  := by
  generalize phrase : Phrase.sequence around = p at derives
  induction derives with
  | sequenceEnd | sequenceCloser => exact nofun
  | sequenceCons _ first _ _ ih =>
    cases phrase
    intro m mem
    obtain mem | mem := List.mem_append.mp mem
    · exact first.statement_kinds proper m mem
    · exact ih (first.forall_rest proper) rfl m mem
  | _ => cases phrase

end Statements

/-! ### Trees -/

/-- A statement or a sequence stands in a scope of its own; all other phrases may stand in any. -/
def Phrase.InScope (scope : Scope) : Phrase → Prop
  | statement scope' => scope' = scope
  | sequence around => around.scope = scope
  | _ => True

namespace Node

variable {scope : Scope} {k : Kind} {ns : List Node}

/-- A node of a kind that opens no scope of its own. -/
theorem Grammatical.spanning (produces : Produces scope k ns)
    (children : ∀ n ∈ ns, n.Grammatical scope) (inherits : k.scope scope = scope) (p : Position) :
  (Node.spanning k ns p).Grammatical scope
  := by
  apply Grammatical.branch
  · rwa [inherits]
  · rwa [inherits]

end Node

/-- A declaration is as the grammar has it, if the nodes of its parts are.  Its property is read up
to the first colon. -/
theorem Derives.declaration_grammatical {e : Ending} {n : Nat} {scope : Scope} {t c : Token}
    {ts us : List Token} {ps vs fs : List Node} {p q : Position}
    (property : Derives e n (.atoms .property) (t :: ts) ps (c :: us))
    (survey : plainSurvey e scope (t :: ts) = .ok .declaration)
    (proper : ∀ u ∈ t :: ts, u.Proper) (properties : ∀ m ∈ ps, m.Grammatical scope)
    (value : Produces scope .value vs) (values : ∀ m ∈ vs, m.Grammatical scope)
    (final : Node.OptionalMark scope.terminators fs) (marks : ∀ m ∈ fs, m.Grammatical scope) :
  (Node.spanning .declaration
    ([.spanning .property ps p, .leaf c, .spanning .value vs q] ++ fs) p).Grammatical scope
  := by
  have within := within_of_declaration survey
  have colon := property.property_end
  have proper' : c.Proper := property.forall_rest proper c List.mem_cons_self
  have own := Produces.property (property.atoms_isAtom within) (property.property_noColon within)
  apply Node.Grammatical.spanning (.declaration rfl colon rfl final) _ rfl
  simp only [List.forall_mem_cons]
  exact ⟨.spanning own properties rfl p, .leaf (.of_mark proper' colon (by decide)),
    .spanning value values rfl q, marks⟩

/-- What a phrase makes up is as the grammar has it, if what the phrase is given is so. -/
theorem Derives.grammatical {e : Ending} {n : Nat} {scope : Scope} {phrase : Phrase}
    {ts us : List Token} {ns : List Node} (derives : Derives e n phrase ts ns us)
    (proper : ∀ t ∈ ts, t.Proper) (stands : phrase.InScope scope)
    (given : ∀ m ∈ phrase.given, m.IsName ∧ m.Grammatical scope) :
  ∀ m ∈ ns, m.Grammatical scope
  := by
  have none {scope : Scope} : ∀ m ∈ ([] : List Node), m.IsName ∧ m.Grammatical scope := nofun
  have single {m : Node} {scope : Scope} (grammatical : m.Grammatical scope) :
      ∀ n ∈ [m], n.Grammatical scope := List.forall_mem_singleton.mpr grammatical
  have noMark {t : Token} (proper : t.Proper) (noMark : t.mark? = .none) {scope : Scope} :
      (Node.leaf t).Grammatical scope := .leaf (.of_noMark proper noMark)
  have keyword' {t : Token} (proper : t.Proper) (keyword : t.kind = .atKeyword) {scope : Scope} :
      (Node.leaf t).Grammatical scope := noMark proper (Token.mark?_of_kind (by simp [keyword]))
  induction derives generalizing scope with
  | @group n g o os ts ns c us opening inside closing ih =>
    have proper := fun t mem => proper t (List.mem_append_right _ mem)
    apply single
    apply Node.Grammatical.branch
    · exact .sequence (Kind.holdsStatements_group g) (inside.sequence_kinds proper)
    · exact ih proper (Kind.scope_group scope g).symm none
  | callNone => exact fun m mem => (given m mem).2
  | callArguments arguments ih =>
    obtain ⟨_, ⟨⟩, kind⟩ := arguments.group_kind
    obtain ⟨name, caller⟩ := given _ List.mem_cons_self
    have children := List.forall_mem_cons.mpr ⟨caller, ih proper trivial none⟩
    exact single (.spanning (.functionCall name kind) children rfl _)
  | segmentToken continues =>
    exact single (noMark (proper _ List.mem_cons_self) (Level.mark?_of_continuesName continues))
  | segmentInterpolation _ ih | targetInterpolation _ ih | atomGroup _ _ ih
  | looseBlock _ _ _ _ ih =>
    exact ih proper trivial none
  | segmentsEnd | atomsStop | atomsEnd | headNone | sequenceEnd | sequenceCloser => exact nofun
  | segmentsCons one _ ih ih' | atomsCons _ one _ ih ih' =>
    exact List.forall_mem_cons.mpr ⟨ih proper trivial none _ List.mem_cons_self,
      ih' (one.forall_rest proper) trivial none⟩
  | targetName name =>
    exact single (noMark (proper _ List.mem_cons_self) (Token.mark?_of_identifier _ name))
  | atomToken _ lone => exact single (.leaf (.of_lone (proper _ List.mem_cons_self) lone))
  | @atomName _ _ t _ _ _ name _ ih =>
    obtain ⟨first, proper⟩ := List.forall_mem_cons.mp proper
    apply ih proper trivial
    rintro _ (_ | ⟨_, ⟨⟩⟩)
    exact ⟨.inl name, noMark first (Token.mark?_of_identifier t name)⟩
  | atomInterpolation interpolation _ ih ih' =>
    apply ih' (interpolation.forall_rest proper) trivial
    rintro _ (_ | ⟨_, ⟨⟩⟩)
    exact ⟨isName_of_interpolation interpolation, ih proper trivial none _ List.mem_cons_self⟩
  | atomCompound which _ _ named segments ih =>
    obtain ⟨_, proper⟩ := List.forall_mem_cons.mp proper
    obtain ⟨m, ms, rfl, first, others⟩ := segments.compound_names named
    apply single
    apply Node.Grammatical.branch (.compound which first others)
    exact ih proper trivial none
  | atomPseudo which _ _ target call ih ih' =>
    have proper := fun t mem => proper t (List.mem_append_right _ mem)
    have name := target.target_isName
    apply single
    apply Node.Grammatical.branch
    · apply Produces.pseudo which
      obtain ⟨_, ⟨⟩, rfl | kind⟩ := call.call_kind
      · exact .inl name
      · exact .inr kind
    · apply ih' (target.forall_rest proper) trivial
      rintro _ (_ | ⟨_, ⟨⟩⟩)
      exact ⟨name, ih proper trivial none _ List.mem_cons_self⟩
  | @headCall _ blanks t _ _ _ blank name _ ih =>
    have parts := List.forall_mem_append.mp proper
    obtain ⟨identifier, behind⟩ := List.forall_mem_cons.mp parts.2
    rw [List.forall_mem_append, List.forall_mem_cons]
    refine ⟨?_, noMark identifier (Token.mark?_of_identifier t name), ih behind trivial none⟩
    simp only [List.mem_map, forall_exists_index, and_imp, forall_apply_eq_imp_iff₂]
    intro b mem
    exact noMark (parts.1 b mem) (Token.mark?_of_kind (by simp [blank b mem]))
  | statementToken alone =>
    exact single (.leaf (.of_standsAlone (proper _ List.mem_cons_self) alone))
  | @atRuleBlock _ _ k _ hs us ps vs b _ keyword head prelude block ih ih' ih'' =>
    obtain rfl : _ = scope := stands
    obtain ⟨first, proper⟩ := List.forall_mem_cons.mp proper
    have behind := head.forall_rest proper
    obtain ⟨_, ⟨⟩, kind⟩ := block.group_kind
    have produces := Produces.atRuleBlock keyword head.head_callHead (prelude.run_isAtom) kind
    apply single
    apply Node.Grammatical.spanning produces _ rfl
    rw [List.forall_mem_cons, List.forall_mem_append, List.forall_mem_append]
    exact ⟨keyword' first keyword, ⟨ih proper trivial none, ih' behind trivial none⟩,
      ih'' (prelude.forall_rest behind) trivial none⟩
  | @atRule _ _ _ _ _ _ _ _ _ _ keyword head prelude _ final ih ih' =>
    obtain rfl : _ = scope := stands
    obtain ⟨first, proper⟩ := List.forall_mem_cons.mp proper
    have behind := head.forall_rest proper
    have produces := Produces.atRule keyword head.head_callHead (prelude.run_isAtom)
      (final.optionalMark (List.Subset.refl _))
    apply single
    apply Node.Grammatical.spanning produces _ rfl
    rw [List.forall_mem_cons, List.forall_mem_append, List.forall_mem_append]
    exact ⟨keyword' first keyword, ⟨ih proper trivial none, ih' behind trivial none⟩,
      final.plain (by simp) (prelude.forall_rest behind)⟩
  | rule _ survey selector block ih ih' =>
    obtain rfl : _ = scope := stands
    obtain ⟨_, ⟨⟩, kind⟩ := block.group_kind
    have atoms := selector.atoms_isAtom (within_of_rule survey)
    apply single
    apply Node.Grammatical.spanning _ _ rfl
    · exact .rule rfl (by exact selector.selector_ne_nil survey) kind
    · rw [List.forall_mem_cons]
      exact ⟨.spanning (.selector atoms) (ih proper trivial none) rfl _,
        ih' (selector.forall_rest proper) trivial none⟩
  | declarationBlock _ survey property value block final ih ih' ih'' =>
    obtain rfl : _ = scope := stands
    obtain ⟨_, ⟨⟩, kind⟩ := block.group_kind
    obtain ⟨_, behind⟩ := List.forall_mem_cons.mp (property.forall_rest proper)
    have behind' := value.forall_rest behind
    apply single
    apply property.declaration_grammatical survey proper (ih proper trivial none)
    · exact .valueBlock value.run_isAtom kind
    · rw [List.forall_mem_append]
      exact ⟨ih' behind trivial none, ih'' behind' trivial none⟩
    · exact final.optionalMark (Scope.semicolon_subset _)
    · exact final.plain (by simp) (block.forall_rest behind')
  | declaration _ survey property value _ final ih ih' =>
    obtain rfl : _ = scope := stands
    obtain ⟨_, behind⟩ := List.forall_mem_cons.mp (property.forall_rest proper)
    apply single
    apply property.declaration_grammatical survey proper (ih proper trivial none)
    · exact .value value.run_isAtom
    · exact ih' behind trivial none
    · exact final.optionalMark (List.Subset.refl _)
    · exact final.plain (Scope.terminators_subset _) (value.forall_rest behind)
  | loose start survey first noBlock others ih ih' =>
    exact List.forall_mem_cons.mpr ⟨ih proper trivial none _ List.mem_cons_self,
      ih' (first.forall_rest proper) trivial none⟩
  | sequenceCons _ first _ ih ih' =>
    intro m mem
    obtain mem | mem := List.mem_append.mp mem
    · exact ih proper stands none m mem
    · exact ih' (first.forall_rest proper) stands none m mem

/-- The statements of a stylesheet make up a tree as the grammar has it. -/
theorem Derives.stylesheet_grammatical {e : Ending} {n : Nat} {ts us : List Token} {ns : List Node}
    (derives : Derives e n (.sequence .top) ts ns us) (proper : ∀ t ∈ ts, t.Proper) :
  (Node.spanning .stylesheet ns .origin).Grammatical .statements
  := by
  apply Node.Grammatical.spanning _ (derives.grammatical proper rfl nofun) rfl
  exact .sequence rfl (derives.sequence_kinds proper)

/-- Every text that is parsed makes up a tree as the grammar has it, with a stylesheet at its root:
each of its nodes stands where it may and has the children that it should have. -/
theorem tree_of_parse (source : String) (n : Node) (parsed : parse source = .ok n) :
  n.kind = .stylesheet ∧ n.Grammatical .statements ∧ ∀ r ∈ n.inScopes .statements, r.2.Worded r.1
  := by
  have proper := (Lexer.stands_ofCursor (.ofString source)).proper_stream
  obtain ⟨ns, rfl, derives⟩ := TokenStream.derives_of_stylesheet parsed
  have grammatical := derives.stylesheet_grammatical proper
  exact ⟨rfl, grammatical, grammatical.worded⟩

/-- An at-rule with arguments and a rule in its block, with a declaration in the arguments and one
with a block in its value. -/
theorem tree_of_parse_nested :
  ∃ n, parse "@m f($a:1,b)\x7b.c:n(x)\x7bd: e\x7b\x7d;@g;\x7d\x7d" = .ok n ∧
    (n.preorder.map Node.kind).filter (! ·.isToken) =
      [.stylesheet, .atRule, .arguments, .declaration, .property, .value, .block, .rule, .selector,
        .className, .pseudoClass, .functionCall, .arguments, .block, .declaration, .property,
        .value, .block, .atRule] ∧
    n.Grammatical .statements ∧ ∀ r ∈ n.inScopes .statements, r.2.Worded r.1
  := by
  have kinds : (parse "@m f($a:1,b)\x7b.c:n(x)\x7bd: e\x7b\x7d;@g;\x7d\x7d").toOption.map
      (fun n => (n.preorder.map Node.kind).filter (! ·.isToken)) =
        some [.stylesheet, .atRule, .arguments, .declaration, .property, .value, .block, .rule,
          .selector, .className, .pseudoClass, .functionCall, .arguments, .block, .declaration,
          .property, .value, .block, .atRule] := by
    decide +kernel
  cases parsed : parse "@m f($a:1,b)\x7b.c:n(x)\x7bd: e\x7b\x7d;@g;\x7d\x7d" with
  | error => rw [parsed] at kinds; cases kinds
  | ok n =>
    rw [parsed] at kinds
    exact ⟨n, rfl, Option.some.inj kinds, (tree_of_parse _ n parsed).2⟩

end LosslessScss
