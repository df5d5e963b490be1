import LosslessScss.Proofs.Extent
import LosslessScss.Proofs.RoundTrip

/-!
# What becomes of a statement

The extent of a statement tells what the parser makes of it and how far it reads
(`statement_classified`).  A survey has told the form by the extent; the loops over atoms that read
the statement do not know of the extent, but they keep to it, since an atom neither goes beyond the
end nor passes over the colon or the block that is waited for (`Derives.atoms_behind`).
-/

namespace LosslessScss

open Statement

/-! ### The end of a loop -/

section Loops

variable {e : Ending} {n : Nat} {scope : Scope} {first : Bool} {t : Token} {ts us : List Token}
  {ns : List Node}

/-- The end of a statement does not depend on which of its tokens is the first one. -/
theorem behind_extentFrom_first (scope : Scope) (depth : Nat) (ts : List Token) :
  (extentFrom scope depth first ts).behind = (extentFrom scope depth false ts).behind
  := by
  cases ts with
  | nil => simp
  | cons t ts =>
    rw [extentFrom, extentFrom]
    split
    · rfl
    · split <;> rfl

/-- What a loop waits for lies ahead in a statement: a selector waits for a block, and a property
for a colon. -/
def Loop.Within (scope : Scope) (x : Extent) : Loop → Prop
  | run scope' _ => scope' = scope
  | selector => OpensBlock x.behind
  | property => x.colons ≠ []

/-- A token that does not end a loop does not end the statement. -/
theorem Loop.Within.goesOn {loop : Loop}
    (within : loop.Within scope (extentFrom scope 0 first (t :: ts)))
    (goesOn : loop.stops t = false) :
  Level.endsRun scope t = false
  := by
  by_contra ends
  rw [Bool.not_eq_false] at ends
  rw [extentFrom_ends ends] at within
  cases loop with
  | run scope' =>
    cases within
    rw [Loop.stops, ends] at goesOn
    cases goesOn
  | selector => exact of_decide_eq_false goesOn within
  | property => exact within rfl

/-- Behind an atom the end of the statement is the same, and what a loop waits for still lies
ahead. -/
theorem Loop.Within.behind {loop : Loop}
    (within : loop.Within scope (extentFrom scope 0 first (t :: ts)))
    (goesOn : loop.stops t = false)
    (atom : Derives e n (.atom loop.inSelector) (t :: ts) ns us) :
  (extentFrom scope 0 first (t :: ts)).behind = (extentFrom scope 0 false us).behind ∧
    loop.Within scope (extentFrom scope 0 false us)
  := by
  obtain ⟨cs, step, noColon⟩ := GoesOn.atom atom (within.goesOn goesOn) first
  refine ⟨step.behind, ?_⟩
  cases loop with
  | run => exact within
  | selector =>
    rw [Loop.Within, step.behind] at within
    exact within
  | property =>
    have none : cs = [] := noColon rfl (of_decide_eq_false goesOn)
    rw [Loop.Within, step, none] at within
    exact within

/-- A loop stays in its statement. -/
theorem Derives.atoms_behind {loop : Loop} (derives : Derives e n (.atoms loop) ts ns us)
    (within : loop.Within scope (extentFrom scope 0 first ts)) :
  (extentFrom scope 0 first ts).behind = (extentFrom scope 0 false us).behind
  := by
  generalize phrase : Phrase.atoms loop = p at derives
  induction derives generalizing first with
  | atomsStop | atomsEnd => exact behind_extentFrom_first scope 0 _
  | atomsCons goesOn atom _ _ ih =>
    cases phrase
    obtain ⟨behind, within⟩ := within.behind goesOn atom
    rw [behind]
    exact ih within rfl
  | _ => cases phrase

/-- A run ends with its statement. -/
theorem Derives.run_behind {selector : Bool}
    (derives : Derives e n (.atoms (.run scope selector)) ts ns us) (first : Bool) :
  (extentFrom scope 0 first ts).behind = us
  := by
  rw [derives.atoms_behind rfl]
  obtain ⟨t, vs, rfl, stops⟩ | ⟨rfl, _⟩ := derives.atoms_end
  · rw [extentFrom_ends stops]
  · rw [extentFrom_nil]

/-- A selector ends with its statement, if this ends before a block. -/
theorem Derives.selector_behind (derives : Derives e n (.atoms .selector) ts ns us)
    (block : OpensBlock (extentFrom scope 0 first ts).behind) :
  (extentFrom scope 0 first ts).behind = us
  := by
  rw [derives.atoms_behind block]
  obtain ⟨t, vs, rfl, stops⟩ | ⟨_, ends⟩ := derives.atoms_end
  · have mark : t.mark? = some '\x7b' := of_decide_eq_true stops
    rw [extentFrom_ends (by rw [Level.endsRun, mark]; rfl)]
  · cases ends

/-- Behind a property and its colon the end of the statement is the same. -/
theorem Derives.property_behind {c : Token}
    (derives : Derives e n (.atoms .property) ts ns (c :: us))
    (colons : (extentFrom scope 0 first ts).colons ≠ []) :
  (extentFrom scope 0 first ts).behind = (extentFrom scope 0 false us).behind
  := by
  rw [derives.atoms_behind colons]
  exact (GoesOn.colon derives.property_end).behind

end Loops

/-! ### Classification -/

/-- The nodes `ns` of a statement at the beginning of the tokens `ts`, and the tokens `us` behind
it, are what its extent tells. -/
structure Classified (e : Ending) (scope : Scope) (ts : List Token) (ns : List Node)
    (us : List Token) : Prop where
  /-- A block at the beginning is a statement of its own. -/
  block (first : (extent scope ts).behind = ts) (opens : OpensBlock ts) :
    ∃ b, ns = [b] ∧ b.kind = .block ∧ Spells [b] ts us
  /-- With a hard colon before a block there is a declaration; the block is the last child of its
  value. -/
  declarationBlock (later : (extent scope ts).behind ≠ ts)
      (opens : OpensBlock (extent scope ts).behind) (colon : (extent scope ts).colons.any hard) :
    ∃ property c value b fs vs p q r,
      ns = [.spanning .declaration ([.spanning .property property p, .leaf c,
        .spanning .value (value ++ [b]) q] ++ fs) r] ∧
      c.mark? = some ':' ∧ b.kind = .block ∧
      Spells (property ++ .leaf c :: value) ts (extent scope ts).behind ∧
      Spells [b] (extent scope ts).behind vs ∧ Terminator e [';'] vs fs us
  /-- Without a hard colon before a block there is a rule. -/
  rule (later : (extent scope ts).behind ≠ ts) (opens : OpensBlock (extent scope ts).behind)
      (noColon : ¬(extent scope ts).colons.any hard) :
    ∃ selector b p q, ns = [.spanning .rule [.spanning .selector selector p, b] q] ∧
      b.kind = .block ∧ Spells selector ts (extent scope ts).behind ∧
      Spells [b] (extent scope ts).behind us
  /-- With a colon and no block there is a declaration up to the end of the statement. -/
  declaration (noBlock : ¬OpensBlock (extent scope ts).behind)
      (colon : (extent scope ts).colons ≠ []) :
    ∃ property c value fs p q r,
      ns = [.spanning .declaration ([.spanning .property property p, .leaf c,
        .spanning .value value q] ++ fs) r] ∧
      c.mark? = some ':' ∧ Spells (property ++ .leaf c :: value) ts (extent scope ts).behind ∧
      Terminator e scope.terminators (extent scope ts).behind fs us
  /-- With neither a colon nor a block there are loose nodes up to the end of the statement. -/
  loose (noBlock : ¬OpensBlock (extent scope ts).behind)
      (noColon : (extent scope ts).colons = []) :
    us = (extent scope ts).behind ∧ Spells ns ts us ∧
      ∀ m ∈ ns, m.kind ∉ [.rule, .declaration, .atRule]

/-- A token with which a statement starts that is surveyed: it is neither a statement of one token
nor the keyword of an at-rule, and it closes no group. -/
structure Starts (scope : Scope) (t : Token) : Prop where
  surveyed : Surveyed scope t
  goesOn : t.closes = false

/-- With a token that ends a run a statement starts only if a block opens. -/
theorem Starts.opensBlock {scope : Scope} {t : Token} (starts : Starts scope t)
    (ends : Level.endsRun scope t = true) (ts : List Token) :
  OpensBlock (t :: ts)
  := by
  obtain ⟨⟨alone, _⟩, goesOn⟩ := starts
  unfold Level.endsRun at ends
  unfold Token.closes at goesOn
  split at ends
  case h_2 mark => exact mark
  case h_1 mark | h_6 mark => simp_all [Level.standsAlone]
  case h_3 mark | h_4 mark | h_5 mark =>
    rw [mark] at goesOn
    cases goesOn
  case h_7 => cases ends

/-- What a statement of a given form consists of. -/
inductive OfForm (e : Ending) (n : Nat) (scope : Scope) (t : Token) (ts : List Token) :
    Form → List Node → List Token → Prop where
  | rule {ms us b vs} (selector : Derives e n (.atoms .selector) (t :: ts) ms us)
      (block : Derives e n (.group .block) us [b] vs) :
      OfForm e n scope t ts .rule
        [.spanning .rule [.spanning .selector ms t.start, b] t.start] vs
  | declarationBlock {ps c us ms vs b ws fs xs}
      (property : Derives e n (.atoms .property) (t :: ts) ps (c :: us))
      (value : Derives e n (.atoms (.run scope false)) us ms vs)
      (block : Derives e n (.group .block) vs [b] ws) (final : Terminator e [';'] ws fs xs) :
      OfForm e n scope t ts .declaration
        [.spanning .declaration ([.spanning .property ps t.start, .leaf c,
          .spanning .value (ms ++ [b]) c.stop] ++ fs) t.start] xs
  | declaration {ps c us ms vs fs ws}
      (property : Derives e n (.atoms .property) (t :: ts) ps (c :: us))
      (value : Derives e n (.atoms (.run scope false)) us ms vs)
      (noBlock : e.atMark '\x7b' vs = .ok false) (final : Terminator e scope.terminators vs fs ws) :
      OfForm e n scope t ts .declaration
        [.spanning .declaration ([.spanning .property ps t.start, .leaf c,
          .spanning .value ms c.stop] ++ fs) t.start] ws
  | looseBlock {m us} (first : Derives e n (.atom false) (t :: ts) [m] us)
      (block : m.kind = .block) : OfForm e n scope t ts .loose [m] us
  | loose {m us ms vs} (first : Derives e n (.atom false) (t :: ts) [m] us)
      (noBlock : m.kind ≠ .block)
      (others : Derives e n (.atoms (.run scope false)) us ms vs) :
      OfForm e n scope t ts .loose (m :: ms) vs

section Classification

variable {e : Ending} {n : Nat} {scope : Scope} {t : Token} {ts us : List Token} {m : Node}
  {ns : List Node} {form : Form}

/-! ### Blocks and atoms -/

theorem OpensBlock.openedBy? (opens : OpensBlock (t :: ts)) :
  Group.openedBy? t ts = some .block
  := Group.openedBy?_eq_block.mpr opens

theorem OpensBlock.endsRun (opens : OpensBlock (t :: ts)) (scope : Scope) :
  Level.endsRun scope t = true
  := endsRun_of_block scope opens.openedBy?

theorem Derives.opensBlock (derives : Derives e n (.group .block) ts ns us) :
  OpensBlock ts
  := by
  obtain ⟨t, us, rfl, mark⟩ := derives.block_opens
  exact mark

theorem Derives.group_of_opensBlock {g : Group} (derives : Derives e n (.group g) (t :: ts) ns us)
    (opens : OpensBlock (t :: ts)) :
  g = .block
  := by
  generalize tokens : t :: ts = vs at derives
  cases derives with
  | @group _ _ _ os rest _ _ _ opening =>
    cases tokens
    obtain ⟨g', opened, _, _, block⟩ := opening.openedBy? rest
    apply block
    have opens : OpensBlock (t :: (os ++ rest)) := opens
    rw [opens.openedBy?] at opened
    exact (Option.some.inj opened).symm

/-- An atom that starts with the opening mark of a block is a block. -/
theorem Derives.kind_of_opensBlock {selector : Bool}
    (derives : Derives e n (.atom selector) (t :: ts) [m] us) (opens : OpensBlock (t :: ts)) :
  m.kind = .block
  := by
  have curly : t.mark? = some '\x7b' := opens
  have differs {c : Char} (mark : t.mark? = some c) : c = '\x7b' :=
    Option.some.inj (mark.symm.trans curly)
  have noMark (none : t.mark? = none) : False := by
    rw [curly] at none
    cases none
  generalize tokens : t :: ts = vs at derives
  cases derives with
  | atomToken _ lone =>
    cases tokens
    rw [Ending.Lone, curly] at lone
    exact lone.elim
  | atomName name =>
    cases tokens
    exact (noMark (Token.mark?_of_identifier t name)).elim
  | atomGroup _ group =>
    subst tokens
    obtain rfl := group.group_of_opensBlock opens
    obtain ⟨_, ⟨⟩, kind⟩ := group.group_kind
    exact kind
  | atomInterpolation interpolation =>
    subst tokens
    cases interpolation.group_of_opensBlock opens
  | atomCompound which sigil =>
    cases tokens
    obtain rfl | rfl := which
    · cases differs (sigil.head rfl)
    · cases differs (sigil.head rfl)
  | atomPseudo which colons =>
    cases tokens
    obtain rfl | rfl := which
    · cases differs (colons.head rfl)
    · cases differs (colons.head rfl)

/-- An atom is no statement. -/
theorem Derives.atom_plain {selector : Bool}
    (derives : Derives e n (.atom selector) (t :: ts) [m] us) (proper : t.Proper) :
  m.kind ∉ [.rule, .declaration, .atRule]
  := by
  obtain ⟨_, ⟨⟩, rfl | block | kind⟩ := derives.atom_kind
  · have token := proper.kind
    change t.kind ∉ _
    cases is : t.kind <;> simp_all [Kind.isToken]
  · obtain ⟨_, ⟨⟩, kind⟩ := block.group_kind
    rw [kind]
    decide
  · generalize m.kind = k at kind
    revert k
    cases selector <;> decide

theorem Derives.atoms_plain {loop : Loop} (derives : Derives e n (.atoms loop) ts ns us)
    (proper : ∀ t ∈ ts, t.Proper) :
  ∀ m ∈ ns, m.kind ∉ [.rule, .declaration, .atRule]
  := by
  generalize phrase : Phrase.atoms loop = p at derives
  induction derives with
  | atomsStop | atomsEnd => exact nofun
  | atomsCons _ first _ _ ih =>
    cases phrase
    intro k mem
    obtain rfl | mem := List.mem_cons.mp mem
    · exact first.atom_plain (proper _ List.mem_cons_self)
    · exact ih (first.forall_rest proper) rfl k mem
  | _ => cases phrase

/-! ### Forms -/

/-- A statement that is neither of one token nor an at-rule has a form, which a survey has told. -/
theorem Derives.ofForm (derives : Derives e n (.statement scope) (t :: ts) ns us)
    (start : Surveyed scope t) :
  ∃ form, plainSurvey e scope (t :: ts) = .ok form ∧ OfForm e n scope t ts form ns us
  := by
  cases derives with
  | statementToken alone =>
    rw [start.1] at alone
    cases alone
  | atRuleBlock keyword | atRule keyword => exact absurd keyword start.2
  | rule _ survey selector block => exact ⟨_, survey, .rule selector block⟩
  | declarationBlock _ survey property value block final =>
    exact ⟨_, survey, .declarationBlock property value block final⟩
  | declaration _ survey property value noBlock final =>
    exact ⟨_, survey, .declaration property value noBlock final⟩
  | looseBlock _ survey first block => exact ⟨_, survey, .looseBlock first block⟩
  | loose _ survey first noBlock others => exact ⟨_, survey, .loose first noBlock others⟩

/-- A statement that starts with a block is loose. -/
theorem Derives.loose_of_opensBlock (derives : Derives e n (.statement scope) (t :: ts) ns us)
    (start : Surveyed scope t) (opens : OpensBlock (t :: ts)) :
  OfForm e n scope t ts .loose ns us
  := by
  obtain ⟨form, survey, made⟩ := derives.ofForm start
  have loose : plainSurvey e scope (t :: ts) = .ok .loose :=
    plainSurveyFrom_block opens.openedBy? scope true ⟨false, false⟩
  rw [loose] at survey
  cases survey
  exact made

/-- The form of any other statement is that of its extent. -/
theorem Derives.ofForm_extent (derives : Derives e n (.statement scope) (t :: ts) ns us)
    (start : Surveyed scope t) (noBlock : ¬OpensBlock (t :: ts)) :
  OfForm e n scope t ts ((extent scope (t :: ts)).form ⟨false, false⟩) ns us
  := by
  obtain ⟨form, survey, made⟩ := derives.ofForm start
  have extent : form = (extent scope (t :: ts)).form ⟨false, false⟩ :=
    form_of_survey survey fun _ => noBlock
  exact extent ▸ made

/-! ### What a statement of a known form consists of -/

namespace OfForm

/-- A loose statement that starts with a block is the block. -/
theorem of_opensBlock (made : OfForm e n scope t ts .loose ns us)
    (proper : ∀ u ∈ t :: ts, u.Proper) (opens : OpensBlock (t :: ts)) :
  ∃ b, ns = [b] ∧ b.kind = .block ∧ Spells [b] (t :: ts) us
  := by
  cases made with
  | looseBlock first block => exact ⟨_, rfl, block, first.flatten proper⟩
  | loose first noBlock => exact absurd (first.kind_of_opensBlock opens) noBlock

/-- A rule consists of the tokens before the block that ends its extent and of the block. -/
theorem of_rule (made : OfForm e n scope t ts .rule ns us) (proper : ∀ u ∈ t :: ts, u.Proper)
    (opens : OpensBlock (extent scope (t :: ts)).behind) :
  ∃ selector b p q, ns = [.spanning .rule [.spanning .selector selector p, b] q] ∧
    b.kind = .block ∧ Spells selector (t :: ts) (extent scope (t :: ts)).behind ∧
    Spells [b] (extent scope (t :: ts)).behind us
  := by
  cases made with
  | rule selector block =>
    have behind : (extent scope (t :: ts)).behind = _ := selector.selector_behind opens
    rw [behind]
    obtain ⟨_, ⟨⟩, kind⟩ := block.group_kind
    have block := block.flatten (selector.forall_rest proper)
    exact ⟨_, _, _, _, rfl, kind, selector.flatten proper, block⟩

/-- The parts of a declaration have the lexemes of the tokens before its end. -/
theorem declaration_spells {ps ms : List Node} {c : Token} {vs : List Token}
    (property : Derives e n (.atoms .property) ts ps (c :: us))
    (value : Derives e n (.atoms (.run scope false)) us ms vs) (proper : ∀ u ∈ ts, u.Proper) :
  Spells (ps ++ .leaf c :: ms) ts vs
  := by
  have proper' : ∀ u ∈ us, u.Proper := fun u mem =>
    property.forall_rest proper u (List.mem_cons_of_mem c mem)
  have behind : Spells (.leaf c :: ms) (c :: us) vs :=
    (Spells.leaf c us).append (value.flatten proper')
  exact Spells.append (property.flatten proper) behind

/-- A declaration whose extent ends before a block consists of the tokens before the block, of
the block and perhaps of a semicolon. -/
theorem of_declarationBlock (made : OfForm e n scope t ts .declaration ns us)
    (proper : ∀ u ∈ t :: ts, u.Proper) (colons : (extent scope (t :: ts)).colons ≠ [])
    (opens : OpensBlock (extent scope (t :: ts)).behind) :
  ∃ property c value b fs vs p q r,
    ns = [.spanning .declaration ([.spanning .property property p, .leaf c,
      .spanning .value (value ++ [b]) q] ++ fs) r] ∧
    c.mark? = some ':' ∧ b.kind = .block ∧
    Spells (property ++ .leaf c :: value) (t :: ts) (extent scope (t :: ts)).behind ∧
    Spells [b] (extent scope (t :: ts)).behind vs ∧ Terminator e [';'] vs fs us
  := by
  cases made with
  | declarationBlock property value block final =>
    have behind : (extent scope (t :: ts)).behind = _ :=
      (property.property_behind colons).trans (value.run_behind false)
    rw [behind]
    have proper' := value.forall_rest fun u mem =>
      property.forall_rest proper u (List.mem_cons_of_mem _ mem)
    obtain ⟨_, ⟨⟩, kind⟩ := block.group_kind
    exact ⟨_, _, _, _, _, _, _, _, _, rfl, property.property_end, kind,
      declaration_spells property value proper, block.flatten proper', final⟩
  | declaration property value noBlock =>
    have behind : (extent scope (t :: ts)).behind = _ :=
      (property.property_behind colons).trans (value.run_behind false)
    rw [behind] at opens
    exact absurd opens (Ending.head_of_atMark noBlock)

/-- A declaration whose extent does not end before a block consists of the tokens up to its end
and perhaps of a terminator. -/
theorem of_declaration (made : OfForm e n scope t ts .declaration ns us)
    (proper : ∀ u ∈ t :: ts, u.Proper) (colons : (extent scope (t :: ts)).colons ≠ [])
    (noBlock : ¬OpensBlock (extent scope (t :: ts)).behind) :
  ∃ property c value fs p q r,
    ns = [.spanning .declaration ([.spanning .property property p, .leaf c,
      .spanning .value value q] ++ fs) r] ∧
    c.mark? = some ':' ∧
    Spells (property ++ .leaf c :: value) (t :: ts) (extent scope (t :: ts)).behind ∧
    Terminator e scope.terminators (extent scope (t :: ts)).behind fs us
  := by
  cases made with
  | declarationBlock property value block =>
    have behind : (extent scope (t :: ts)).behind = _ :=
      (property.property_behind colons).trans (value.run_behind false)
    rw [behind] at noBlock
    exact absurd block.opensBlock noBlock
  | declaration property value _ final =>
    have behind : (extent scope (t :: ts)).behind = _ :=
      (property.property_behind colons).trans (value.run_behind false)
    rw [behind]
    exact ⟨_, _, _, _, _, _, _, rfl, property.property_end,
      declaration_spells property value proper, final⟩

/-- Any other loose statement consists of the tokens up to the end of its extent. -/
theorem of_loose (made : OfForm e n scope t ts .loose ns us) (starts : Starts scope t)
    (proper : ∀ u ∈ t :: ts, u.Proper) (noBlock : ¬OpensBlock (t :: ts)) :
  us = (extent scope (t :: ts)).behind ∧ Spells ns (t :: ts) us ∧
    ∀ m ∈ ns, m.kind ∉ [.rule, .declaration, .atRule]
  := by
  cases made with
  | looseBlock first block =>
    exact absurd (first.block_of_atom block (proper t List.mem_cons_self)).opensBlock noBlock
  | loose first _ others =>
    have goesOn : Level.endsRun scope t = false :=
      Bool.eq_false_iff.mpr fun ends => noBlock (starts.opensBlock ends ts)
    obtain ⟨cs, step, _⟩ := GoesOn.atom first goesOn true
    have proper' := first.forall_rest proper
    have one : Spells [_] (t :: ts) _ := first.flatten proper
    refine ⟨?_, one.append (others.flatten proper'), ?_⟩
    · exact (step.behind.trans (others.run_behind false)).symm
    · intro m mem
      obtain rfl | mem := List.mem_cons.mp mem
      · exact first.atom_plain (proper t List.mem_cons_self)
      · exact others.atoms_plain proper' m mem

end OfForm

/-- A statement that has been surveyed is what its extent tells. -/
theorem Derives.classified (derives : Derives e n (.statement scope) (t :: ts) ns us)
    (starts : Starts scope t) (proper : ∀ u ∈ t :: ts, u.Proper) :
  Classified e scope (t :: ts) ns us
  := by
  -- A block that opens with the first token is the end of the extent.
  have atStart (opens : OpensBlock (t :: ts)) : (extent scope (t :: ts)).behind = t :: ts := by
    rw [extent, extentFrom_ends (opens.endsRun scope)]
  have later (noBlock : ¬OpensBlock (extent scope (t :: ts)).behind) : ¬OpensBlock (t :: ts) :=
    fun opens => noBlock ((atStart opens).symm ▸ opens)
  constructor
  case block =>
    intro _ opens
    exact (derives.loose_of_opensBlock starts.surveyed opens).of_opensBlock proper opens
  case declarationBlock =>
    intro later opens colon
    have made := derives.ofForm_extent starts.surveyed fun opens => later (atStart opens)
    rw [Extent.form_none, if_pos opens, if_pos colon] at made
    apply made.of_declarationBlock proper _ opens
    rintro none
    rw [none] at colon
    cases colon
  case rule =>
    intro later opens noColon
    have made := derives.ofForm_extent starts.surveyed fun opens => later (atStart opens)
    rw [Extent.form_none, if_pos opens, if_neg noColon] at made
    exact made.of_rule proper opens
  case declaration =>
    intro noBlock colon
    have made := derives.ofForm_extent starts.surveyed (later noBlock)
    rw [Extent.form_none, if_neg noBlock, if_neg colon] at made
    exact made.of_declaration proper colon noBlock
  case loose =>
    intro noBlock noColon
    have made := derives.ofForm_extent starts.surveyed (later noBlock)
    rw [Extent.form_none, if_neg noBlock, if_pos noColon] at made
    exact made.of_loose starts proper (later noBlock)

end Classification

/-- Wherever the parser comes to a statement that has to be surveyed, and reads it, the nodes and
the tokens behind it are what the extent of the statement tells. -/
theorem statement_classified (c : Cursor) (taken : List Token) (l : Lexer)
    (handed : Lexer.Handed (.ofCursor c) taken l) (call : Survey.Call)
    (surveys : l.stream.Surveys call) (starts : ∀ t ∈ call.tokens.head?, Starts call.scope t)
    (n : Nat) (ns : List Node) (s : State)
    (read : (levels l.stream.ending Statement.survey n).statement call.scope
      ⟨call.tokens, call.index, call.memory⟩ = .ok (ns, s)) :
  Classified l.stream.ending call.scope call.tokens ns s.tokens
  := by
  obtain ⟨d, _, stands⟩ := handed.passes (Lexer.stands_ofCursor c)
  have sound := surveys.sound
  have proper : ∀ t ∈ call.tokens, t.Proper := by
    rw [sound.tokens]
    exact fun t mem => stands.proper_stream t (List.mem_of_mem_drop mem)
  obtain ⟨s', plain, behind⟩ := TokenStream.statement_plain sound read
  have derives := ((levels_sound l.stream.ending n).statement call.scope _).of_eq _ plain
  rw [levels_ending] at derives
  dsimp only at derives
  rw [behind] at derives
  cases tokens : call.tokens with
  | nil =>
    rw [tokens] at derives
    cases derives
  | cons t ts =>
    rw [tokens] at derives starts proper
    exact derives.classified (starts t rfl) proper

/-- A declaration with a group in its value, a block and a semicolon. -/
theorem statement_classified_declaration :
  ∃ l : Lexer, l = .ofString "a: b(c;d)\x7be\x7d;f" ∧
    l.stream.Surveys ⟨.statements, 0, ∅, l.stream.tokens⟩ ∧
    ∃ ns s, (levels l.stream.ending Statement.survey maxNesting).statement .statements
        ⟨l.stream.tokens, 0, ∅⟩ = .ok (ns, s) ∧
      Classified l.stream.ending .statements l.stream.tokens ns s.tokens
  := by
  let l : Lexer := .ofString "a: b(c;d)\x7be\x7d;f"
  have first : l.stream.tokens.head?.any (fun t =>
      !t.closes && !Level.standsAlone .statements t && t.kind != .atKeyword) = true := by
    decide +kernel
  have reads : ((levels l.stream.ending Statement.survey maxNesting).statement .statements
      ⟨l.stream.tokens, 0, ∅⟩).isOk = true := by
    decide +kernel
  obtain ⟨surveys, starts⟩ : l.stream.Surveys ⟨.statements, 0, ∅, l.stream.tokens⟩ ∧
      ∀ t ∈ l.stream.tokens.head?, Starts .statements t := by
    cases tokens : l.stream.tokens with
    | nil => rw [tokens] at first; cases first
    | cons t ts =>
      rw [tokens] at first
      obtain ⟨⟨goesOn, alone⟩, noKeyword⟩ := by simpa using first
      refine ⟨?_, ?_⟩
      · rw [← tokens]
        exact l.stream.surveys_first tokens goesOn alone noKeyword
      · rintro _ ⟨⟩
        exact ⟨⟨alone, noKeyword⟩, goesOn⟩
  cases read : (levels l.stream.ending Statement.survey maxNesting).statement .statements
      ⟨l.stream.tokens, 0, ∅⟩ with
  | error => rw [read] at reads; cases reads
  | ok r =>
    exact ⟨l, rfl, surveys, r.1, r.2, read,
      statement_classified _ [] l .start _ surveys starts maxNesting r.1 r.2 read⟩

end LosslessScss
