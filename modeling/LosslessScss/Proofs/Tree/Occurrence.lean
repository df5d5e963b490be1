import LosslessScss.Proofs.Tree
import Mathlib.Data.List.Basic

/-!
# Where nodes occur in syntax trees

In a tree as the grammar has it every node stands where it may (`Node.Grammatical.worded`).  The
kinds of the children of a node are told by its production (`Produces.child`).  A block or a
semicolon among them is the last one, since no other ends a statement (`Produces.inner`).
-/

namespace LosslessScss

/-! ### Kinds of children -/

/-- The kinds of the children of a node, those of tokens apart. -/
def Kind.children : Kind → List Kind
  | stylesheet | block | arguments | parentheses | brackets | interpolation => statements
  | rule => [selector, block]
  | selector => atoms true
  | declaration => [property, value]
  | property => atoms false
  | value => block :: atoms false
  | atRule => arguments :: block :: atoms true
  | functionCall => [interpolation, arguments]
  | className | idName => [interpolation]
  | pseudoClass | pseudoElement => [interpolation, functionCall]
  | _ => []

namespace Kind

theorem selector_mem_children {k : Kind} :
  .selector ∈ k.children → k = .rule
  := by
  cases k <;> decide

theorem declaration_of_part {k part : Kind} (which : part = .property ∨ part = .value) :
  part ∈ k.children → k = .declaration
  := by
  obtain rfl | rfl := which <;> cases k <;> decide

theorem block_mem_children {k : Kind} :
  .block ∈ k.children → k = .rule ∨ k ∈ [.value, .atRule] ∨ k.holdsStatements = true
  := by
  cases k <;> decide

end Kind

theorem Token.mark?_of_kind {t : Token} (kind : t.kind ≠ .punctuation) :
  t.mark? = none
  := if_neg kind

theorem Token.kind_of_mark? {t : Token} {c : Char} (mark : t.mark? = some c) :
  t.kind = .punctuation
  := by
  by_contra other
  rw [Token.mark?_of_kind other] at mark
  cases mark

/-- One of several nodes is the last one or stands before it. -/
theorem mem_or_eq_last {α : Type} {front before after : List α} {l c : α}
    (parts : front ++ [l] = before ++ c :: after) :
  c ∈ front ∨ c = l ∧ after = []
  := by
  obtain rfl | ⟨ys, y, rfl⟩ := List.eq_nil_or_concat' after
  · right
    obtain ⟨_, same⟩ := List.append_inj' parts rfl
    exact ⟨(List.cons.inj same).1.symm, rfl⟩
  · left
    rw [← List.cons_append, ← List.append_assoc] at parts
    rw [(List.append_inj' parts rfl).1]
    simp

namespace Node

variable {scope : Scope} {selector : Bool} {n : Node} {ns hs : List Node} {t : Token}

/-- A node of a selector, a property, a value or an at-rule that is not the last one there: it is no
block, and no mark that ends a statement. -/
structure Inner (scope : Scope) (n : Node) : Prop where
  noBlock : n.kind ≠ .block
  goesOn : ∀ t, n = .leaf t → ∀ c ∈ t.mark?, c ∉ scope.terminators

theorem Inner.of_kind (noBlock : n.kind ≠ .block) (noMark : n.kind ≠ .punctuation) :
  n.Inner scope
  := by
  refine ⟨noBlock, ?_⟩
  rintro t rfl c mem
  rw [Token.mark?_of_kind noMark] at mem
  cases mem

theorem IsAtom.kind (atom : n.IsAtom scope selector) (plain : ∀ t, n = .leaf t → t.Plain) :
  n.kind.isToken = true ∨ n.kind ∈ Kind.atoms selector
  := by
  obtain ⟨t, rfl, _⟩ | kind := atom
  · exact .inl (plain t rfl).kind
  · exact .inr kind

theorem IsAtom.inner (atom : n.IsAtom scope selector) (plain : ∀ t, n = .leaf t → t.Plain) :
  n.Inner scope
  := by
  obtain ⟨t, rfl, goesOn⟩ | kind := atom
  · refine ⟨?_, ?_⟩
    · intro block
      have token := (plain t rfl).kind
      rw [show t.kind = .block from block] at token
      cases token
    · rintro _ ⟨⟩
      exact goesOn
  · apply Inner.of_kind
    all_goals
      intro other
      rw [other] at kind
      cases selector <;> exact absurd kind (by decide)

theorem IsName.kind (name : n.IsName) :
  n.kind.isToken = true ∨ n.kind = .interpolation
  := name.imp_left fun kind => by rw [kind]; rfl

theorem ContinuesName.kind (continues : n.ContinuesName) :
  n.kind.isToken = true ∨ n.kind = .interpolation
  := by
  obtain name | ⟨number, _⟩ | minus := continues
  · exact name.kind
  · simp [number, Kind.isToken]
  · have kind : n.kind = .operator := by simp_all [isLeaf]
    simp [kind, Kind.isToken]

theorem CallHead.kind (head : CallHead hs) (mem : n ∈ hs) :
  n.kind.isToken = true ∨ n.kind = .arguments
  := by
  cases head with
  | none => cases mem
  | @call blanks name a blank identifier arguments =>
    simp only [List.mem_append, List.mem_map, List.mem_cons, List.not_mem_nil, or_false] at mem
    obtain ⟨b, mem, rfl⟩ | rfl | rfl := mem
    · have space : (leaf b).kind = .space := blank b mem
      simp [space, Kind.isToken]
    · have kind : (leaf name).kind = .identifier := identifier
      simp [kind, Kind.isToken]
    · exact .inr arguments

theorem CallHead.inner (head : CallHead hs) :
  ∀ m ∈ hs, m.Inner scope
  := by
  cases head with
  | none => exact nofun
  | call blank identifier arguments =>
    intro m mem
    simp only [List.mem_append, List.mem_map, List.mem_cons, List.not_mem_nil, or_false] at mem
    obtain ⟨b, mem, rfl⟩ | rfl | rfl := mem
    · have kind : (leaf b).kind = .space := blank b mem
      exact .of_kind (by simp [kind]) (by simp [kind])
    · have kind : (leaf _).kind = .identifier := identifier
      exact .of_kind (by simp [kind]) (by simp [kind])
    · exact .of_kind (by simp [arguments]) (by simp [arguments])

end Node

namespace Produces

variable {scope : Scope} {k : Kind} {ns : List Node} {c : Node} {p q : Position}

/-- No kind of tokens has a production. -/
theorem isToken (produces : Produces scope k ns) :
  k.isToken = false
  := by
  cases produces with
  | sequence holds => cases k <;> first | rfl | cases holds
  | compound which | pseudo which => obtain rfl | rfl := which <;> rfl
  | _ => rfl

/-- A child of a node is a token or of a kind that the node has as its children. -/
theorem child (produces : Produces scope k ns) (plain : ∀ t, .leaf t ∈ ns → t.Plain)
    (mem : c ∈ ns) :
  c.kind.isToken = true ∨ c.kind ∈ k.children
  := by
  have token {t : Token} (mem : .leaf t ∈ ns) : (Node.leaf t).kind.isToken = true :=
    (plain t mem).kind
  have atom {selector : Bool} (atom : c.IsAtom scope selector) :=
    atom.kind fun t leaf => plain t (leaf ▸ mem)
  have final {marks : List Char} {fs : List Node} (final : Node.OptionalMark marks fs)
      (part : fs ⊆ ns) (mem : c ∈ fs) : c.kind.isToken = true := by
    cases final with
    | absent => cases mem
    | leaf =>
      obtain rfl := List.mem_singleton.mp mem
      exact token (part mem)
  cases produces with
  | sequence holds statements =>
    apply (statements c mem).imp_right
    cases k <;> first | exact id | cases holds
  | rule selector _ block =>
    simp only [List.mem_cons, List.not_mem_nil, or_false] at mem
    obtain rfl | rfl := mem <;> simp [*, Kind.children]
  | selector atoms | property atoms => exact atom (atoms c mem)
  | value atoms => exact (atom (atoms c mem)).imp_right (List.mem_cons_of_mem _)
  | valueBlock atoms block =>
    obtain mem | mem := List.mem_append.mp mem
    · exact (atom (atoms c mem)).imp_right (List.mem_cons_of_mem _)
    · obtain rfl := List.mem_singleton.mp mem
      simp [block, Kind.children]
  | declaration property colon value mark =>
    simp only [List.mem_cons] at mem
    obtain rfl | rfl | rfl | mem := mem
    · simp [property, Kind.children]
    · exact .inl (token (by simp))
    · simp [value, Kind.children]
    · exact .inl (final mark (by intro m mem; simp [mem]) mem)
  | functionCall caller arguments =>
    simp only [List.mem_cons, List.not_mem_nil, or_false] at mem
    obtain rfl | rfl := mem
    · exact caller.kind.imp_right fun kind => by simp [kind, Kind.children]
    · simp [arguments, Kind.children]
  | atRule keyword head prelude mark =>
    simp only [List.mem_cons, List.mem_append] at mem
    obtain rfl | (mem | mem) | mem := mem
    · exact .inl (token (by simp))
    · exact (head.kind mem).imp_right fun kind => by simp [kind, Kind.children]
    · exact (atom (prelude c mem)).imp_right (by simp +contextual [Kind.children])
    · exact .inl (final mark (by intro m mem; simp [mem]) mem)
  | atRuleBlock keyword head prelude block =>
    simp only [List.mem_cons, List.mem_append, List.not_mem_nil, or_false] at mem
    obtain rfl | (mem | mem) | rfl := mem
    · exact .inl (token (by simp))
    · exact (head.kind mem).imp_right fun kind => by simp [kind, Kind.children]
    · exact (atom (prelude c mem)).imp_right (by simp +contextual [Kind.children])
    · simp [block, Kind.children]
  | compound which first others =>
    have kind : c.kind.isToken = true ∨ c.kind = .interpolation := by
      obtain rfl | mem := List.mem_cons.mp mem
      · exact first.kind
      · exact (others c mem).kind
    obtain rfl | rfl := which <;> exact kind.imp_right List.mem_singleton.mpr
  | pseudo which called =>
    obtain rfl := List.mem_singleton.mp mem
    have kind : c.kind.isToken = true ∨ c.kind ∈ [Kind.interpolation, Kind.functionCall] := by
      obtain caller | call := called
      · exact caller.kind.imp_right fun kind => by simp [kind]
      · simp [call]
    obtain rfl | rfl := which <;> exact kind

/-! ### The children of each kind of node -/

/-- A child that is no token is of a kind that the node has as its children. -/
theorem child_of_kind {l : Kind} (produces : Produces scope k ns)
    (plain : ∀ t, .leaf t ∈ ns → t.Plain) (mem : c ∈ ns) (kind : c.kind = l)
    (noToken : l.isToken = false) :
  l ∈ k.children
  := by
  subst kind
  obtain token | inside := produces.child plain mem
  · rw [noToken] at token
    cases token
  · exact inside

theorem rule_children (produces : Produces scope .rule ns) :
  ∃ s b, ns = [s, b] ∧ s.kind = .selector ∧ s.children ≠ [] ∧ b.kind = .block
  := by
  cases produces with
  | sequence holds => cases holds
  | compound which | pseudo which => exact absurd which (by decide)
  | rule selector some block => exact ⟨_, _, rfl, selector, some, block⟩

theorem declaration_children (produces : Produces scope .declaration ns) :
  ∃ p c v fs, ns = p :: .leaf c :: v :: fs ∧ p.kind = .property ∧ c.mark? = some ':' ∧
    v.kind = .value ∧
    (fs = [] ∨ ∃ t, fs = [.leaf t] ∧
      (t.mark? = some ';' ∨ t.mark? = some ',' ∧ scope = .entries))
  := by
  cases produces with
  | sequence holds => cases holds
  | compound which | pseudo which => exact absurd which (by decide)
  | declaration property colon value final =>
    refine ⟨_, _, _, _, rfl, property, colon, value, ?_⟩
    cases final with
    | absent => exact .inl rfl
    | leaf mem mark =>
      refine .inr ⟨_, rfl, ?_⟩
      cases scope with
      | statements =>
        obtain rfl := List.mem_singleton.mp mem
        exact .inl mark
      | entries =>
        simp only [Scope.terminators, List.mem_cons, List.not_mem_nil, or_false] at mem
        obtain rfl | rfl := mem
        · exact .inl mark
        · exact .inr ⟨mark, rfl⟩

theorem no_colon {t : Token} (produces : Produces scope .property ns) (mem : .leaf t ∈ ns) :
  t.mark? ≠ some ':'
  := by
  cases produces with
  | sequence holds => cases holds
  | compound which | pseudo which => exact absurd which (by decide)
  | property _ noColon => exact noColon t mem

theorem atRule_children (produces : Produces scope .atRule ns) :
  ∃ t ms, ns = .leaf t :: ms ∧ t.kind = .atKeyword
  := by
  cases produces with
  | sequence holds => cases holds
  | compound which | pseudo which => exact absurd which (by decide)
  | atRule keyword | atRuleBlock keyword => exact ⟨_, _, rfl, keyword⟩

theorem functionCall_children (produces : Produces scope .functionCall ns) :
  ∃ m a, ns = [m, a] ∧ m.IsName ∧ a.kind = .arguments
  := by
  cases produces with
  | sequence holds => cases holds
  | compound which | pseudo which => exact absurd which (by decide)
  | functionCall name arguments => exact ⟨_, _, rfl, name, arguments⟩

theorem compound_children (produces : Produces scope k ns) (which : k = .className ∨ k = .idName) :
  ∃ m ms, ns = m :: ms ∧ m.IsName ∧ ∀ m ∈ ms, m.ContinuesName
  := by
  obtain rfl | rfl := which
  all_goals
    cases produces with
    | sequence holds => cases holds
    | compound _ first others => exact ⟨_, _, rfl, first, others⟩
    | pseudo which => exact absurd which (by decide)

theorem pseudo_children (produces : Produces scope k ns)
    (which : k = .pseudoClass ∨ k = .pseudoElement) :
  ∃ m, ns = [m] ∧ (m.IsName ∨ m.kind = .functionCall)
  := by
  obtain rfl | rfl := which
  all_goals
    cases produces with
    | sequence holds => cases holds
    | compound which => exact absurd which (by decide)
    | pseudo _ name => exact ⟨_, rfl, name⟩

/-! ### Blocks, semicolons and commas -/

/-- The last node of a value or of an at-rule may be a block, and that of an at-rule a semicolon.
All others go on in the statement, and so do those of a selector and of a property. -/
theorem inner (produces : Produces scope k ns) (plain : ∀ t, .leaf t ∈ ns → t.Plain)
    (which : k ∈ [.selector, .property, .value, .atRule]) :
  (∀ c ∈ ns, c.Inner scope) ∨ ∃ front last, ns = front ++ [last] ∧ (∀ c ∈ front, c.Inner scope) ∧
    (k ∈ [.value, .atRule] ∧ last.kind = .block ∨
      k = .atRule ∧ ∃ t, last = .leaf t ∧ t.mark? = some ';')
  := by
  have inside {selector : Bool} {ms : List Node} (atoms : ∀ n ∈ ms, n.IsAtom scope selector)
      (part : ms ⊆ ns) : ∀ c ∈ ms, c.Inner scope :=
    fun c mem => (atoms c mem).inner fun t leaf => plain t (leaf ▸ part mem)
  -- The nodes of an at-rule before the one that ends it.
  have front {t : Token} {hs ms : List Node} (keyword : t.kind = .atKeyword)
      (head : Node.CallHead hs) (prelude : ∀ c ∈ ms, c.Inner scope) :
      ∀ c ∈ Node.leaf t :: (hs ++ ms), c.Inner scope := by
    intro c mem
    simp only [List.mem_cons, List.mem_append] at mem
    obtain rfl | mem | mem := mem
    · have kind : (Node.leaf t).kind = .atKeyword := keyword
      exact .of_kind (by simp [kind]) (by simp [kind])
    · exact head.inner c mem
    · exact prelude c mem
  cases produces with
  | sequence holds =>
    simp only [List.mem_cons, List.not_mem_nil, or_false] at which
    obtain rfl | rfl | rfl | rfl := which <;> cases holds
  | compound kind | pseudo kind =>
    obtain rfl | rfl := kind <;> exact absurd which (by decide)
  | rule | declaration | functionCall => exact absurd which (by decide)
  | selector atoms | property atoms | value atoms =>
    exact .inl (inside atoms (List.Subset.refl _))
  | valueBlock atoms block =>
    exact .inr ⟨_, _, rfl, inside atoms (List.subset_append_left _ _), .inl ⟨by decide, block⟩⟩
  | @atRule t hs ms fs keyword head prelude final =>
    have before := front keyword head (inside prelude (by intro c mem; simp [mem]))
    cases final with
    | absent =>
      rw [List.append_nil]
      exact .inl before
    | leaf mem mark =>
      obtain rfl := List.mem_singleton.mp mem
      exact .inr ⟨_, _, rfl, before, .inr ⟨rfl, _, rfl, mark⟩⟩
  | atRuleBlock keyword head prelude block =>
    have before := front keyword head (inside prelude (by intro c mem; simp [mem]))
    exact .inr ⟨_, _, rfl, before, .inl ⟨by decide, block⟩⟩

/-- A mark is a child of a sequence of statements, of a declaration, or of what consists of
atoms. -/
theorem of_mark {t : Token} {m : Char} (produces : Produces scope k ns) (mem : .leaf t ∈ ns)
    (mark : t.mark? = some m) :
  k.holdsStatements = true ∨ k = .declaration ∨ k ∈ [.selector, .property, .value, .atRule]
  := by
  have punctuation : (Node.leaf t).kind = .punctuation := Token.kind_of_mark? mark
  have noName (name : (Node.leaf t).IsName) : False := by
    obtain kind | kind := name <;> cases punctuation.symm.trans kind
  have noGroup {k : Kind} (other : k ≠ .punctuation) (kind : (Node.leaf t).kind = k) : False :=
    other (kind.symm.trans punctuation)
  cases produces with
  | sequence holds => exact .inl holds
  | declaration => exact .inr (.inl rfl)
  | selector | property | value | valueBlock | atRule | atRuleBlock => exact .inr (.inr (by decide))
  | rule selector _ block =>
    simp only [List.mem_cons, List.not_mem_nil, or_false] at mem
    obtain rfl | rfl := mem
    · exact (noGroup (by decide) selector).elim
    · exact (noGroup (by decide) block).elim
  | functionCall name arguments =>
    simp only [List.mem_cons, List.not_mem_nil, or_false] at mem
    obtain rfl | rfl := mem
    · exact (noName name).elim
    · exact (noGroup (by decide) arguments).elim
  | compound which first others =>
    obtain rfl | mem := List.mem_cons.mp mem
    · exact (noName first).elim
    · obtain name | ⟨number, _⟩ | minus := others _ mem
      · exact (noName name).elim
      · exact (noGroup (by decide) number).elim
      · simp [Node.isLeaf, punctuation] at minus
  | pseudo which called =>
    obtain rfl := List.mem_singleton.mp mem
    obtain name | call := called
    · exact (noName name).elim
    · exact (noGroup (by decide) call).elim

/-- A block is the second child of a rule, the last one of a value or of an at-rule, or a
statement. -/
theorem block_place {before after : List Node} {b : Node} (produces : Produces scope k ns)
    (plain : ∀ t, .leaf t ∈ ns → t.Plain) (place : ns = before ++ b :: after)
    (block : b.kind = .block) :
  k = .rule ∧ before.length = 1 ∨ k ∈ [.value, .atRule] ∧ after = [] ∨ k.holdsStatements = true
  := by
  have mem : b ∈ ns := by simp [place]
  have inside : .block ∈ k.children := produces.child_of_kind plain mem block rfl
  obtain rfl | which | holds := Kind.block_mem_children inside
  · refine .inl ⟨rfl, ?_⟩
    obtain ⟨s, b', rfl, selector, _⟩ := produces.rule_children
    obtain _ | ⟨_, _ | ⟨_, before⟩⟩ := before
    · cases place
      cases selector.symm.trans block
    · rfl
    · simp at place
  · refine .inr (.inl ⟨which, ?_⟩)
    obtain all | ⟨front, last, rfl, front', _⟩ := produces.inner plain (by simp_all)
    · exact absurd block (all b mem).noBlock
    · obtain inner | ⟨_, none⟩ := mem_or_eq_last place
      · exact absurd block (front' b inner).noBlock
      · exact none
  · exact .inr (.inr holds)

/-- A semicolon is a statement, the terminator of a declaration or the last child of an at-rule. -/
theorem semicolon_place {before after : List Node} {t : Token} (produces : Produces scope k ns)
    (plain : ∀ t, .leaf t ∈ ns → t.Plain) (place : ns = before ++ .leaf t :: after)
    (semicolon : t.mark? = some ';') :
  k.holdsStatements = true ∨ k = .declaration ∧ before.length = 3 ∨ k = .atRule ∧ after = []
  := by
  have mem : .leaf t ∈ ns := by simp [place]
  have punctuation : (Node.leaf t).kind = .punctuation := Token.kind_of_mark? semicolon
  obtain holds | rfl | which := produces.of_mark mem semicolon
  · exact .inl holds
  · refine .inr (.inl ⟨rfl, ?_⟩)
    obtain ⟨_, c, _, fs, rfl, property, colon, value, final⟩ := produces.declaration_children
    obtain _ | ⟨_, _ | ⟨_, _ | ⟨_, before⟩⟩⟩ := before
    · rw [(List.cons.inj place).1, punctuation] at property
      cases property
    · cases place
      cases colon.symm.trans semicolon
    · simp only [List.cons_append, List.nil_append, List.cons.injEq] at place
      rw [place.2.2.1, punctuation] at value
      cases value
    · simp only [List.cons_append, List.cons.injEq] at place
      obtain ⟨_, _, _, rfl⟩ := place
      obtain none | ⟨_, one, _⟩ := final
      · simp at none
      · obtain ⟨rfl, _⟩ : before = [] ∧ _ := by simpa [List.append_eq_cons_iff] using one
        rfl
  · refine .inr (.inr ?_)
    have ends (inner : (Node.leaf t).Inner scope) : False := by
      apply inner.goesOn t rfl ';' semicolon
      cases scope <;> simp [Scope.terminators]
    obtain all | ⟨front, last, rfl, front', final⟩ := produces.inner plain which
    · exact (ends (all _ mem)).elim
    · obtain inner | ⟨same, none⟩ := mem_or_eq_last place
      · exact (ends (front' _ inner)).elim
      · obtain ⟨_, block⟩ | ⟨rfl, _⟩ := final
        · rw [← same, punctuation] at block
          cases block
        · exact ⟨rfl, none⟩

/-- Where commas end statements, none of them is a part of one. -/
theorem no_comma {t : Token} (produces : Produces .entries k ns)
    (plain : ∀ t, .leaf t ∈ ns → t.Plain) (which : k ∈ [.selector, .property, .value, .atRule])
    (mem : .leaf t ∈ ns) :
  t.mark? ≠ some ','
  := by
  intro comma
  have ends (inner : (Node.leaf t).Inner .entries) : False :=
    inner.goesOn t rfl ',' comma (by simp [Scope.terminators])
  obtain all | ⟨front, last, rfl, front', final⟩ := produces.inner plain which
  · exact ends (all _ mem)
  · obtain mem | mem := List.mem_append.mp mem
    · exact ends (front' _ mem)
    · obtain rfl := List.mem_singleton.mp mem
      obtain ⟨_, block⟩ | ⟨_, _, ⟨⟩, semicolon⟩ := final
      · cases (Token.kind_of_mark? comma).symm.trans block
      · cases comma.symm.trans semicolon

/-- Where the nodes of a production may stand, and what they are. -/
theorem worded (produces : Produces scope k ns) (plain : ∀ t, .leaf t ∈ ns → t.Plain) :
  (Node.branch k ns p q).Worded scope
  := by
  constructor
  case holds => exact produces.isToken.symm
  case noBracket => exact nofun
  case stylesheet =>
    intro c mem kind
    exact absurd (produces.child_of_kind plain mem kind rfl) (by cases k <;> decide)
  case rule =>
    rintro rfl
    exact produces.rule_children
  case selector =>
    intro c mem kind
    exact Kind.selector_mem_children (produces.child_of_kind plain mem kind rfl)
  case declaration =>
    rintro rfl
    exact produces.declaration_children
  case parts =>
    rintro c mem (kind | kind)
    · exact Kind.declaration_of_part (.inl rfl) (produces.child_of_kind plain mem kind rfl)
    · exact Kind.declaration_of_part (.inr rfl) (produces.child_of_kind plain mem kind rfl)
  case colon =>
    rintro rfl t mem
    exact produces.no_colon mem
  case block =>
    intro before b after place block
    exact produces.block_place plain place block
  case semicolon =>
    intro before t after place semicolon
    exact produces.semicolon_place plain place semicolon
  case comma =>
    rintro rfl which t mem
    exact produces.no_comma plain which mem
  case atRule =>
    rintro rfl
    exact produces.atRule_children
  case functionCall =>
    rintro rfl
    exact produces.functionCall_children
  case compound => exact fun which => produces.compound_children which
  case pseudo => exact fun which => produces.pseudo_children which

end Produces

/-! ### Trees -/

namespace Node

/-- A token stands for itself. -/
theorem worded_leaf (scope : Scope) {t : Token} (plain : t.Plain) :
  (leaf t).Worded scope
  := by
  have other {k : Kind} (noToken : k.isToken = false) (kind : (leaf t).kind = k) : False := by
    have token : (leaf t).kind.isToken = true := plain.kind
    rw [kind, noToken] at token
    cases token
  have none {before after : List Node} {n : Node} (place : [] = before ++ n :: after) : False := by
    simp at place
  exact {
    holds := plain.kind.symm
    noBracket := by rintro _ ⟨⟩; exact plain.noBracket
    stylesheet := nofun
    rule := fun kind => (other rfl kind).elim
    selector := nofun
    declaration := fun kind => (other rfl kind).elim
    parts := nofun
    colon := nofun
    block := fun _ _ _ place => (none place).elim
    semicolon := fun _ _ _ place => (none place).elim
    comma := nofun
    atRule := fun kind => (other rfl kind).elim
    functionCall := fun kind => (other rfl kind).elim
    compound := fun which => (which.elim (other rfl) (other rfl)).elim
    pseudo := fun which => (which.elim (other rfl) (other rfl)).elim }

mutual

/-- The nodes of a tree that is as the grammar has it stand where they may and are what they
should be. -/
theorem Grammatical.worded {outer : Scope} {n : Node} (grammatical : n.Grammatical outer) :
  ∀ r ∈ n.inScopes outer, r.2.Worded r.1
  := by
  cases grammatical with
  | leaf plain =>
    rintro r mem
    obtain rfl := List.mem_singleton.mp mem
    exact worded_leaf _ plain
  | branch produces children =>
    rintro r mem
    rw [inScopes] at mem
    obtain rfl | mem := List.mem_cons.mp mem
    · apply produces.worded
      intro t leaf
      cases children _ leaf with
      | leaf plain => exact plain
    · exact worded_list children r mem

theorem Grammatical.worded_list {outer : Scope} {ns : List Node}
    (grammatical : ∀ n ∈ ns, n.Grammatical outer) :
  ∀ r ∈ inScopesList outer ns, r.2.Worded r.1
  := by
  cases ns with
  | nil => exact nofun
  | cons n ns =>
    intro r mem
    rw [inScopesList] at mem
    obtain mem | mem := List.mem_append.mp mem
    · exact (grammatical n List.mem_cons_self).worded r mem
    · exact worded_list (fun m mem => grammatical m (List.mem_cons_of_mem n mem)) r mem

end

/-! ### Nodes of a tree -/

namespace Grammatical

variable {scope : Scope} {k : Kind} {n : Node}

theorem exists_leaf (grammatical : n.Grammatical scope) (token : n.kind.isToken = true) :
  ∃ t, n = .leaf t
  := by
  cases grammatical with
  | @leaf _ t => exact ⟨t, rfl⟩
  | branch produces => cases produces.isToken.symm.trans token

/-- A node of a kind that no token has is a branch with a production. -/
theorem exists_branch (grammatical : n.Grammatical scope) (kind : n.kind = k)
    (noToken : k.isToken = false) :
  ∃ ns p q scope', n = .branch k ns p q ∧ Produces scope' k ns ∧ ∀ m ∈ ns, m.Grammatical scope'
  := by
  cases grammatical with
  | @leaf _ t plain =>
    have token := plain.kind
    rw [show t.kind = k from kind, noToken] at token
    cases token
  | branch produces children =>
    cases kind
    exact ⟨_, _, _, _, rfl, produces, children⟩

end Grammatical

mutual

/-- With a node all of its descendants are as the grammar has them. -/
theorem Grammatical.preorder {scope : Scope} {m n : Node} (grammatical : n.Grammatical scope)
    (mem : m ∈ n.preorder) :
  ∃ scope, m.Grammatical scope
  := by
  cases grammatical with
  | leaf plain =>
    rw [Node.preorder] at mem
    exact ⟨scope, List.mem_singleton.mp mem ▸ .leaf plain⟩
  | branch produces children =>
    rw [Node.preorder] at mem
    obtain rfl | mem := List.mem_cons.mp mem
    · exact ⟨scope, .branch produces children⟩
    · exact Grammatical.preorder_list children mem

theorem Grammatical.preorder_list {scope : Scope} {m : Node} {ns : List Node}
    (grammatical : ∀ n ∈ ns, n.Grammatical scope) (mem : m ∈ preorderList ns) :
  ∃ scope, m.Grammatical scope
  := by
  cases ns with
  | nil => cases mem
  | cons n ns =>
    obtain ⟨first, others⟩ := List.forall_mem_cons.mp grammatical
    rw [preorderList] at mem
    obtain mem | mem := List.mem_append.mp mem
    · exact first.preorder mem
    · exact Grammatical.preorder_list others mem

end

end Node

end LosslessScss
