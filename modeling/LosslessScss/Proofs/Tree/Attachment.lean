import LosslessScss.Proofs.Shape
import LosslessScss.Proofs.Tree.Derivation
import Mathlib.Data.List.Pairwise

/-!
# Nodes directly behind each other

A name takes the parentheses behind it along as its arguments, and the name of a class or an id
whatever continues it; a point, a `#` and in selectors a colon take the name behind them along.  So
no node is followed by another one that it would have taken along (`attachment_of_parse`).

What is seen when a node has been read is a fact about the tokens behind it (`Node.Ends`), whether
they belong to the same statement or not.  The next node starts with these tokens, and how a node
starts is told by its kind (`Node.Ends.apart`).
-/

namespace LosslessScss

/-! ### Nodes that may follow each other -/

namespace Node

/-- A node that stands for a name, or a call of one. -/
def StartsWithName (n : Node) : Prop := n.IsName ∨ n.kind = .functionCall

/-- Among the children of a node of the kind `k`, the node `m` does not take the node `x` directly
behind it along. -/
structure Apart (k : Kind) (m x : Node) : Prop where
  /-- A name and its arguments would be a function call. -/
  name : m.IsName → x.kind ≠ .parentheses
  compound : m.kind = .className ∨ m.kind = .idName → ¬x.ContinuesName ∧ x.kind ≠ .functionCall
  point : m.isLeaf .punctuation "." = true → ¬x.StartsWithName
  hash : m.isLeaf .punctuation "#" = true → ¬x.StartsWithName ∧ x.kind ≠ .block
  /-- A colon and a name would be a pseudo class, and two colons and a name a pseudo element. -/
  colon : k = .selector ∨ k = .atRule → m.isLeaf .punctuation ":" = true →
    ¬x.StartsWithName ∧ x.kind ≠ .pseudoClass

variable {k : Kind} {m x : Node}

theorem exists_of_isLeaf {kind : Kind} {text : String} (leaf : m.isLeaf kind text = true) :
  ∃ t, m = .leaf t ∧ t.kind = kind ∧ t.text = text
  := by
  obtain ⟨kind, text⟩ : m.kind = kind ∧ m.text? = some text := by simpa [isLeaf] using leaf
  cases m with
  | branch => cases text
  | leaf t => exact ⟨t, rfl, kind, Option.some.inj text⟩

theorem mark?_of_isLeaf {text : String} (c : Char) (leaf : m.isLeaf .punctuation text = true)
    (single : text.toList = [c]) :
  ∃ t, m = .leaf t ∧ t.mark? = some c
  := by
  obtain ⟨t, rfl, kind, rfl⟩ := exists_of_isLeaf leaf
  refine ⟨t, rfl, ?_⟩
  rw [Token.mark?, if_pos kind, single]
  rfl

theorem kind_of_isLeaf {kind : Kind} {text : String} (leaf : m.isLeaf kind text = true) :
  m.kind = kind
  := by
  obtain ⟨t, rfl, kind, _⟩ := exists_of_isLeaf leaf
  exact kind

namespace Apart

theorem of_noMark (noMark : m.kind ≠ .punctuation) (name : m.IsName → x.kind ≠ .parentheses)
    (compound : m.kind ≠ .className ∧ m.kind ≠ .idName) :
  m.Apart k x
  := by
  have noLeaf {text : String} : ¬m.isLeaf .punctuation text = true := mt kind_of_isLeaf noMark
  refine ⟨name, ?_, ?_, ?_, ?_⟩
  · intro which
    exact (which.elim compound.1 compound.2).elim
  · exact fun point => (noLeaf point).elim
  · exact fun hash => (noLeaf hash).elim
  · exact fun _ colon => (noLeaf colon).elim

/-- Only names, classes, ids and marks take anything along. -/
theorem of_kind (other : m.kind ∉ [.identifier, .interpolation, .className, .idName, .punctuation])
    (x : Node) :
  m.Apart k x
  := by
  simp only [List.mem_cons, List.not_mem_nil, or_false, not_or] at other
  obtain ⟨identifier, interpolation, className, idName, punctuation⟩ := other
  apply of_noMark punctuation _ ⟨className, idName⟩
  intro name
  exact (name.elim identifier interpolation).elim

/-- Arguments that stand behind another node have been read together with it. -/
theorem of_arguments (arguments : x.kind = .arguments) (m : Node) :
  m.Apart k x
  := by
  have noName : ¬x.StartsWithName := by simp [StartsWithName, IsName, arguments]
  have ends : ¬x.ContinuesName := by simp [ContinuesName, IsName, isLeaf, arguments]
  constructor
  all_goals simp [arguments, noName, ends]

/-- The colon of a declaration takes nothing along. -/
theorem of_colon {t : Token} (mark : t.mark? = some ':') (other : ¬(k = .selector ∨ k = .atRule))
    (x : Node) :
  (leaf t).Apart k x
  := by
  have kind : (leaf t).kind = .punctuation := Token.kind_of_mark? mark
  have noMark {text : String} (c : Char) (single : text.toList = [c]) (mark' : c ≠ ':') :
      ¬(leaf t).isLeaf .punctuation text = true := by
    intro isLeaf
    obtain ⟨_, ⟨⟩, same⟩ := mark?_of_isLeaf c isLeaf single
    exact mark' (Option.some.inj (same.symm.trans mark))
  refine ⟨?_, ?_, ?_, ?_, ?_⟩
  · rintro (name | name) <;> cases kind.symm.trans name
  · rintro (which | which) <;> cases kind.symm.trans which
  · exact fun point => (noMark '.' rfl (by decide) point).elim
  · exact fun hash => (noMark '#' rfl (by decide) hash).elim
  · exact fun which => (other which).elim

/-- What continues the name of a class or an id takes nothing of it along. -/
theorem of_continuesName (continues : m.ContinuesName) (other : x.ContinuesName) :
  m.Apart k x
  := by
  have kinds {n : Node} (continues : n.ContinuesName) :
      n.kind ∈ [.identifier, .interpolation, .number, .operator] := by
    obtain (identifier | interpolation) | ⟨number, _⟩ | minus := continues
    · simp [identifier]
    · simp [interpolation]
    · simp [number]
    · simp [kind_of_isLeaf minus]
  have own (kind : Kind) (other : kind ∉ [.identifier, .interpolation, .number, .operator]) :
      m.kind ≠ kind := fun same => other (same ▸ kinds continues)
  apply of_noMark (own _ (by decide)) _ ⟨own _ (by decide), own _ (by decide)⟩
  intro _ parentheses
  have other := kinds other
  rw [parentheses] at other
  exact absurd other (by decide)

end Apart

end Node

/-! ### How nodes end -/

/-- A name does not begin with a colon. -/
theorem Ending.not_colon_of_atName {e : Ending} {ts : List Token} (named : e.atName ts = .ok true) :
  e.atMark ':' ts ≠ .ok true
  := by
  intro colon
  obtain ⟨t, us, rfl, mark⟩ := Ending.exists_of_atMark colon
  obtain ⟨_, _, ⟨⟩, name⟩ | interpolation := Ending.exists_of_atName named
  · rw [Token.mark?_of_identifier t name] at mark
    cases mark
  · obtain ⟨_, _, _, ⟨⟩, hash, _⟩ := Ending.exists_of_atInterpolation interpolation
    rw [hash] at mark
    cases mark

/-- The node `m` ends in front of the tokens `us`: it takes none of them along. -/
structure Node.Ends (e : Ending) (selector : Bool) (m : Node) (us : List Token) : Prop where
  name : m.IsName → e.atMark '(' us = .ok false
  compound : m.kind = .className ∨ m.kind = .idName → e.NameEnds false us
  leaf : ∀ t, m = .leaf t → e.Lone selector t us

namespace Node.Ends

variable {e : Ending} {n : Nat} {selector : Bool} {m : Node} {t : Token} {ts us : List Token}

theorem of_kind (other : m.kind ∉ [.identifier, .interpolation, .className, .idName])
    (leaf : ∀ t, m = .leaf t → e.Lone selector t us) :
  m.Ends e selector us
  := by
  simp only [List.mem_cons, List.not_mem_nil, or_false, not_or] at other
  obtain ⟨identifier, interpolation, className, idName⟩ := other
  refine ⟨?_, ?_, leaf⟩
  · intro name
    exact (name.elim identifier interpolation).elim
  · intro which
    exact (which.elim className idName).elim

/-- A branch that is no name, no class and no id ends anywhere. -/
theorem of_branch {k : Kind} {ns : List Node} {p q : Position}
    (other : k ∉ [.identifier, .interpolation, .className, .idName]) :
  (Node.branch k ns p q).Ends e selector us
  := of_kind other nofun

theorem of_token (token : t.kind.isToken = true) (noName : t.kind ≠ .identifier)
    (lone : e.Lone selector t us) :
  (Node.leaf t).Ends e selector us
  := by
  apply of_kind
  · have kind : t.kind ∉ [.interpolation, .className, .idName] := by
      intro mem
      simp only [List.mem_cons, List.not_mem_nil, or_false] at mem
      obtain kind | kind | kind := mem <;> rw [kind] at token <;> cases token
    exact fun mem => (List.mem_cons.mp mem).elim noName kind
  · rintro _ ⟨⟩
    exact lone

/-- A token that is no mark ends where it ends, unless it is a name. -/
theorem of_noMark (token : t.kind.isToken = true) (noName : t.kind ≠ .identifier)
    (noMark : t.mark? = none) :
  (Node.leaf t).Ends e selector us
  := by
  apply of_token token noName
  rw [Ending.Lone, noMark]
  trivial

/-- A semicolon and a comma end where they end. -/
theorem of_separator {c : Char} (mark : t.mark? = some c) (separator : c ∈ [';', ',']) :
  (Node.leaf t).Ends e selector us
  := by
  have kind := Token.kind_of_mark? mark
  apply of_token
  · rw [kind]
    rfl
  · rw [kind]
    decide
  · simp only [List.mem_cons, List.not_mem_nil, or_false] at separator
    rw [Ending.Lone, mark]
    obtain rfl | rfl := separator <;> rfl

theorem of_call {m' : Node} {vs : List Token} (call : Derives e n (.call m) us [m'] vs)
    (name : m.IsName) (leaf : ∀ t, m = .leaf t → t.kind = .identifier) :
  m'.Ends e selector vs
  := by
  cases call with
  | callArguments => exact of_branch (by decide)
  | callNone absent =>
    refine ⟨fun _ => absent, ?_, ?_⟩
    · rintro (which | which)
      all_goals
        rw [IsName, which] at name
        exact absurd name (by decide)
    · rintro t rfl
      rw [Ending.Lone, Token.mark?_of_identifier t (leaf t rfl)]
      trivial

end Node.Ends

/-- The name of a class or an id ends where no segment follows. -/
theorem Derives.segments_end {e : Ending} {n : Nat} {ts us : List Token} {ns : List Node}
    (derives : Derives e n (.segments false) ts ns us) :
  e.NameEnds false us
  := by
  generalize phrase : Phrase.segments false = p at derives
  induction derives with
  | segmentsEnd ends =>
    cases phrase
    exact ends
  | segmentsCons _ _ _ ih =>
    cases phrase
    exact ih rfl
  | _ => cases phrase

/-- An atom ends in front of the tokens that it leaves. -/
theorem Derives.atom_ends {e : Ending} {n : Nat} {selector : Bool} {ts us : List Token} {m : Node}
    (derives : Derives e n (.atom selector) ts [m] us) (proper : ∀ t ∈ ts, t.Proper) :
  m.Ends e selector us
  := by
  cases derives with
  | atomToken noName lone => exact .of_token (proper _ List.mem_cons_self).kind noName lone
  | atomName name call => exact .of_call call (.inl name) (by rintro _ ⟨⟩; exact name)
  | atomGroup which group =>
    cases group
    obtain rfl | rfl | rfl := which <;> exact .of_branch (by decide)
  | atomInterpolation interpolation call =>
    cases interpolation
    exact .of_call call (.inr rfl) nofun
  | atomCompound which _ _ named segments =>
    obtain ⟨_, _, rfl, _⟩ := segments.compound_names named
    cases segments with
    | segmentsCons _ others =>
      refine ⟨?_, fun _ => others.segments_end, nofun⟩
      rintro (name | name)
      all_goals obtain rfl | rfl := which <;> cases name
  | atomPseudo which =>
    obtain rfl | rfl := which <;> exact .of_branch (by decide)

/-! ### How nodes begin -/

/-- The lexemes of the node `x` are the first ones of the tokens `us`. -/
def Node.Begins (x : Node) (us : List Token) : Prop := x.flatten <+: us.map Token.lexeme

theorem Spells.begins {x : Node} {us vs : List Token} (spells : Spells [x] us vs) :
  x.Begins us
  := by
  refine ⟨vs.map Token.lexeme, ?_⟩
  rw [← spells, Node.flattenList_cons, Node.flattenList_nil, List.append_nil]

theorem exists_of_prefix {l : Lexeme} {ls : List Lexeme} {us : List Token}
    (first : l :: ls <+: us.map Token.lexeme) :
  ∃ u vs, us = u :: vs ∧ u.lexeme = l ∧ ls <+: vs.map Token.lexeme
  := by
  cases us with
  | nil => exact absurd first.length_le (by simp)
  | cons u vs =>
    obtain ⟨same, others⟩ := List.cons_prefix_cons.mp first
    exact ⟨u, vs, rfl, same.symm, others⟩

/-- Where a node of a kind with a mark in front begins there is this mark. -/
theorem Node.Begins.mark {k : Kind} {ns : List Node} {p q : Position} {us : List Token} (c : Char)
    (cs : List Char) (begins : (Node.branch k ns p q).Begins us)
    (opening : k.opening.toList = c :: cs) :
  ∃ u vs, us = u :: vs ∧ u.mark? = some c ∧
    cs.map (⟨.punctuation, [·]⟩) ++ flattenList ns <+: vs.map Token.lexeme
  := by
  rw [Begins, flatten_branch, Lexeme.marks, opening, List.map_cons, List.cons_append,
    List.cons_append] at begins
  obtain ⟨u, vs, rfl, lexeme, others⟩ := exists_of_prefix begins
  exact ⟨u, vs, rfl, Token.mark?_of_lexeme lexeme, (List.prefix_append _ _).trans others⟩

namespace Node.Grammatical

variable {e : Ending} {scope : Scope} {x : Node} {us : List Token}

/-- Where a name begins there is an identifier or an interpolation. -/
theorem atName_of_isName (grammatical : x.Grammatical scope) (begins : x.Begins us)
    (name : x.IsName) :
  e.atName us = .ok true
  := by
  obtain identifier | interpolation := name
  · obtain ⟨t, rfl⟩ := grammatical.exists_leaf (by rw [identifier]; rfl)
    rw [Begins, flatten_leaf] at begins
    obtain ⟨u, vs, rfl, lexeme, _⟩ := exists_of_prefix begins
    have kind : u.kind = .identifier := (congrArg Lexeme.kind lexeme).trans identifier
    rw [Ending.atName, if_pos kind]
    rfl
  · obtain ⟨ns, p, q, _, rfl, _⟩ := grammatical.exists_branch interpolation rfl
    obtain ⟨u, vs, rfl, hash, others⟩ := begins.mark '#' ['\x7b'] rfl
    obtain ⟨v, ws, rfl, lexeme, _⟩ := exists_of_prefix others
    have kind : u.kind ≠ .identifier := by
      rw [Token.kind_of_mark? hash]
      decide
    have curly : v.mark? = some '\x7b' := Token.mark?_of_lexeme lexeme
    rw [Ending.atName, if_neg kind, Ending.atInterpolation, if_pos hash, Ending.atMark, curly]
    rfl

/-- A call begins with its name. -/
theorem atName (grammatical : x.Grammatical scope) (begins : x.Begins us)
    (starts : x.StartsWithName) :
  e.atName us = .ok true
  := by
  obtain name | call := starts
  · exact grammatical.atName_of_isName begins name
  · obtain ⟨ns, p, q, _, rfl, produces, children⟩ := grammatical.exists_branch call rfl
    obtain ⟨c, a, rfl, name, _⟩ := produces.functionCall_children
    have text : (Node.branch .functionCall [c, a] p q).flatten = c.flatten ++ a.flatten := by
      simp [flatten_branch, Lexeme.marks, Kind.opening, Kind.closing]
    rw [Begins, text] at begins
    exact (children c List.mem_cons_self).atName_of_isName
      ((List.prefix_append _ _).trans begins) name

/-- Where a node begins that continues the name of a class or an id, the name goes on. -/
theorem not_nameEnds (grammatical : x.Grammatical scope) (begins : x.Begins us)
    (continues : x.ContinuesName) :
  ¬e.NameEnds false us
  := by
  intro ends
  have token {t : Token} (leaf : x = .leaf t) : Level.continuesName false t = false := by
    subst leaf
    rw [Begins, flatten_leaf] at begins
    obtain ⟨u, vs, rfl, lexeme, _⟩ := exists_of_prefix begins
    rw [← Token.continuesName_eq_of_lexeme lexeme, ends.2 u rfl]
  obtain name | ⟨number, noPoint⟩ | minus := continues
  · exact ends.atName (grammatical.atName_of_isName begins name)
  · obtain ⟨t, rfl⟩ := grammatical.exists_leaf (by rw [number]; rfl)
    have number : t.kind = .number := number
    have stops := token rfl
    simp [Level.continuesName, number, noPoint t.text rfl] at stops
  · obtain ⟨t, rfl, operator, text⟩ := exists_of_isLeaf minus
    have stops := token rfl
    simp [Level.continuesName, operator, text] at stops

/-- A pseudo class begins with a colon and a name. -/
theorem pseudoClass (grammatical : x.Grammatical scope) (begins : x.Begins us)
    (kind : x.kind = .pseudoClass) :
  ∃ u vs, us = u :: vs ∧ u.mark? = some ':' ∧ e.atName vs = .ok true
  := by
  obtain ⟨ns, p, q, _, rfl, produces, children⟩ := grammatical.exists_branch kind rfl
  obtain ⟨c, rfl, name⟩ := produces.pseudo_children (.inl rfl)
  obtain ⟨u, vs, rfl, colon, others⟩ := begins.mark ':' [] rfl
  have begins : c.Begins vs := by simpa [Begins] using others
  exact ⟨u, vs, rfl, colon, (children c List.mem_cons_self).atName begins name⟩

end Node.Grammatical

/-- Nothing that a node would have taken along begins where the node ends. -/
theorem Node.Ends.apart {e : Ending} {scope : Scope} {selector : Bool} {k : Kind} {m x : Node}
    {us : List Token} (ends : m.Ends e selector us) (grammatical : x.Grammatical scope)
    (begins : x.Begins us) (colons : k = .selector ∨ k = .atRule → selector = true) :
  m.Apart k x
  := by
  have named (starts : x.StartsWithName) : e.atName us = .ok true :=
    grammatical.atName begins starts
  refine ⟨?_, ?_, ?_, ?_, ?_⟩
  · intro name parentheses
    obtain ⟨_, _, _, _, rfl, _⟩ := grammatical.exists_branch parentheses rfl
    obtain ⟨u, vs, rfl, mark, _⟩ := begins.mark '(' [] rfl
    have absent := ends.name name
    rw [Ending.atMark, mark] at absent
    cases absent
  · intro which
    have nameEnds := ends.compound which
    exact ⟨fun continues => grammatical.not_nameEnds begins continues nameEnds,
      fun call => nameEnds.atName (named (.inr call))⟩
  · intro point starts
    obtain ⟨t, rfl, mark⟩ := mark?_of_isLeaf '.' point rfl
    have lone := ends.leaf t rfl
    rw [Ending.Lone, mark, named starts] at lone
    cases lone
  · intro hash
    obtain ⟨t, rfl, mark⟩ := mark?_of_isLeaf '#' hash rfl
    have lone := ends.leaf t rfl
    rw [Ending.Lone, mark] at lone
    obtain ⟨noCurly, noName⟩ := lone
    refine ⟨?_, ?_⟩
    · intro starts
      rw [named starts] at noName
      cases noName
    · intro block
      obtain ⟨_, _, _, _, rfl, _⟩ := grammatical.exists_branch block rfl
      obtain ⟨u, vs, rfl, curly, _⟩ := begins.mark '\x7b' [] rfl
      rw [Ending.atMark, curly] at noCurly
      cases noCurly
  · intro which colon
    obtain ⟨t, rfl, mark⟩ := mark?_of_isLeaf ':' colon rfl
    have lone := ends.leaf t rfl
    rw [Ending.Lone, mark] at lone
    have lone := lone (colons which)
    refine ⟨?_, ?_⟩
    · intro starts
      obtain ⟨second, _⟩ | ⟨_, noName⟩ := lone
      · exact absurd second (Ending.not_colon_of_atName (named starts))
      · rw [named starts] at noName
        cases noName
    · intro pseudoClass
      obtain ⟨u, vs, rfl, second, name⟩ := grammatical.pseudoClass (e := e) begins pseudoClass
      obtain ⟨_, noName⟩ | ⟨noColon, _⟩ := lone
      · rw [List.tail_cons, name] at noName
        cases noName
      · rw [Ending.atMark, second] at noColon
        cases noColon

/-! ### Nodes in a row -/

/-- The nodes `ns` are read of the tokens `ts` up to `us`, one directly behind the other, and each
ends before the next one, unless those are its arguments. -/
inductive Row (e : Ending) (selector : Bool) : List Token → List Node → List Token → Prop where
  | nil {ts} : Row e selector ts [] ts
  | cons {m ts us ns vs} (spells : Spells [m] ts us)
      (ends : (∀ x ∈ ns.head?, x.kind ≠ .arguments) → m.Ends e selector us)
      (others : Row e selector us ns vs) : Row e selector ts (m :: ns) vs

namespace Row

variable {e : Ending} {selector : Bool} {ts us vs : List Token} {m : Node} {ms ns : List Node}

theorem single (spells : Spells [m] ts us) (ends : m.Ends e selector us) :
  Row e selector ts [m] us
  := .cons spells (fun _ => ends) .nil

theorem append (first : Row e selector ts ms us) (second : Row e selector us ns vs) :
  Row e selector ts (ms ++ ns) vs
  := by
  induction first with
  | nil => exact second
  | @cons _ _ _ ms _ spells ends _ ih =>
    refine .cons spells (fun other => ends ?_) (ih second)
    cases ms with
    | nil => exact nofun
    | cons => exact other

/-- Nodes in a row do not take each other along. -/
theorem isChain {k : Kind} (row : Row e selector ts ns us)
    (grammatical : ∀ n ∈ ns, ∃ scope, n.Grammatical scope)
    (colons : k = .selector ∨ k = .atRule → selector = true) :
  ns.IsChain (Node.Apart k)
  := by
  induction row with
  | nil => exact .nil
  | @cons m _ _ ns _ spells ends others ih =>
    obtain ⟨_, behind⟩ := List.forall_mem_cons.mp grammatical
    cases others with
    | nil => exact .singleton m
    | @cons x _ _ ns _ spells' =>
      refine .cons_cons ?_ (ih behind)
      by_cases arguments : x.kind = .arguments
      · exact .of_arguments arguments m
      · obtain ⟨scope, grammatical⟩ := behind x List.mem_cons_self
        have ends := ends (by rintro _ ⟨⟩; exact arguments)
        exact ends.apart grammatical spells'.begins colons

end Row

section Rows

variable {e : Ending} {n : Nat} {scope : Scope} {selector : Bool} {ts us : List Token}
  {m : Node} {ns : List Node}

/-- Leaves that are no names and no marks stand in a row. -/
theorem Row.leaves (bs : List Token) (blank : ∀ b ∈ bs, b.kind = .space) :
  Row e selector (bs ++ ts) (bs.map .leaf) ts
  := by
  induction bs with
  | nil => exact .nil
  | cons b bs ih =>
    obtain ⟨space, blank⟩ := List.forall_mem_cons.mp blank
    refine .cons (.leaf b _) (fun _ => .of_noMark ?_ ?_ (Token.mark?_of_kind ?_)) (ih blank)
    all_goals simp [space, Kind.isToken]

/-- A node that is no name, no class and no id ends anywhere. -/
theorem Row.branch {k : Kind} {p q : Position} (spells : Spells [.branch k ns p q] ts us)
    (other : k ∉ [.identifier, .interpolation, .className, .idName]) :
  Row e selector ts [.branch k ns p q] us
  := .single spells (.of_branch other)

theorem Terminator.row {marks : List Char} (terminator : Terminator e marks ts ns us)
    (which : marks ⊆ [';', ',']) :
  Row e selector ts ns us
  := by
  cases terminator with
  | mark mem mark => exact .single (.leaf _ _) (.of_separator mark (which mem))
  | none => exact .nil

theorem Derives.group_row {g : Group} (derives : Derives e n (.group g) ts [m] us)
    (which : g ≠ .interpolation) (proper : ∀ t ∈ ts, t.Proper) :
  Row e selector ts [m] us
  := by
  have spells : Spells [m] ts us := derives.flatten proper
  cases derives
  apply Row.branch spells
  cases g <;> first | contradiction | decide

theorem Derives.atom_row (derives : Derives e n (.atom selector) ts [m] us)
    (proper : ∀ t ∈ ts, t.Proper) :
  Row e selector ts [m] us
  := .single (derives.flatten proper) (derives.atom_ends proper)

theorem Derives.atoms_row {loop : Loop} (derives : Derives e n (.atoms loop) ts ns us)
    (proper : ∀ t ∈ ts, t.Proper) :
  Row e loop.inSelector ts ns us
  := by
  generalize phrase : Phrase.atoms loop = p at derives
  induction derives with
  | atomsStop | atomsEnd => exact .nil
  | atomsCons _ first _ _ ih =>
    cases phrase
    exact (first.atom_row proper).append (ih (first.forall_rest proper) rfl)
  | _ => cases phrase

theorem Derives.head_row (derives : Derives e n .head ts ns us) (proper : ∀ t ∈ ts, t.Proper) :
  Row e selector ts ns us
  := by
  cases derives with
  | headNone => exact .nil
  | @headCall _ blanks t ts a _ blank name arguments =>
    obtain ⟨_, ⟨⟩, kind⟩ := arguments.group_kind
    have behind : ∀ u ∈ ts, u.Proper := fun u mem => proper u (by simp [mem])
    have others : Row e selector ts [a] us := arguments.group_row nofun behind
    -- The arguments are the only thing that stands behind what takes it along.
    have called : Row e selector (t :: ts) [.leaf t, a] us :=
      .cons (.leaf t ts) (fun other => absurd kind (other a rfl)) others
    exact (Row.leaves blanks blank).append called

/-- The children of an at-rule. -/
theorem Row.atRule {k : Token} {vs ws : List Token} {hs ps fs : List Node}
    (keyword : k.kind = .atKeyword) (head : Row e true ts hs us) (prelude : Row e true us ps vs)
    (final : Row e true vs fs ws) :
  Row e true (k :: ts) (.leaf k :: (hs ++ ps ++ fs)) ws
  := by
  refine .cons (.leaf k ts) (fun _ => .of_noMark ?_ ?_ (Token.mark?_of_kind ?_))
    ((head.append prelude).append final)
  all_goals simp [keyword, Kind.isToken]

theorem Derives.statement_row (derives : Derives e n (.statement scope) ts ns us)
    (proper : ∀ t ∈ ts, t.Proper) :
  Row e false ts ns us
  := by
  have spells : Spells ns ts us := derives.flatten proper
  cases derives with
  | statementToken alone =>
    apply Row.single spells
    simp only [Level.standsAlone, Bool.or_eq_true, decide_eq_true_eq, Bool.and_eq_true] at alone
    obtain (trivia | semicolon) | ⟨_, comma⟩ := alone
    · apply Node.Ends.of_noMark (proper _ List.mem_cons_self).kind
      · intro name
        rw [name] at trivia
        cases trivia
      · apply Token.mark?_of_kind
        intro kind
        rw [kind] at trivia
        cases trivia
    · exact .of_separator semicolon (by decide)
    · exact .of_separator comma (by decide)
  | atRuleBlock | atRule | rule | declarationBlock | declaration =>
    exact .branch spells (by decide)
  | looseBlock _ _ first => exact first.atom_row proper
  | loose _ _ first _ others =>
    exact (first.atom_row proper).append (others.atoms_row (first.forall_rest proper))

theorem Derives.sequence_row {around : Surroundings}
    (derives : Derives e n (.sequence around) ts ns us) (proper : ∀ t ∈ ts, t.Proper) :
  Row e false ts ns us
  := by
  generalize phrase : Phrase.sequence around = p at derives
  induction derives with
  | sequenceEnd | sequenceCloser => exact .nil
  | sequenceCons _ first _ _ ih =>
    cases phrase
    exact (first.statement_row proper).append (ih (first.forall_rest proper) rfl)
  | _ => cases phrase

end Rows

/-! ### Trees -/

/-- The children of a node stand in a row, if it is one that may have any number of them. -/
def Node.Rowed (e : Ending) (n : Node) : Prop :=
  n.kind.holdsStatements = true ∨ n.kind ∈ [.selector, .property, .value, .atRule] →
    ∃ selector ts us, (n.kind = .selector ∨ n.kind = .atRule → selector = true) ∧
      Row e selector ts n.children us

namespace Node.Rowed

variable {e : Ending} {selector : Bool} {k : Kind} {ts us : List Token} {ns : List Node}
  {p q : Position}

theorem leaf (t : Token) :
  (Node.leaf t).Rowed e
  := fun _ => ⟨true, [], [], fun _ => rfl, .nil⟩

theorem branch (row : Row e selector ts ns us)
    (colons : k = .selector ∨ k = .atRule → selector = true) :
  (Node.branch k ns p q).Rowed e
  := fun _ => ⟨selector, ts, us, colons, row⟩

theorem of_kind
    (other : ¬(k.holdsStatements = true ∨ k ∈ [.selector, .property, .value, .atRule])) :
  (Node.branch k ns p q).Rowed e
  := fun which => absurd which other

end Node.Rowed

/-- The children of every node that a phrase makes up stand in a row, if those of the nodes that the
phrase is given do. -/
theorem Derives.rowed {e : Ending} {n : Nat} {p : Phrase} {ts us : List Token} {ns : List Node}
    (derives : Derives e n p ts ns us) (proper : ∀ t ∈ ts, t.Proper)
    (given : Node.Every (Node.Rowed e) p.given) :
  Node.Every (Node.Rowed e) ns
  := by
  have leaf (t : Token) : Node.Every (Node.Rowed e) [.leaf t] := .leaf (.leaf t)
  have final {marks : List Char} {ts us : List Token} {fs : List Node}
      (terminator : Terminator e marks ts fs us) : Node.Every (Node.Rowed e) fs := by
    cases terminator with
    | mark => exact leaf _
    | none => exact .nil
  have declared {c : Token} {ps vs fs : List Node} {p p' q q' r r' : Position}
      (property : Node.Every (Node.Rowed e) [.branch .property ps p p'])
      (value : Node.Every (Node.Rowed e) [.branch .value vs q q'])
      (final : Node.Every (Node.Rowed e) fs) :
      Node.Every (Node.Rowed e) [.branch .declaration
        ([.branch .property ps p p', .leaf c, .branch .value vs q q'] ++ fs) r r'] :=
    .branch (.of_kind (by decide)) ((property.append ((leaf c).append value)).append final)
  induction derives with
  | @group _ g _ _ _ _ _ _ _ inside _ ih =>
    have proper := fun t mem => proper t (List.mem_append_right _ mem)
    refine .branch (.branch (inside.sequence_row proper) ?_) (ih proper .nil)
    cases g <;> exact nofun
  | callNone => exact given
  | callArguments _ ih => exact .branch (.of_kind (by decide)) (given.append (ih proper .nil))
  | segmentToken | targetName | atomToken | statementToken => exact leaf _
  | segmentInterpolation _ ih | targetInterpolation _ ih | atomGroup _ _ ih
  | looseBlock _ _ _ _ ih => exact ih proper .nil
  | segmentsEnd | atomsStop | atomsEnd | headNone | sequenceEnd | sequenceCloser => exact .nil
  | segmentsCons one _ ih ih' | atomsCons _ one _ ih ih' | loose _ _ one _ _ ih ih'
  | sequenceCons _ one _ ih ih' =>
    exact (ih proper .nil).append (ih' (one.forall_rest proper) .nil)
  | atomName _ _ ih => exact ih (List.forall_mem_cons.mp proper).2 (leaf _)
  | atomInterpolation one _ ih ih' => exact ih' (one.forall_rest proper) (ih proper .nil)
  | atomCompound which _ _ _ _ ih =>
    refine .branch (.of_kind ?_) (ih (List.forall_mem_cons.mp proper).2 .nil)
    obtain rfl | rfl := which <;> decide
  | atomPseudo which _ _ target _ ih ih' =>
    have proper := fun t mem => proper t (List.mem_append_right _ mem)
    refine .branch (.of_kind ?_) (ih' (target.forall_rest proper) (ih proper .nil))
    obtain rfl | rfl := which <;> decide
  | headCall _ _ _ ih =>
    have arguments := ih (fun t mem => proper t (by simp [mem])) .nil
    exact (Node.Every.leaves fun b _ => .leaf b).append ((leaf _).append arguments)
  | atRuleBlock keyword head prelude block ih ih' ih'' =>
    have behind := (List.forall_mem_cons.mp proper).2
    have behind' := head.forall_rest behind
    have behind'' := prelude.forall_rest behind'
    have row := Row.atRule keyword (head.head_row behind) (prelude.atoms_row behind')
      (block.group_row nofun behind'')
    exact .branch (.branch row fun _ => rfl)
      ((leaf _).append (((ih behind .nil).append (ih' behind' .nil)).append (ih'' behind'' .nil)))
  | atRule keyword head prelude _ terminator ih ih' =>
    have behind := (List.forall_mem_cons.mp proper).2
    have behind' := head.forall_rest behind
    have row := Row.atRule keyword (head.head_row behind) (prelude.atoms_row behind')
      (terminator.row (by simp))
    exact .branch (.branch row fun _ => rfl)
      ((leaf _).append (((ih behind .nil).append (ih' behind' .nil)).append (final terminator)))
  | @rule _ _ _ _ ms _ _ _ _ _ selector block ih ih' =>
    have atoms (p p' : Position) : Node.Every (Node.Rowed e) [.branch .selector ms p p'] :=
      .branch (.branch (selector.atoms_row proper) fun _ => rfl) (ih proper .nil)
    exact .branch (.of_kind (by decide))
      ((atoms _ _).append (ih' (selector.forall_rest proper) .nil))
  | declarationBlock _ _ property value block terminator ih ih' ih'' =>
    have behind := (List.forall_mem_cons.mp (property.forall_rest proper)).2
    have behind' := value.forall_rest behind
    have row := (value.atoms_row behind).append (block.group_row nofun behind')
    exact declared (.branch (.branch (property.atoms_row proper) nofun) (ih proper .nil))
      (.branch (.branch row nofun) ((ih' behind .nil).append (ih'' behind' .nil)))
      (final terminator)
  | declaration _ _ property value _ terminator ih ih' =>
    have behind := (List.forall_mem_cons.mp (property.forall_rest proper)).2
    exact declared (.branch (.branch (property.atoms_row proper) nofun) (ih proper .nil))
      (.branch (.branch (value.atoms_row behind) nofun) (ih' behind .nil)) (final terminator)

namespace Node

/-- The children of a node do not take each other along. -/
theorem Grammatical.isChain {e : Ending} {scope : Scope} {m : Node}
    (grammatical : m.Grammatical scope) (rowed : m.Rowed e) :
  m.children.IsChain (Apart m.kind)
  := by
  cases grammatical with
  | leaf => exact .nil
  | @branch _ k ns p q produces children =>
    have row (which : k.holdsStatements = true ∨ k ∈ [.selector, .property, .value, .atRule]) :
        ns.IsChain (Apart k) := by
      obtain ⟨selector, ts, us, colons, row⟩ := rowed which
      exact row.isChain (fun n mem => ⟨_, children n mem⟩) colons
    change ns.IsChain (Apart k)
    cases produces with
    | sequence holds => exact row (.inl holds)
    | selector | property | value | valueBlock | atRule | atRuleBlock =>
      exact row (.inr (by decide))
    | rule selector => exact .cons_cons (.of_kind (by rw [selector]; decide) _) (.singleton _)
    | @declaration _ _ v fs property colon value final =>
      have behind : (v :: fs).IsChain (Apart .declaration) := by
        cases final with
        | absent => exact .singleton _
        | leaf => exact .cons_cons (.of_kind (by rw [value]; decide) _) (.singleton _)
      exact .cons_cons (.of_kind (by rw [property]; decide) _)
        (.cons_cons (.of_colon colon (by decide) _) behind)
    | functionCall name arguments => exact .cons_cons (.of_arguments arguments _) (.singleton _)
    | compound which first others =>
      have names := List.forall_mem_cons.mpr ⟨.inl first, others⟩
      exact (List.pairwise_of_forall_mem_list fun m mem x mem' =>
        .of_continuesName (names m mem) (names x mem')).isChain
    | pseudo => exact .singleton _

end Node

/-- No node in the tree of a text is directly followed by one that it would have taken along. -/
theorem attachment_of_parse (source : String) (n b : Node) (parsed : parse source = .ok n)
    (mem : b ∈ n.preorder) :
  b.children.IsChain (Node.Apart b.kind)
  := by
  have proper := (Lexer.stands_ofCursor (.ofString source)).proper_stream
  obtain ⟨ns, rfl, derives⟩ := TokenStream.derives_of_stylesheet parsed
  have rowed : Node.Every (Node.Rowed _) [.spanning .stylesheet ns .origin] :=
    .branch (.branch (derives.sequence_row proper) nofun) (derives.rowed proper .nil)
  obtain ⟨scope, grammatical⟩ := (derives.stylesheet_grammatical proper).preorder mem
  exact grammatical.isChain (rowed b (by simpa [Node.preorderList] using mem))

/-- A class in front of parentheses and a colon in front of a pseudo element. -/
theorem attachment_of_parse_selector :
  ∃ n b, parse ".a(b):::c(d)\x7b\x7d" = .ok n ∧ b ∈ n.preorder ∧
    b.children.map Node.kind = [.className, .parentheses, .punctuation, .pseudoElement] ∧
    b.children.IsChain (Node.Apart b.kind)
  := by
  have found : (parse ".a(b):::c(d)\x7b\x7d").toOption.any (·.preorder.any fun b =>
      b.children.map Node.kind = [.className, .parentheses, .punctuation, .pseudoElement])
        = true := by
    decide +kernel
  cases parsed : parse ".a(b):::c(d)\x7b\x7d" with
  | error => rw [parsed] at found; cases found
  | ok n =>
    rw [parsed] at found
    obtain ⟨b, mem, kinds⟩ := List.any_eq_true.mp found
    exact ⟨n, b, rfl, mem, of_decide_eq_true kinds, attachment_of_parse _ n b parsed mem⟩

end LosslessScss
