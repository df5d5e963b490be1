import LosslessScss.Proofs.Shape
import LosslessScss.Proofs.Tree.Derivation

/-!
# Where declarations are split

What tells a declaration is a colon of its statement that is not the first token.  Its property is
read up to the first colon of all, though: a declaration that starts with a colon has an empty
property, and the colon that has told it stands in its value (`splitting_of_parse`).
-/

namespace LosslessScss

open Statement

/-- The declaration `d` has the property `p`, the colon `c` and the value `v`. -/
structure Node.SplitsInto (d p : Node) (c : Token) (v : Node) : Prop where
  children : ∃ fs, d.children = p :: .leaf c :: v :: fs
  property : p.kind = .property
  colon : c.mark? = some ':'
  value : v.kind = .value
  /-- The property is empty if the declaration starts with a colon, and only then. -/
  empty : p.children = [] ↔ d.flatten.head? = some ⟨.punctuation, [':']⟩
  /-- Behind an empty property another colon stands in the value. -/
  told : p.children = [] → ∃ t, .leaf t ∈ v.children ∧ t.mark? = some ':'

section Colons

variable {e : Ending} {n : Nat} {scope : Scope} {t c : Token} {ts us vs : List Token}
  {ns ps : List Node}

/-- Outside of a selector a colon is an atom by itself. -/
theorem Derives.atom_colon (derives : Derives e n (.atom false) (t :: ts) ns us)
    (colon : t.mark? = some ':') :
  ns = [.leaf t]
  := by
  have noGroup {g : Group} {ms : List Node} {ws : List Token} :
      ¬Derives e n (.group g) (t :: ts) ms ws := by
    intro group
    generalize tokens : t :: ts = vs at group
    cases group with
    | @group _ _ _ os rest _ _ _ opening =>
      cases tokens
      have passes : t.Passes (os ++ rest) := .of_mark colon rfl (by decide) nofun
      obtain ⟨_, opened, _⟩ := opening.openedBy? rest
      rw [passes.opens] at opened
      cases opened
  generalize tokens : t :: ts = vs at derives
  cases derives with
  | atomToken =>
    cases tokens
    rfl
  | atomName name =>
    cases tokens
    rw [Token.mark?_of_identifier t name] at colon
    cases colon
  | atomGroup _ group =>
    subst tokens
    exact absurd group noGroup
  | atomInterpolation interpolation =>
    subst tokens
    exact absurd interpolation noGroup
  | atomCompound which sigil =>
    cases tokens
    obtain rfl | rfl := which
    all_goals
      have mark := sigil.head rfl
      rw [colon] at mark
      cases mark

/-- A colon outside of every group that a run passes over is one of its nodes. -/
theorem Derives.run_colon {first : Bool} (derives : Derives e n (.atoms (.run scope false)) ts ns us)
    (colons : (extentFrom scope 0 first ts).colons ≠ []) :
  ∃ c, .leaf c ∈ ns ∧ c.mark? = some ':'
  := by
  generalize phrase : Phrase.atoms (.run scope false) = p at derives
  induction derives generalizing first with
  | atomsStop stops =>
    cases phrase
    rw [extentFrom_ends stops] at colons
    exact absurd rfl colons
  | atomsEnd =>
    rw [extentFrom_nil] at colons
    exact absurd rfl colons
  | @atomsCons _ _ t ts m us ms vs goesOn atom _ _ ih =>
    cases phrase
    by_cases colon : t.mark? = some ':'
    · obtain ⟨⟨⟩⟩ := atom.atom_colon colon
      exact ⟨t, List.mem_cons_self, colon⟩
    · obtain ⟨cs, step, noColon⟩ := GoesOn.atom atom goesOn first
      rw [step, noColon rfl colon] at colons
      obtain ⟨c, mem, mark⟩ := ih colons rfl
      exact ⟨c, List.mem_cons_of_mem m mem, mark⟩
  | _ => cases phrase

/-- A property is empty if a colon comes first. -/
theorem Derives.property_eq_nil_iff (derives : Derives e n (.atoms .property) (t :: ts) ps (c :: us)) :
  ps = [] ↔ t.mark? = some ':'
  := by
  constructor
  · rintro rfl
    cases derives with
    | atomsStop stops => exact of_decide_eq_true stops
  · intro colon
    cases derives with
    | atomsStop => rfl
    | atomsCons goesOn => exact absurd colon (of_decide_eq_false goesOn)

/-- A declaration that starts with a colon has been told by another one, which is passed over by its
value. -/
theorem Derives.value_colon (survey : plainSurvey e scope (t :: ts) = .ok .declaration)
    (property : Derives e n (.atoms .property) (t :: ts) [] (c :: us))
    (value : Derives e n (.atoms (.run scope false)) us ns vs) :
  ∃ c, .leaf c ∈ ns ∧ c.mark? = some ':'
  := by
  have within : (extentFrom scope 0 true (t :: ts)).colons ≠ [] := within_of_declaration survey
  cases property with
  | atomsStop stops =>
    have step : GoesOn scope true (t :: ts) [] ts := GoesOn.colon (of_decide_eq_true stops)
    rw [step] at within
    exact value.run_colon within

/-! ### Declarations -/

/-- A node that has lexemes starts with the first token that it takes. -/
theorem Spells.head?_flatten {d : Node} (spells : Spells [d] (t :: ts) us)
    (some : d.flatten ≠ []) :
  d.flatten.head? = .some t.lexeme
  := by
  rw [Spells, Node.flattenList_cons, Node.flattenList_nil, List.append_nil] at spells
  obtain ⟨l, ls, text⟩ := List.exists_cons_of_ne_nil some
  rw [text] at spells ⊢
  exact congrArg _ (List.cons.inj spells).1

/-- A declaration is split at its first colon. -/
theorem Derives.declaration_splitsInto {ws : List Token} {ms fs : List Node} {p q r : Position}
    (survey : plainSurvey e scope (t :: ts) = .ok .declaration)
    (property : Derives e n (.atoms .property) (t :: ts) ps (c :: us))
    (value : Derives e n (.atoms (.run scope false)) us ns vs) (inside : ns ⊆ ms)
    (proper : t.Proper)
    (spells : Spells [.spanning .declaration ([.spanning .property ps p, .leaf c,
      .spanning .value ms q] ++ fs) r] (t :: ts) ws) :
  (Node.spanning .declaration ([.spanning .property ps p, .leaf c,
    .spanning .value ms q] ++ fs) r).SplitsInto (.spanning .property ps p) c (.spanning .value ms q)
  := by
  have first := spells.head?_flatten (by
    rw [Node.flatten_spanning rfl rfl]
    simp)
  refine ⟨⟨fs, rfl⟩, rfl, property.property_end, rfl, ?_, ?_⟩
  · rw [first]
    refine property.property_eq_nil_iff.trans ⟨fun colon => ?_, fun same => ?_⟩
    · rw [proper.lexeme colon]
    · exact Token.mark?_of_lexeme (Option.some.inj same)
  · intro empty
    obtain rfl : ps = [] := empty
    obtain ⟨c, mem, colon⟩ := Derives.value_colon survey property value
    exact ⟨c, inside mem, colon⟩

/-- A statement that is a declaration is split at its first colon. -/
theorem Derives.splitsInto {m : Node} (derives : Derives e n (.statement scope) ts [m] us)
    (declaration : m.kind = .declaration) (proper : ∀ t ∈ ts, t.Proper) :
  ∃ p c v, m.SplitsInto p c v
  := by
  have spells : Spells [m] ts us := derives.flatten proper
  cases derives with
  | @statementToken _ _ t =>
    have token := (proper t List.mem_cons_self).kind
    rw [show t.kind = .declaration from declaration] at token
    cases token
  | atRuleBlock | atRule | rule => cases declaration
  | declarationBlock _ survey property value =>
    exact ⟨_, _, _, property.declaration_splitsInto survey value (List.subset_append_left _ _)
      (proper _ List.mem_cons_self) spells⟩
  | declaration _ survey property value =>
    exact ⟨_, _, _, property.declaration_splitsInto survey value (List.Subset.refl _)
      (proper _ List.mem_cons_self) spells⟩
  | looseBlock _ _ _ block =>
    rw [declaration] at block
    cases block
  | loose _ _ first =>
    have other := first.atom_plain (proper _ List.mem_cons_self)
    rw [declaration] at other
    exact absurd (by decide) other

end Colons

/-- Every declaration in the tree of a text is split at its first colon, be it the one that tells it
or not. -/
theorem splitting_of_parse (source : String) (n d : Node) (parsed : parse source = .ok n)
    (mem : d ∈ n.preorder) (declaration : d.kind = .declaration) :
  ∃ p c v, d.SplitsInto p c v
  := by
  have proper := (Lexer.stands_ofCursor (.ofString source)).proper_stream
  obtain ⟨ns, rfl, derives⟩ := TokenStream.derives_of_stylesheet parsed
  have mem : d ∈ Node.preorderList ns := by
    refine (List.mem_cons.mp mem).resolve_left ?_
    rintro rfl
    cases declaration
  cases derives.made (Nat.le_refl _) (List.suffix_refl _) .nil d mem with
  | @leaf t mem' =>
    have token := (proper t mem').kind
    rw [show t.kind = .declaration from declaration] at token
    cases token
  | @group _ g =>
    cases g <;> cases declaration
  | statement part read =>
    exact read.splitsInto declaration fun t mem => proper t (part.subset mem)
  | part kind =>
    cases declaration
    exact absurd kind (by decide)

/-- Among arguments a pseudo class with another one behind it is a declaration without a property. -/
theorem splitting_of_parse_arguments :
  ∃ n d, parse "a(:b:c)" = .ok n ∧ d ∈ n.preorder ∧ d.kind = .declaration ∧
    ∃ p c v, d.SplitsInto p c v
  := by
  have found : (parse "a(:b:c)").toOption.any (·.preorder.any (·.kind = .declaration)) = true := by
    decide +kernel
  cases parsed : parse "a(:b:c)" with
  | error => rw [parsed] at found; cases found
  | ok n =>
    rw [parsed] at found
    obtain ⟨d, mem, declaration⟩ := List.any_eq_true.mp found
    have declaration := of_decide_eq_true declaration
    exact ⟨n, d, rfl, mem, declaration, splitting_of_parse _ n d parsed mem declaration⟩

/-- The colon in front is the one at which this declaration is split, and not the other one. -/
theorem not_property_ne_nil :
  ¬∀ source n, parse source = .ok n → ∀ d ∈ n.preorder, d.kind = .declaration →
    ∀ p ∈ d.children, p.kind = .property → p.children ≠ []
  := by
  intro some
  have found : (parse ":a:b").toOption.any (·.preorder.any fun d => d.kind = .declaration &&
      d.children.any fun p => p.kind = .property && p.children = []) = true := by
    decide +kernel
  cases parsed : parse ":a:b" with
  | error => rw [parsed] at found; cases found
  | ok n =>
    rw [parsed] at found
    obtain ⟨d, mem, found⟩ := List.any_eq_true.mp found
    simp only [Bool.and_eq_true, decide_eq_true_eq, List.any_eq_true] at found
    obtain ⟨declaration, p, child, property, empty⟩ := found
    exact some _ n parsed d mem declaration p child property empty

end LosslessScss
