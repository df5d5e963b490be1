import LosslessScss.Proofs.Balance
import LosslessScss.Proofs.Reading

/-!
# Where nodes come from

Every node among those that a phrase makes up, however deep it lies in them, is a token, or has been
read as a group, as a statement or as a part of one (`Derives.made`).  So what is known of how a
group or a statement is read is known of all nodes of their kinds in a tree.
-/

namespace LosslessScss

/-! ### Nodes and their descendants -/

namespace Node

/-- The nodes `ns` and their descendants satisfy `P`. -/
def Every (P : Node → Prop) (ns : List Node) : Prop := ∀ m ∈ preorderList ns, P m

namespace Every

variable {P : Node → Prop} {ms ns : List Node} {k : Kind} {p q : Position}

theorem nil :
  Every P []
  := nofun

theorem append (first : Every P ms) (second : Every P ns) :
  Every P (ms ++ ns)
  := by
  intro m mem
  rw [preorderList_append] at mem
  exact (List.mem_append.mp mem).elim (first m) (second m)

theorem leaf {t : Token} (own : P (.leaf t)) :
  Every P [.leaf t]
  := by
  intro m mem
  obtain rfl : m = .leaf t := by simpa [preorderList, preorder] using mem
  exact own

theorem leaves {ts : List Token} (own : ∀ t ∈ ts, P (.leaf t)) :
  Every P (ts.map .leaf)
  := by
  induction ts with
  | nil => exact nil
  | cons t ts ih =>
    obtain ⟨first, others⟩ := List.forall_mem_cons.mp own
    exact append (leaf first) (ih others)

theorem branch (own : P (.branch k ns p q)) (inside : Every P ns) :
  Every P [.branch k ns p q]
  := by
  intro m mem
  simp only [preorderList, preorder, List.append_nil] at mem
  obtain rfl | mem := List.mem_cons.mp mem
  · exact own
  · exact inside m mem

end Every

end Node

/-! ### Origins -/

/-- The kinds of nodes that are parts of statements and no groups. -/
def Kind.parts : List Kind :=
  [functionCall, className, idName, pseudoClass, pseudoElement, selector, property, value]

/-- A node is made of the tokens `ts`: it is one of them, or a group or a statement that has been
read somewhere in them, or a part of a statement. -/
inductive Node.Made (e : Ending) (ts : List Token) : Node → Prop where
  | leaf {t} (mem : t ∈ ts) : Made e ts (.leaf t)
  | group {n g o us ns c vs p q} (deep : n < maxNesting) (part : us <:+ ts)
      (inside : Derives e n (.sequence (.inside g o)) us ns (c :: vs)) :
      Made e ts (.branch g.kind ns p q)
  | statement {n scope us k ns p q vs} (part : us <:+ ts)
      (read : Derives e n (.statement scope) us [.branch k ns p q] vs)
      (kind : k ∈ [.rule, .declaration, .atRule]) : Made e ts (.branch k ns p q)
  | part {k ns p q} (kind : k ∈ Kind.parts) : Made e ts (.branch k ns p q)

/-- The nodes that a phrase is given: the caller of a call. -/
def Phrase.given : Phrase → List Node
  | call caller => [caller]
  | _ => []

theorem Terminator.made {e : Ending} {marks : List Char} {ts us ws : List Token}
    {ns : List Node} (terminator : Terminator e marks ts ns us) (part : ts <:+ ws) :
  Node.Every (Node.Made e ws) ns
  := by
  cases terminator with
  | mark => exact .leaf (.leaf (part.subset List.mem_cons_self))
  | none => exact .nil

/-- Every node that a phrase makes up is made of the tokens, if those are that the phrase is
given. -/
theorem Derives.made {e : Ending} {n : Nat} {p : Phrase} {ts us ws : List Token}
    {ns : List Node} (derives : Derives e n p ts ns us) (deep : n ≤ maxNesting) (part : ts <:+ ws)
    (given : Node.Every (Node.Made e ws) p.given) :
  Node.Every (Node.Made e ws) ns
  := by
  have none : Node.Every (Node.Made e ws) [] := .nil
  have first {t : Token} {ts : List Token} (part : t :: ts <:+ ws) :
      Node.Every (Node.Made e ws) [.leaf t] := .leaf (.leaf (part.subset List.mem_cons_self))
  have behind {t : Token} {ts : List Token} (part : t :: ts <:+ ws) : ts <:+ ws :=
    (List.suffix_cons t ts).trans part
  have ofPart (k : Kind) (kind : k ∈ Kind.parts) {ns : List Node}
      (inside : Node.Every (Node.Made e ws) ns) (p : Position) :
      Node.Every (Node.Made e ws) [.spanning k ns p] := .branch (.part kind) inside
  have declared {c : Token} {ps vs fs : List Node} (property : Node.Every (Node.Made e ws) ps)
      (colon : Node.Every (Node.Made e ws) [.leaf c]) (value : Node.Every (Node.Made e ws) vs)
      (final : Node.Every (Node.Made e ws) fs) (p q : Position) :
      Node.Every (Node.Made e ws)
        ([.spanning .property ps p, .leaf c, .spanning .value vs q] ++ fs) :=
    ((ofPart .property (by decide) property p).append
      (colon.append (ofPart .value (by decide) value q))).append final
  induction derives with
  | group _ inside _ ih =>
    have part := (List.suffix_append _ _).trans part
    exact .branch (.group deep part inside) (ih (Nat.le_of_succ_le deep) part none)
  | callNone => exact given
  | callArguments _ ih => exact ofPart .functionCall (by decide) (given.append (ih deep part none)) _
  | segmentToken | targetName | atomToken | statementToken => exact first part
  | segmentInterpolation _ ih | targetInterpolation _ ih | atomGroup _ _ ih
  | looseBlock _ _ _ _ ih => exact ih deep part none
  | segmentsEnd | atomsStop | atomsEnd | headNone | sequenceEnd | sequenceCloser => exact none
  | segmentsCons one _ ih ih' | atomsCons _ one _ ih ih' | loose _ _ one _ _ ih ih'
  | sequenceCons _ one _ ih ih' =>
    exact (ih deep part none).append (ih' deep (one.suffix.trans part) none)
  | atomName _ _ ih => exact ih deep (behind part) (first part)
  | atomInterpolation one _ ih ih' => exact ih' deep (one.suffix.trans part) (ih deep part none)
  | atomCompound which _ _ _ _ ih =>
    refine .branch (.part ?_) (ih deep (behind part) none)
    obtain rfl | rfl := which
    all_goals decide
  | atomPseudo which _ _ target _ ih ih' =>
    have part := (List.suffix_append _ _).trans part
    refine .branch (.part ?_) (ih' deep (target.suffix.trans part) (ih deep part none))
    obtain rfl | rfl := which
    all_goals decide
  | @headCall _ blanks t ts a _ blank name arguments ih =>
    have part' := (List.suffix_append blanks (t :: ts)).trans part
    have blanks' : Node.Every (Node.Made e ws) (blanks.map .leaf) :=
      .leaves fun b mem => .leaf (part.subset (List.mem_append_left _ mem))
    exact blanks'.append ((first part').append (ih deep (behind part') none))
  | atRuleBlock keyword head prelude block ih ih' ih'' =>
    have part' := head.suffix.trans (behind part)
    have parts := ((ih deep (behind part) none).append (ih' deep part' none)).append
      (ih'' deep (prelude.suffix.trans part') none)
    exact .branch (.statement part (.atRuleBlock keyword head prelude block) (by decide))
      ((first part).append parts)
  | atRule keyword head prelude noBlock final ih ih' =>
    have part' := head.suffix.trans (behind part)
    have parts := ((ih deep (behind part) none).append (ih' deep part' none)).append
      (final.made (prelude.suffix.trans part'))
    exact .branch (.statement part (.atRule keyword head prelude noBlock final) (by decide))
      ((first part).append parts)
  | rule start survey selector block ih ih' =>
    have block' := ih' deep (selector.suffix.trans part) none
    exact .branch (.statement part (.rule start survey selector block) (by decide))
      ((ofPart .selector (by decide) (ih deep part none) _).append block')
  | declarationBlock start survey property value block final ih ih' ih'' =>
    have colon := property.suffix.trans part
    have part' := value.suffix.trans (behind colon)
    have value' := (ih' deep (behind colon) none).append (ih'' deep part' none)
    exact .branch
      (.statement part (.declarationBlock start survey property value block final) (by decide))
      (declared (ih deep part none) (first colon) value' (final.made (block.suffix.trans part')) _ _)
  | declaration start survey property value noBlock final ih ih' =>
    have colon := property.suffix.trans part
    have part' := value.suffix.trans (behind colon)
    exact .branch
      (.statement part (.declaration start survey property value noBlock final) (by decide))
      (declared (ih deep part none) (first colon) (ih' deep (behind colon) none)
        (final.made part') _ _)

end LosslessScss
