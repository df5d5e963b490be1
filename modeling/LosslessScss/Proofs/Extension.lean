import LosslessScss.Proofs.Balance
import LosslessScss.Proofs.Reading.Append

/-!
# What follows a barrier

The parser looks ahead: one or two tokens in most places, and up to the end of a statement where
it surveys one.  Behind a barrier nothing is seen of all this.  Nor does it make a difference
whether the text ends or a mark follows that closes a group.  So a phrase that leaves tokens of
which the last one is a barrier makes up the same nodes whatever follows these tokens, and one
that leaves the end of a text does so in front of a closing mark (`Derives.extend`).
-/

namespace LosslessScss

namespace Token

variable {t : Token}

theorem bars_of_mark {c : Char} (mark : t.mark? = some c) :
  t.bars = isBarrier c
  := by
  rw [bars, mark]
  rfl

theorem bars_of_noMark (noMark : t.mark? = none) :
  t.bars = false
  := by
  rw [bars, noMark]
  rfl

end Token

/-- A mark that closes a group is no other mark. -/
theorem Token.mark?_ne_of_closes {t : Token} (closes : t.closes = true) {c : Char}
    (noCloser : isCloser c = false) :
  t.mark? ≠ some c
  := by
  intro mark
  rw [Token.closes_eq mark, noCloser] at closes
  cases closes

/-- A token that closes a group is one of punctuation. -/
theorem Token.kind_ne_of_closes {t : Token} (closes : t.closes = true) {k : Kind}
    (other : k ≠ .punctuation) :
  t.kind ≠ k
  := by
  intro kind
  have noMark : t.mark? = none := if_neg fun punctuation => other (kind.symm.trans punctuation)
  rw [Token.closes_of_noMark noMark] at closes
  cases closes

/-! ### Hidden tokens -/

/-- Nothing is seen from the tokens `ts` on of the tokens `w` that follow them: the last one of `ts`
is a barrier; or behind `ts` the text has come to its end, and `w` starts with a mark that closes a
group. -/
inductive Hidden (e : Ending) (w ts : List Token) : Prop where
  | barrier (ends : EndsWith Token.bars ts)
  | closer (reached : e.reach = .ok ()) (closes : w.head?.any Token.closes = true)

namespace Hidden

variable {e : Ending} {w ts us : List Token} {t : Token}

theorem extend (hidden : Hidden e w us) (suffix : us <:+ ts) :
  Hidden e w ts
  := by
  cases hidden with
  | barrier ends => exact .barrier (ends.extend suffix)
  | closer reached closes => exact .closer reached closes

theorem append (hidden : Hidden e w us) (ts : List Token) :
  Hidden e w (ts ++ us)
  := hidden.extend (List.suffix_append ts us)

theorem tail (hidden : Hidden e w (t :: ts)) (noBarrier : t.bars = false) :
  Hidden e w ts
  := by
  cases hidden with
  | barrier ends => exact .barrier (ends.tail noBarrier)
  | closer reached closes => exact .closer reached closes

/-- What is hidden behind no token at all starts with a closing mark. -/
theorem of_nil (hidden : Hidden e w []) :
  e.reach = .ok () ∧ ∃ c vs, w = c :: vs ∧ c.closes = true
  := by
  cases hidden with
  | barrier ends => exact absurd rfl ends.ne_nil
  | closer reached closes =>
    obtain ⟨c, first, closes⟩ := (Option.any_eq_true _ _).mp closes
    obtain ⟨vs, rfl⟩ := List.head?_eq_some_iff.mp first
    exact ⟨reached, c, vs, rfl, closes⟩

/-- Tokens that are hidden are hidden behind white space, which ends before them. -/
theorem dropWhile_space (hidden : Hidden e w ts) :
  (ts ++ w).dropWhile (·.kind = .space) = ts.dropWhile (·.kind = .space) ++ w ∧
    Hidden e w (ts.dropWhile (·.kind = .space))
  := by
  induction ts with
  | nil =>
    obtain ⟨_, c, vs, rfl, closes⟩ := hidden.of_nil
    have noSpace : c.kind ≠ .space := Token.kind_ne_of_closes closes nofun
    refine ⟨?_, hidden⟩
    rw [List.nil_append, List.dropWhile_cons_of_neg (by simpa using noSpace)]
    rfl
  | cons t ts ih =>
    by_cases space : t.kind = .space
    · have noMark : t.mark? = none := if_neg (by simp [space])
      have others := ih (hidden.tail (Token.bars_of_noMark noMark))
      simpa [space] using others
    · simpa [space] using hidden

end Hidden

/-! ### Looking ahead -/

namespace Ending

variable {e : Ending} {ts w : List Token}

theorem atMark_append (hidden : Hidden e w ts) (e' : Ending) {c : Char}
    (noCloser : isCloser c = false) :
  e'.atMark c (ts ++ w) = e.atMark c ts
  := by
  cases ts with
  | cons => rfl
  | nil =>
    obtain ⟨reached, d, vs, rfl, closes⟩ := hidden.of_nil
    have other := Token.mark?_ne_of_closes closes noCloser
    simp only [List.nil_append, atMark, other, decide_false, reached]
    rfl

theorem atInterpolation_append (hidden : Hidden e w ts) (e' : Ending) :
  e'.atInterpolation (ts ++ w) = e.atInterpolation ts
  := by
  cases ts with
  | cons t ts =>
    simp only [List.cons_append, atInterpolation]
    split
    case isTrue hash => exact atMark_append (hidden.tail (Token.bars_of_mark hash)) e' rfl
    case isFalse => rfl
  | nil =>
    obtain ⟨reached, d, vs, rfl, closes⟩ := hidden.of_nil
    have other : d.mark? ≠ some '#' := Token.mark?_ne_of_closes closes rfl
    simp only [List.nil_append, atInterpolation, if_neg other, reached]
    rfl

theorem atName_append (hidden : Hidden e w ts) (e' : Ending) :
  e'.atName (ts ++ w) = e.atName ts
  := by
  have look := atInterpolation_append hidden e'
  cases ts with
  | cons t ts =>
    simp only [List.cons_append, atName] at look ⊢
    rw [look]
  | nil =>
    obtain ⟨reached, d, vs, rfl, closes⟩ := hidden.of_nil
    have noName : d.kind ≠ .identifier := Token.kind_ne_of_closes closes (by decide)
    simp only [List.nil_append, atName, if_neg noName] at look ⊢
    exact look

theorem atCall_append (hidden : Hidden e w ts) (e' : Ending) :
  e'.atCall (ts ++ w) = e.atCall ts
  := by
  cases ts with
  | cons t ts =>
    simp only [List.cons_append, atCall]
    split
    case isTrue name =>
      have noMark := Token.mark?_of_identifier t name
      exact atMark_append (hidden.tail (Token.bars_of_noMark noMark)) e' rfl
    case isFalse => rfl
  | nil =>
    obtain ⟨reached, d, vs, rfl, closes⟩ := hidden.of_nil
    have noName : d.kind ≠ .identifier := Token.kind_ne_of_closes closes (by decide)
    simp only [List.nil_append, atCall, if_neg noName, reached]
    rfl

theorem Lone.append {selector : Bool} {t : Token} (lone : e.Lone selector t ts)
    (hidden : Hidden e w ts) (e' : Ending) :
  e'.Lone selector t (ts ++ w)
  := by
  unfold Lone at lone ⊢
  split at lone
  case h_1 mark => rwa [atMark_append hidden e' rfl, atName_append hidden e']
  case h_2 mark => rwa [atName_append hidden e']
  case h_6 mark =>
    intro selector
    rw [atMark_append hidden e' rfl, atName_append hidden e']
    obtain ⟨double, noName⟩ | single := lone selector
    · left
      obtain ⟨u, us, rfl, colon⟩ := exists_of_atMark double
      have behind := atName_append (hidden.tail (Token.bars_of_mark colon)) e'
      exact ⟨double, behind.trans noName⟩
    · exact .inr single
  all_goals exact lone

theorem NameEnds.append {first : Bool} (nameEnds : e.NameEnds first ts) (hidden : Hidden e w ts)
    (e' : Ending) :
  e'.NameEnds first (ts ++ w)
  := by
  constructor
  · rw [atInterpolation_append hidden e']
    exact nameEnds.1
  · cases ts with
    | cons => exact nameEnds.2
    | nil =>
      obtain ⟨_, d, vs, rfl, closes⟩ := hidden.of_nil
      rintro _ ⟨⟩
      apply Bool.eq_false_iff.mpr
      intro continues
      rw [Token.closes_of_noMark (Level.mark?_of_continuesName continues)] at closes
      cases closes

end Ending

theorem Terminator.append {e : Ending} {marks : List Char} {ts us w : List Token} {ns : List Node}
    (terminator : Terminator e marks ts ns us) (known : marks ⊆ [';', ',']) (hidden : Hidden e w us)
    (e' : Ending) :
  Terminator e' marks (ts ++ w) ns (us ++ w)
  := by
  cases terminator with
  | mark mem mark => exact .mark mem mark
  | none absent =>
    apply Terminator.none
    intro c mem
    have noCloser : isCloser c = false := by
      have mem := known mem
      simp only [List.mem_cons, List.not_mem_nil, or_false] at mem
      obtain rfl | rfl := mem <;> rfl
    rw [Ending.atMark_append hidden e' noCloser]
    exact absent c mem

/-! ### Balanced tokens -/

theorem Group.openedBy?_append {ts : List Token} (t : Token) (some : ts ≠ []) (w : List Token) :
  Group.openedBy? t (ts ++ w) = Group.openedBy? t ts
  := by
  obtain ⟨u, us, rfl⟩ := List.exists_cons_of_ne_nil some
  rfl

/-- What a token opens is not changed by what follows behind others, nor by a closing mark. -/
theorem Token.Passes.append {t : Token} {ts w : List Token} (passes : t.Passes ts)
    (behind : ts ≠ [] ∨ w.head?.any Token.closes = true) :
  t.Passes (ts ++ w)
  := by
  refine ⟨?_, passes.closes⟩
  cases ts with
  | cons => exact passes.opens
  | nil =>
    have closes := behind.resolve_left (absurd rfl)
    obtain ⟨c, first, closes⟩ := (Option.any_eq_true _ _).mp closes
    obtain ⟨vs, rfl⟩ := List.head?_eq_some_iff.mp first
    have opens := passes.opens
    unfold Group.openedBy? at opens ⊢
    split at opens
    case h_4 => exact if_neg (Token.mark?_ne_of_closes closes rfl)
    all_goals exact opens

theorem Token.Passes.cut {t : Token} {ts w : List Token} (passes : t.Passes (ts ++ w)) :
  t.Passes ts
  := by
  refine ⟨?_, passes.closes⟩
  cases ts with
  | cons => exact passes.opens
  | nil =>
    have opens := passes.opens
    unfold Group.openedBy? at opens ⊢
    split at opens
    case h_4 => rfl
    all_goals exact opens

/-- What is left behind the first ones is left in front of others as well. -/
theorem drop_append {ts : List Token} {k : Nat} (some : ts.drop k ≠ []) (w : List Token) :
  (ts ++ w).drop k = ts.drop k ++ w
  := by
  apply List.drop_append_of_le_length
  by_contra long
  exact some (List.drop_of_length_le (by omega))

namespace Balanced

variable {n : Nat} {ts us w : List Token}

theorem suffix (balanced : Balanced n ts us) :
  us <:+ ts
  := by
  induction balanced with
  | refl => exact List.suffix_refl _
  | token _ _ ih => exact ih.trans (List.suffix_cons _ _)
  | group _ _ _ _ ih ih' =>
    have inside := (List.suffix_cons _ _).trans (ih.trans (List.drop_suffix _ _))
    exact ih'.trans (inside.trans (List.suffix_cons _ _))

theorem ne_nil (balanced : Balanced n ts us) (some : us ≠ []) :
  ts ≠ []
  := by
  rintro rfl
  exact some (List.suffix_nil.mp balanced.suffix)

/-- Balanced tokens are balanced in front of others, if some are left or those close a group. -/
theorem append (balanced : Balanced n ts us)
    (behind : us ≠ [] ∨ w.head?.any Token.closes = true) :
  Balanced n (ts ++ w) (us ++ w)
  := by
  induction balanced with
  | refl => exact .refl
  | token passes others ih =>
    exact .token (passes.append (behind.imp_left others.ne_nil)) (ih behind)
  | @group n t ts g c us vs opened inside closing _ ih ih' =>
    have some := inside.ne_nil (List.cons_ne_nil c us)
    have more : ts ≠ [] := by
      rintro rfl
      exact some List.drop_nil
    apply Balanced.group ((Group.openedBy?_append t more w).trans opened) _ closing (ih' behind)
    rw [drop_append some w]
    exact ih (.inl (List.cons_ne_nil c us))

/-- Tokens that are balanced in front of others are so by themselves. -/
theorem cut (balanced : Balanced n (ts ++ w) (us ++ w)) :
  Balanced n ts us
  := by
  generalize whole : ts ++ w = vs, rest : us ++ w = xs at balanced
  induction balanced generalizing ts us with
  | refl =>
    obtain rfl := List.append_cancel_right (whole.trans rest.symm)
    exact .refl
  | @token n t vs xs passes others ih =>
    have shorter := others.suffix.length_le
    subst rest
    cases ts with
    | nil =>
      subst whole
      simp only [List.length_append, List.length_cons] at shorter
      omega
    | cons u ts =>
      rw [List.cons_append, List.cons.injEq] at whole
      obtain ⟨rfl, rfl⟩ := whole
      exact .token passes.cut (ih rfl rfl)
  | @group n t vs g c ys xs opened inside closing others ih ih' =>
    have shorter := inside.suffix.length_le
    obtain ⟨zs, rfl⟩ := others.suffix
    subst rest
    cases ts with
    | nil =>
      subst whole
      simp only [List.length_append, List.length_drop, List.length_cons] at shorter
      omega
    | cons u ts =>
      rw [List.cons_append, List.cons.injEq] at whole
      obtain ⟨rfl, rfl⟩ := whole
      simp only [List.length_append, List.length_drop, List.length_cons] at shorter
      have more : ts ≠ [] := by
        rintro rfl
        simp only [List.length_nil] at shorter
        omega
      rw [Group.openedBy?_append u more] at opened
      have le : g.openerLength - 1 ≤ ts.length := by omega
      have left : c :: (zs ++ us) ++ w = c :: (zs ++ (us ++ w)) := by
        rw [List.cons_append, List.append_assoc]
      have inside' := ih (List.drop_append_of_le_length le).symm left
      exact .group opened inside' closing (ih' (List.append_assoc zs us w) rfl)

end Balanced

/-! ### Surveys -/

/-- Outside of every group a mark that closes one ends a run. -/
theorem endsRun_of_closes {t : Token} (closes : t.closes = true) (scope : Scope) :
  Level.endsRun scope t = true
  := by
  unfold Level.endsRun
  obtain mark | mark | mark := Token.mark?_of_closes closes
  all_goals
    rw [mark]
    rfl

namespace Statement

variable {e : Ending} {scope : Scope} {first : Bool} {colons : Colons} {t c : Token}
  {ts us w : List Token}

theorem openerLength_append (hidden : Hidden e w ts) (e' : Ending) (inside : Bool) (t : Token) :
  openerLength e' inside t (ts ++ w) = openerLength e inside t ts
  := by
  unfold openerLength
  rw [Ending.atMark_append hidden e' rfl]

theorem turn_append (hidden : Hidden e w ts) (e' : Ending) (scope : Scope) (inside first : Bool)
    (colons : Colons) (t : Token) :
  turn e' scope inside first colons t (ts ++ w) = turn e scope inside first colons t ts
  := by
  unfold turn
  rw [Ending.atMark_append hidden e' rfl, Ending.atName_append hidden e']

/-- A token that ends a run settles the form of a statement, whatever follows. -/
theorem plainSurveyFrom_endsRun (stops : Level.endsRun scope c = true) (e e' : Ending)
    (us vs : List Token) :
  plainSurveyFrom e scope 0 first colons (c :: us)
    = plainSurveyFrom e' scope 0 first colons (c :: vs)
  := by
  unfold Level.endsRun at stops
  rw [plainSurveyFrom, plainSurveyFrom, openerLength, openerLength, turn, turn]
  split at stops
  case h_6 mark =>
    simp only [mark, of_decide_eq_true stops]
    rfl
  case h_7 => cases stops
  all_goals
    next mark =>
      simp only [mark]
      rfl

/-- A mark that closes a group settles the form of a statement as the end of the text does. -/
theorem plainSurveyFrom_closer (closes : c.closes = true) (reached : e.reach = .ok ())
    (e' : Ending) (us : List Token) :
  plainSurveyFrom e' scope 0 first colons (c :: us) = plainSurveyFrom e scope 0 first colons []
  := by
  rw [plainSurveyFrom_nil, plainSurveyFrom, openerLength, turn, reached]
  obtain mark | mark | mark := Token.mark?_of_closes closes
  all_goals
    rw [mark]
    rfl

/-- A survey of tokens that are balanced up to one that ends a run, or up to the end, does not look
at what is hidden behind. -/
theorem plainSurveyFrom_append {n : Nat} (balanced : Balanced n ts us)
    (stops : ∀ c ∈ us.head?, Level.endsRun scope c = true) (hidden : Hidden e w us) (e' : Ending)
    (first : Bool) (colons : Colons) :
  plainSurveyFrom e' scope 0 first colons (ts ++ w) = plainSurveyFrom e scope 0 first colons ts
  := by
  induction balanced generalizing first colons with
  | @refl _ ts =>
    cases ts with
    | cons c => exact plainSurveyFrom_endsRun (stops c rfl) e' e _ _
    | nil =>
      obtain ⟨reached, c, vs, rfl, closes⟩ := hidden.of_nil
      exact plainSurveyFrom_closer closes reached e' vs
  | @token n t ts vs passes others ih =>
    have hidden' := hidden.extend others.suffix
    rw [List.cons_append, plainSurveyFrom, plainSurveyFrom, openerLength_append hidden' e',
      turn_append hidden' e']
    cases length : openerLength e (decide (0 < 0)) t ts with
    | error => rfl
    | ok k =>
      obtain rfl : k = 0 := by
        obtain ⟨_, opened, _⟩ | ⟨none, _⟩ := openerLength_eq_ok length
        · rw [passes.opens] at opened
          cases opened
        · exact none
      change (turn e scope (decide (0 < 0)) first colons t ts >>= _) = _
      cases turn e scope (decide (0 < 0)) first colons t ts with
      | error => rfl
      | ok turned =>
        cases turned with
        | settled => rfl
        | closed => exact ih stops hidden false colons
        | passed colons => exact ih stops hidden false colons
  | @group n t ts g d vs xs opened inside closing others ih ih' =>
    have behind := inside.ne_nil (List.cons_ne_nil d vs)
    have more : ts ≠ [] := by
      rintro rfl
      exact behind List.drop_nil
    have opened' := (Group.openedBy?_append t more w).trans opened
    by_cases block : g = .block
    · subst block
      rw [List.cons_append, plainSurveyFrom_block opened, plainSurveyFrom_block opened']
    · have shown : g = .block → 0 < 0 := fun is => absurd is block
      have inside' := inside.append (w := w) (.inl (List.cons_ne_nil d vs))
      rw [← drop_append behind w] at inside'
      rw [List.cons_append,
        plainSurveyFrom_group opened' shown closing first
          (plainSurveyFrom_balanced inside' 0 false),
        plainSurveyFrom_group opened shown closing first (plainSurveyFrom_balanced inside 0 false)]
      exact ih' stops hidden false colons

end Statement

/-! ### Where phrases start and end -/

/-- What stands behind a phrase does not matter: it is hidden from the tokens that the phrase
leaves, or the phrase leaves none and is a group, which ends with a barrier of its own. -/
def Settled (e : Ending) (w : List Token) (p : Phrase) (us : List Token) : Prop :=
  Hidden e w us ∨ us = [] ∧ ∃ g, p = .group g

/-- A mark that closes a group is a barrier. -/
theorem Settled.closer {e : Ending} {w : List Token} {g : Group} {c : Token} {us : List Token}
    (settled : Settled e w (.group g) us) (closing : c.mark? = some g.closer) :
  Hidden e w (c :: us)
  := by
  obtain hidden | ⟨rfl, _⟩ := settled
  · exact hidden.append [c]
  · refine .barrier ⟨[], c, rfl, ?_⟩
    rw [Token.bars_of_mark closing, isBarrier, g.isCloser_closer, Bool.or_true]

section Ends

variable {e : Ending} {n : Nat} {ts us : List Token} {ns : List Node}

/-- What is hidden behind a group is hidden from its tokens. -/
theorem Derives.group_hidden {g : Group} {w : List Token}
    (derives : Derives e n (.group g) ts ns us) (settled : Settled e w (.group g) us) :
  Hidden e w ts
  := by
  cases derives with
  | group _ inside closing =>
    exact ((settled.closer closing).extend inside.suffix).append _

theorem Derives.block_opens (derives : Derives e n (.group .block) ts ns us) :
  ∃ t vs, ts = t :: vs ∧ t.mark? = some '\x7b'
  := by
  obtain ⟨os, vs, rfl, marks⟩ := derives.opens
  obtain ⟨t, rfl, _⟩ := List.map_eq_singleton_iff.mp marks
  exact ⟨t, vs, rfl, marks.head rfl⟩

/-- A block starts with a token that ends a run. -/
theorem Derives.block_stops (derives : Derives e n (.group .block) ts ns us) (scope : Scope) :
  ∀ t ∈ ts.head?, Level.endsRun scope t = true
  := by
  obtain ⟨t, vs, rfl, mark⟩ := derives.block_opens
  rintro _ ⟨⟩
  simp only [Level.endsRun, mark]

/-- What a name makes up is the name itself, or a function call. -/
theorem Derives.call_kind {m : Node} (derives : Derives e n (.call m) ts ns us) :
  ∃ m', ns = [m'] ∧ (m' = m ∨ m'.kind = .functionCall)
  := by
  cases derives with
  | callNone => exact ⟨m, rfl, .inl rfl⟩
  | callArguments => exact ⟨_, rfl, .inr rfl⟩

theorem Derives.group_kind {g : Group} (derives : Derives e n (.group g) ts ns us) :
  ∃ m, ns = [m] ∧ m.kind = g.kind
  := by
  cases derives with
  | group => exact ⟨_, rfl, rfl⟩

/-- The kinds of the atoms that are neither tokens nor blocks.  Pseudo classes and pseudo elements
are atoms of a selector only. -/
def Kind.atoms (selector : Bool) : List Kind :=
  [parentheses, brackets, interpolation, functionCall, className, idName]
    ++ if selector then [pseudoClass, pseudoElement] else []

/-- An atom is its only token, or a block, or a node of another kind. -/
theorem Derives.atom_kind {selector : Bool} {t : Token}
    (derives : Derives e n (.atom selector) (t :: ts) ns us) :
  ∃ m, ns = [m] ∧ (m = .leaf t ∨ Derives e n (.group .block) (t :: ts) [m] us ∨
    m.kind ∈ Kind.atoms selector)
  := by
  generalize tokens : t :: ts = vs at derives ⊢
  cases derives with
  | atomToken =>
    cases tokens
    exact ⟨_, rfl, .inl rfl⟩
  | atomName _ call =>
    cases tokens
    obtain ⟨m, same, rfl | kind⟩ := call.call_kind
    · exact ⟨_, same, .inl rfl⟩
    · exact ⟨_, same, .inr (.inr (by simp [kind, Kind.atoms]))⟩
  | atomGroup which group =>
    obtain ⟨_, ⟨⟩, kind⟩ := group.group_kind
    refine ⟨_, rfl, .inr ?_⟩
    obtain rfl | rfl | rfl := which
    · exact .inr (by simp [kind, Group.kind, Kind.atoms])
    · exact .inr (by simp [kind, Group.kind, Kind.atoms])
    · exact .inl group
  | atomInterpolation interpolation call =>
    obtain ⟨_, ⟨⟩, kind⟩ := interpolation.group_kind
    obtain ⟨m, same, rfl | kind'⟩ := call.call_kind
    · exact ⟨_, same, .inr (.inr (by simp [kind, Group.kind, Kind.atoms]))⟩
    · exact ⟨_, same, .inr (.inr (by simp [kind', Kind.atoms]))⟩
  | atomCompound which =>
    refine ⟨_, rfl, .inr (.inr ?_)⟩
    obtain rfl | rfl := which <;> simp [Node.kind, Kind.atoms]
  | atomPseudo which =>
    refine ⟨_, rfl, .inr (.inr ?_)⟩
    obtain rfl | rfl := which <;> simp [Node.kind, Kind.atoms]

/-- An atom whose node is a block is a block. -/
theorem Derives.block_of_atom {selector : Bool} {t : Token} {m : Node}
    (derives : Derives e n (.atom selector) (t :: ts) [m] us) (block : m.kind = .block)
    (proper : t.Proper) :
  Derives e n (.group .block) (t :: ts) [m] us
  := by
  obtain ⟨_, ⟨⟩, rfl | group | kind⟩ := derives.atom_kind
  · have token := proper.kind
    rw [show t.kind = .block from block] at token
    cases token
  · exact group
  · rw [block] at kind
    cases selector <;> exact absurd kind (by decide)

/-- A loop ends before a token that ends it, if any follows. -/
theorem Derives.atoms_stop {loop : Loop} (derives : Derives e n (.atoms loop) ts ns us) :
  ∀ t ∈ us.head?, loop.stops t = true
  := by
  obtain ⟨t, vs, rfl, stops⟩ | ⟨rfl, _⟩ := derives.atoms_end
  · rintro _ ⟨⟩
    exact stops
  · exact nofun

end Ends

/-! ### Phrases -/

section Surveys

variable {e : Ending} {n : Nat} {scope : Scope} {form : Form} {ts us vs ws w : List Token}
  {ps ms ns : List Node} {c : Token}

theorem survey_append (survey : Statement.plainSurvey e scope ts = .ok form)
    (balanced : Balanced n ts us) (stops : ∀ c ∈ us.head?, Level.endsRun scope c = true)
    (hidden : Hidden e w us) (e' : Ending) :
  Statement.plainSurvey e' scope (ts ++ w) = .ok form
  := by
  rw [← survey]
  exact Statement.plainSurveyFrom_append balanced stops hidden e' true ⟨false, false⟩

/-- The survey of a rule does not look behind the block. -/
theorem survey_append_rule (survey : Statement.plainSurvey e scope ts = .ok form)
    (selector : Derives e n (.atoms .selector) ts ms us)
    (block : Derives e n (.group .block) us ns vs) (settled : Settled e w (.group .block) vs)
    (e' : Ending) :
  Statement.plainSurvey e' scope (ts ++ w) = .ok form
  := by
  have stops := block.block_stops scope
  exact survey_append survey selector.balanced stops (block.group_hidden settled) e'

/-- The survey of a declaration does not look behind the token that ends the value. -/
theorem survey_append_declaration {selector : Bool}
    (survey : Statement.plainSurvey e scope ts = .ok form)
    (property : Derives e n (.atoms .property) ts ps (c :: us))
    (value : Derives e n (.atoms (.run scope selector)) us ms vs) (hidden : Hidden e w vs)
    (e' : Ending) :
  Statement.plainSurvey e' scope (ts ++ w) = .ok form
  := by
  have passes : c.Passes us := .of_mark property.property_end rfl (by decide) nofun
  have balanced := property.balanced.trans (.token passes value.balanced)
  exact survey_append survey balanced value.atoms_stop hidden e'

end Surveys

/-- A phrase makes up the same nodes whatever is hidden behind it. -/
theorem Derives.extend {e : Ending} {n : Nat} {p : Phrase} {ts us w : List Token} {ns : List Node}
    (derives : Derives e n p ts ns us) (proper : ∀ t ∈ ts, t.Proper)
    (inside : p ≠ .sequence .top) (settled : Settled e w p us) (e' : Ending) :
  Derives e' n p (ts ++ w) ns (us ++ w)
  := by
  have behind {t : Token} {ts : List Token} (proper : ∀ u ∈ t :: ts, u.Proper) :
      ∀ u ∈ ts, u.Proper := fun u mem => proper u (List.mem_cons_of_mem t mem)
  have hides {p : Phrase} {us : List Token} (settled : Settled e w p us)
      (noGroup : ∀ g, p ≠ .group g) : Hidden e w us :=
    settled.resolve_right fun ⟨_, g, is⟩ => noGroup g is
  induction derives with
  | @group n g o os ts ns c us opening _ closing ih =>
    rw [List.append_assoc]
    have proper' := fun t mem => proper t (List.mem_append_right _ mem)
    exact .group opening (ih proper' nofun (.inl (settled.closer closing))) closing
  | callNone absent =>
    apply Derives.callNone
    rwa [Ending.atMark_append (hides settled nofun) e' rfl]
  | callArguments _ ih => exact .callArguments (ih proper nofun (.inl (hides settled nofun)))
  | segmentToken continues => exact .segmentToken continues
  | segmentInterpolation _ ih =>
    exact .segmentInterpolation (ih proper nofun (.inl (hides settled nofun)))
  | segmentsEnd nameEnds => exact .segmentsEnd (nameEnds.append (hides settled nofun) e')
  | segmentsCons one others ih ih' =>
    have hidden := hides settled nofun
    exact .segmentsCons (ih proper nofun (.inl (hidden.extend others.suffix)))
      (ih' (one.forall_rest proper) nofun (.inl hidden))
  | targetName name => exact .targetName name
  | targetInterpolation _ ih =>
    exact .targetInterpolation (ih proper nofun (.inl (hides settled nofun)))
  | atomToken noName lone => exact .atomToken noName (lone.append (hides settled nofun) e')
  | atomName name _ ih =>
    exact .atomName name (ih (behind proper) nofun (.inl (hides settled nofun)))
  | atomGroup kind _ ih => exact .atomGroup kind (ih proper nofun (.inl (hides settled nofun)))
  | atomInterpolation first call ih ih' =>
    have hidden := hides settled nofun
    exact .atomInterpolation (ih proper nofun (.inl (hidden.extend call.suffix)))
      (ih' (first.forall_rest proper) nofun (.inl hidden))
  | atomCompound which sigil noGroup named segments ih =>
    have hidden := hides settled nofun
    have hidden' := hidden.extend segments.suffix
    rw [List.cons_append]
    refine .atomCompound which sigil ?_ ?_ (ih (behind proper) nofun (.inl hidden))
    · rwa [Ending.atMark_append hidden' e' rfl]
    · rwa [Ending.atName_append hidden' e']
  | atomPseudo which colons named target call ih ih' =>
    have hidden := hides settled nofun
    have hidden' := hidden.extend call.suffix
    have proper' := fun t mem => proper t (List.mem_append_right _ mem)
    rw [List.append_assoc]
    refine .atomPseudo which colons ?_ (ih proper' nofun (.inl hidden'))
      (ih' (target.forall_rest proper') nofun (.inl hidden))
    rwa [Ending.atName_append (hidden'.extend target.suffix) e']
  | atomsStop stops => exact .atomsStop stops
  | @atomsEnd n loop mayEnd reached =>
    obtain ⟨_, c, vs, rfl, closes⟩ := (hides settled nofun).of_nil
    cases loop with
    | run scope selector => exact .atomsStop (endsRun_of_closes closes scope)
    | selector | property => cases mayEnd
  | atomsCons goesOn first others ih ih' =>
    have hidden := hides settled nofun
    exact .atomsCons goesOn (ih proper nofun (.inl (hidden.extend others.suffix)))
      (ih' (first.forall_rest proper) nofun (.inl hidden))
  | headNone absent =>
    have hidden := hides settled nofun
    apply Derives.headNone
    rw [hidden.dropWhile_space.1, Ending.atCall_append hidden.dropWhile_space.2 e']
    exact absent
  | headCall blank name _ ih =>
    rw [List.append_assoc]
    have proper' := behind fun t mem => proper t (List.mem_append_right _ mem)
    exact .headCall blank name (ih proper' nofun (.inl (hides settled nofun)))
  | statementToken alone => exact .statementToken alone
  | atRuleBlock keyword head prelude block ih ih' ih'' =>
    have hidden := hides settled nofun
    have hidden' := block.group_hidden (.inl hidden)
    have proper' := head.forall_rest (behind proper)
    exact .atRuleBlock keyword (ih (behind proper) nofun (.inl (hidden'.extend prelude.suffix)))
      (ih' proper' nofun (.inl hidden'))
      (ih'' (prelude.forall_rest proper') nofun (.inl hidden))
  | atRule keyword head prelude noBlock final ih ih' =>
    have hidden := hides settled nofun
    have hidden' := hidden.extend final.suffix
    refine .atRule keyword (ih (behind proper) nofun (.inl (hidden'.extend prelude.suffix)))
      (ih' (head.forall_rest (behind proper)) nofun (.inl hidden')) ?_
      (final.append (by simp) hidden e')
    rwa [Ending.atMark_append hidden' e' rfl]
  | rule start survey selector block ih ih' =>
    have hidden := hides settled nofun
    exact .rule start (survey_append_rule survey selector block (.inl hidden) e')
      (ih proper nofun (.inl (block.group_hidden (.inl hidden))))
      (ih' (selector.forall_rest proper) nofun (.inl hidden))
  | declarationBlock start survey property value block final ih ih' ih'' =>
    have hidden := hides settled nofun
    have hidden' := hidden.extend final.suffix
    have hidden'' := block.group_hidden (.inl hidden')
    have proper' := behind (property.forall_rest proper)
    exact .declarationBlock start (survey_append_declaration survey property value hidden'' e')
      (ih proper nofun (.inl ((hidden''.extend value.suffix).append [_])))
      (ih' proper' nofun (.inl hidden'')) (ih'' (value.forall_rest proper') nofun (.inl hidden'))
      (final.append (by simp) hidden e')
  | declaration start survey property value noBlock final ih ih' =>
    have hidden := hides settled nofun
    have hidden' := hidden.extend final.suffix
    refine .declaration start (survey_append_declaration survey property value hidden' e')
      (ih proper nofun (.inl ((hidden'.extend value.suffix).append [_])))
      (ih' (behind (property.forall_rest proper)) nofun (.inl hidden')) ?_
      (final.append (Scope.terminators_subset _) hidden e')
    rwa [Ending.atMark_append hidden' e' rfl]
  | looseBlock start survey first block ih =>
    have hidden := hides settled nofun
    have stops := (first.block_of_atom block (proper _ List.mem_cons_self)).block_stops
    have survey := survey_append survey (n := 0) .refl (stops _) (hidden.extend first.suffix) e'
    exact .looseBlock start survey (ih proper nofun (.inl hidden)) block
  | loose start survey first noBlock others ih ih' =>
    have hidden := hides settled nofun
    have balanced := first.balanced.trans others.balanced
    exact .loose start (survey_append survey balanced others.atoms_stop hidden e')
      (ih proper nofun (.inl (hidden.extend others.suffix))) noBlock
      (ih' (first.forall_rest proper) nofun (.inl hidden))
  | sequenceEnd => exact absurd rfl inside
  | sequenceCloser closer mark => exact .sequenceCloser closer mark
  | sequenceCons goesOn first others ih ih' =>
    have hidden := hides settled nofun
    rw [List.cons_append] at ih ⊢
    exact .sequenceCons goesOn (ih proper nofun (.inl (hidden.extend others.suffix)))
      (ih' (first.forall_rest proper) inside (.inl hidden))

end LosslessScss
