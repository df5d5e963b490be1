import LosslessScss.Proofs.Grammar.Soundness
import LosslessScss.Proofs.Nesting

/-!
# Balance

`Balanced n ts us` says that whole tokens and whole groups lie between the tokens `ts` and
`us`, with groups nested at most `n` deep.  The tokens that a phrase takes are balanced
(`Derives.balanced`); a survey inside of a group goes through them without a change, and so
does `walk`, which looks at the brackets of a text alone and finds the first one that is
wrong.  `openBehind` is a walk as far as the given tokens go, and tells the groups that are
open behind them.
-/

namespace LosslessScss

/-! ### Tokens that pass -/

/-- A token that neither opens nor closes a group. -/
structure Token.Passes (t : Token) (ts : List Token) : Prop where
  opens : Group.openedBy? t ts = none
  closes : t.closes = false

namespace Token.Passes

variable {t : Token} {ts : List Token}

theorem of_noMark (noMark : t.mark? = none) :
  t.Passes ts
  := by
  constructor
  · rw [Group.openedBy?, noMark]
  · exact Token.closes_of_noMark noMark

/-- A token of another kind than punctuation passes. -/
theorem of_kind (kind : t.kind ≠ .punctuation) :
  t.Passes ts
  := of_noMark (if_neg kind)

/-- A mark passes that is no bracket, and no `#` before a curly bracket. -/
theorem of_mark {c : Char} (mark : t.mark? = some c) (noCloser : isCloser c = false)
    (noOpener : c ∉ ['(', '[', '{'])
    (noGroup : c = '#' → ts.head?.bind Token.mark? ≠ some '{') :
  t.Passes ts
  := by
  constructor
  · unfold Group.openedBy?
    rw [mark]
    split
    case h_4 same => exact if_neg (noGroup (Option.some.inj same))
    all_goals simp_all
  · exact (Token.closes_eq mark).trans noCloser

end Token.Passes

/-- What is seen not to be a mark is not one. -/
theorem Ending.head_of_atMark {e : Ending} {c : Char} {ts : List Token}
    (absent : e.atMark c ts = .ok false) :
  ts.head?.bind Token.mark? ≠ some c
  := by
  cases ts with
  | nil => exact nofun
  | cons t ts => exact of_decide_eq_false (Except.ok.inj absent)

/-! ### Balanced tokens -/

/-- Whole tokens and whole groups lie between two lists of tokens, groups nested at most `n`
deep. -/
inductive Balanced : Nat → List Token → List Token → Prop where
  | refl {n ts} : Balanced n ts ts
  | token {n t ts us} (passes : t.Passes ts) (others : Balanced n ts us) : Balanced n (t :: ts) us
  | group {n t ts g c us vs} (opened : Group.openedBy? t ts = some g)
      (inside : Balanced n (ts.drop (g.openerLength - 1)) (c :: us))
      (closing : c.mark? = some g.closer) (others : Balanced (n + 1) us vs) :
      Balanced (n + 1) (t :: ts) vs

namespace Balanced

variable {n : Nat} {ts us vs : List Token}

theorem trans (first : Balanced n ts us) (second : Balanced n us vs) :
  Balanced n ts vs
  := by
  induction first with
  | refl => exact second
  | token passes _ ih => exact .token passes (ih second)
  | group opened inside closing _ _ ih => exact .group opened inside closing (ih second)

theorem mono (balanced : Balanced n ts us) {m : Nat} (more : n ≤ m) :
  Balanced m ts us
  := by
  induction balanced generalizing m with
  | refl => exact .refl
  | token passes _ ih => exact .token passes (ih more)
  | group opened _ closing _ ih ih' =>
    obtain ⟨k, rfl⟩ := Nat.exists_eq_succ_of_ne_zero (Nat.ne_zero_of_lt more)
    exact .group opened (ih (Nat.le_of_succ_le_succ more)) closing (ih' more)

end Balanced

/-- The marks in front of a group open a group with the same closing mark. -/
theorem Marks.openedBy? {g : Group} {o : Token} {os : List Token}
    (opening : Marks (o :: os) g.kind.opening) (ts : List Token) :
  ∃ g', Group.openedBy? o (os ++ ts) = some g' ∧ g'.closer = g.closer ∧
    (os ++ ts).drop (g'.openerLength - 1) = ts ∧ (g' = .block → g = .block)
  := by
  cases g with
  | interpolation =>
    have hash : o.mark? = some '#' := opening.head rfl
    obtain ⟨u, us, rfl, mark, rest⟩ := List.map_eq_cons_iff.mp (List.cons.inj opening).2
    have mark : u.mark? = some '\x7b' := mark
    obtain rfl := List.map_eq_nil_iff.mp rest
    refine ⟨.interpolation, ?_, rfl, rfl, by simp⟩
    rw [Group.openedBy?, hash]
    exact if_pos mark
  | arguments | parentheses =>
    have mark : o.mark? = some '(' := opening.head rfl
    obtain rfl : os = [] := List.map_eq_nil_iff.mp (List.cons.inj opening).2
    refine ⟨.parentheses, ?_, rfl, rfl, by simp⟩
    rw [Group.openedBy?, mark]
    rfl
  | brackets =>
    have mark : o.mark? = some '[' := opening.head rfl
    obtain rfl : os = [] := List.map_eq_nil_iff.mp (List.cons.inj opening).2
    refine ⟨.brackets, ?_, rfl, rfl, by simp⟩
    rw [Group.openedBy?, mark]
    rfl
  | block =>
    have mark : o.mark? = some '\x7b' := opening.head rfl
    obtain rfl : os = [] := List.map_eq_nil_iff.mp (List.cons.inj opening).2
    refine ⟨.block, ?_, rfl, rfl, fun _ => rfl⟩
    rw [Group.openedBy?, mark]
    rfl

/-- A token by itself passes. -/
theorem Ending.Lone.passes {e : Ending} {selector : Bool} {t : Token} {ts : List Token}
    (lone : e.Lone selector t ts) :
  t.Passes ts
  := by
  unfold Lone at lone
  split at lone
  case h_1 mark => exact .of_mark mark rfl (by decide) fun _ => head_of_atMark lone.1
  case h_2 mark => exact .of_mark mark rfl (by decide) nofun
  case h_3 => exact lone.elim
  case h_4 => exact lone.elim
  case h_5 => exact lone.elim
  case h_6 mark => exact .of_mark mark rfl (by decide) nofun
  case h_7 mark =>
    apply Token.Passes.of_mark mark lone
    · simp_all
    · simp_all
  case h_8 mark => exact .of_noMark mark

theorem Terminator.balanced {e : Ending} {marks : List Char} {ts us : List Token} {ns : List Node}
    (terminator : Terminator e marks ts ns us) (known : marks ⊆ [';', ',']) (n : Nat) :
  Balanced n ts us
  := by
  cases terminator with
  | none => exact .refl
  | mark mem mark =>
    apply Balanced.token _ .refl
    have mem := known mem
    simp only [List.mem_cons, List.not_mem_nil, or_false] at mem
    obtain rfl | rfl := mem
    · exact .of_mark mark rfl (by decide) nofun
    · exact .of_mark mark rfl (by decide) nofun

theorem Scope.terminators_subset (scope : Scope) :
  scope.terminators ⊆ [';', ',']
  := by
  cases scope <;> simp [terminators]

/-- A token that is a statement by itself passes. -/
theorem passes_of_standsAlone {scope : Scope} {t : Token} {ts : List Token}
    (alone : Level.standsAlone scope t = true) :
  t.Passes ts
  := by
  by_cases kind : t.kind = .punctuation
  · have marked : t.mark? = some ';' ∨ t.mark? = some ',' := by
      simp only [Level.standsAlone, kind, Kind.isTrivia, Bool.false_or, Bool.or_eq_true,
        decide_eq_true_eq, Bool.and_eq_true] at alone
      exact alone.imp id And.right
    obtain mark | mark := marked
    · exact .of_mark mark rfl (by decide) nofun
    · exact .of_mark mark rfl (by decide) nofun
  · exact .of_kind kind

/-- The mark in front of the name of a class or an id passes. -/
theorem passes_of_sigil {e : Ending} {kind : Kind} (which : kind = .className ∨ kind = .idName)
    {t : Token} {ts : List Token} (sigil : Marks [t] kind.opening)
    (noGroup : kind = .idName → e.atMark '\x7b' ts = .ok false) :
  t.Passes ts ∧ t.mark? ≠ some ':'
  := by
  obtain rfl | rfl := which
  · have mark : t.mark? = some '.' := sigil.head rfl
    refine ⟨.of_mark mark rfl (by decide) nofun, ?_⟩
    rw [mark]
    decide
  · have mark : t.mark? = some '#' := sigil.head rfl
    refine ⟨.of_mark mark rfl (by decide) fun _ => Ending.head_of_atMark (noGroup rfl), ?_⟩
    rw [mark]
    decide

/-- The colons in front of a pseudo class or a pseudo element are balanced. -/
theorem balanced_of_colons {kind : Kind} (which : kind = .pseudoClass ∨ kind = .pseudoElement)
    {c : Token} {cs : List Token} (colons : Marks (c :: cs) kind.opening) (n : Nat)
    (ts : List Token) :
  Balanced n (c :: cs ++ ts) ts
  := by
  have pass {t : Token} {ts : List Token} (mark : t.mark? = some ':') : t.Passes ts :=
    .of_mark mark rfl (by decide) nofun
  obtain rfl | rfl := which
  · obtain rfl : cs = [] := List.map_eq_nil_iff.mp (List.cons.inj colons).2
    exact .token (pass (colons.head rfl)) .refl
  · obtain ⟨d, rfl, mark⟩ := List.map_eq_singleton_iff.mp (List.cons.inj colons).2
    exact .token (pass (colons.head rfl)) (.token (pass mark) .refl)

/-- White space is balanced. -/
theorem balanced_of_blanks {blanks : List Token} (blank : ∀ b ∈ blanks, b.kind = .space) (n : Nat)
    (ts : List Token) :
  Balanced n (blanks ++ ts) ts
  := by
  induction blanks with
  | nil => exact .refl
  | cons b blanks ih =>
    have kind := blank b List.mem_cons_self
    exact .token (.of_kind (by simp [kind])) (ih fun c mem => blank c (List.mem_cons_of_mem b mem))

/-- The tokens that a phrase takes are balanced. -/
theorem Derives.balanced {e : Ending} {n : Nat} {p : Phrase} {ts us : List Token} {ns : List Node}
    (derives : Derives e n p ts ns us) :
  Balanced n ts us
  := by
  induction derives with
  | @group n g o os ts ns c us opening _ closing ih =>
    obtain ⟨g', opened, closer, behind, _⟩ := opening.openedBy? ts
    exact .group opened (behind.symm ▸ ih) (closer ▸ closing) .refl
  | callNone | segmentsEnd | atomsStop | atomsEnd | headNone | sequenceEnd | sequenceCloser =>
    exact .refl
  | callArguments _ ih | segmentInterpolation _ ih | targetInterpolation _ ih | atomGroup _ _ ih
  | looseBlock _ _ _ _ ih => exact ih
  | segmentToken continues =>
    exact .token (.of_noMark (Level.mark?_of_continuesName continues)) .refl
  | targetName name => exact .token (.of_kind (by simp [name])) .refl
  | atomToken _ lone => exact .token lone.passes .refl
  | atomName name _ ih => exact .token (.of_kind (by simp [name])) ih
  | segmentsCons _ _ ih ih' | atomInterpolation _ _ ih ih' | atomsCons _ _ _ ih ih'
  | sequenceCons _ _ _ ih ih' | loose _ _ _ _ _ ih ih' | rule _ _ _ _ ih ih' => exact ih.trans ih'
  | atomCompound which sigil noGroup _ _ ih =>
    exact .token (passes_of_sigil which sigil noGroup).1 ih
  | atomPseudo which colons _ _ _ ih ih' =>
    exact (balanced_of_colons which colons _ _).trans (ih.trans ih')
  | headCall blank name _ ih =>
    exact (balanced_of_blanks blank _ _).trans (.token (.of_kind (by simp [name])) ih)
  | statementToken alone => exact .token (passes_of_standsAlone alone) .refl
  | atRuleBlock keyword _ _ _ ih ih' ih'' =>
    exact .token (.of_kind (by simp [keyword])) (ih.trans (ih'.trans ih''))
  | atRule keyword _ _ _ final ih ih' =>
    exact .token (.of_kind (by simp [keyword])) (ih.trans (ih'.trans (final.balanced (by simp) _)))
  | declarationBlock _ _ property _ _ final ih ih' ih'' =>
    have colon := property.property_end
    have value := ih'.trans (ih''.trans (final.balanced (by simp) _))
    exact ih.trans (.token (.of_mark colon rfl (by decide) nofun) value)
  | declaration _ _ property _ _ final ih ih' =>
    have colon := property.property_end
    have value := ih'.trans (final.balanced (Scope.terminators_subset _) _)
    exact ih.trans (.token (.of_mark colon rfl (by decide) nofun) value)

/-! ### Surveys of balanced tokens -/

namespace Statement

variable {e : Ending} {scope : Scope} {colons : Colons} {ts us : List Token}

/-- Inside of a group it makes no difference to a survey whether it has just begun. -/
theorem plainSurveyFrom_first (depth : Nat) (first : Bool) :
  plainSurveyFrom e scope (depth + 1) first colons ts
    = plainSurveyFrom e scope (depth + 1) false colons ts
  := by
  cases ts with
  | nil => simp only [plainSurveyFrom_nil]
  | cons t ts =>
    cases opened : Group.openedBy? t ts with
    | some g =>
      rw [plainSurveyFrom_opened opened scope fun _ => Nat.succ_pos depth,
        plainSurveyFrom_opened opened scope fun _ => Nat.succ_pos depth]
    | none => rw [plainSurveyFrom_unopened opened, plainSurveyFrom_unopened opened]

/-- A survey outside of a block, or inside of a group, goes through a whole group. -/
theorem plainSurveyFrom_group {t c : Token} {g : Group}
    (opened : Group.openedBy? t ts = some g) {depth : Nat} (shown : g = .block → 0 < depth)
    (closing : c.mark? = some g.closer) (first : Bool)
    (inside : plainSurveyFrom e scope (depth + 1) false colons (ts.drop (g.openerLength - 1))
      = plainSurveyFrom e scope (depth + 1) false colons (c :: us)) :
  plainSurveyFrom e scope depth first colons (t :: ts)
    = plainSurveyFrom e scope depth false colons us
  := by
  have closes : c.closes = true := (Token.closes_eq closing).trans g.isCloser_closer
  rw [plainSurveyFrom_opened opened scope shown, inside,
    plainSurveyFrom_unopened (Group.openedBy?_of_closes closes us), if_pos closes]

/-- A survey inside of a group goes through balanced tokens. -/
theorem plainSurveyFrom_balanced {n : Nat} (balanced : Balanced n ts us) (depth : Nat)
    (first : Bool) :
  plainSurveyFrom e scope (depth + 1) first colons ts
    = plainSurveyFrom e scope (depth + 1) false colons us
  := by
  induction balanced generalizing depth first with
  | refl => exact plainSurveyFrom_first depth first
  | token passes _ ih =>
    rw [plainSurveyFrom_unopened passes.opens, passes.closes]
    exact ih depth false
  | group opened _ closing _ ih ih' =>
    have inside := ih (depth + 1) false
    rw [plainSurveyFrom_group opened (fun _ => Nat.succ_pos depth) closing first inside]
    exact ih' depth false

end Statement

/-! ### Walking through the brackets of a text -/

/-- A group that is open: the mark that closes it, and the place where it has been opened. -/
structure Opener where
  closer : Char
  place : Position
  deriving DecidableEq, Repr

/-- Walks through the brackets of the tokens `ts` inside of the groups `opened`, the innermost one
first, up to the first one that is wrong: one that opens a group too deep, or that does not
close the innermost group.  What is met behind the last token is `past`; if it is the end of
the text then the innermost group must not be open any more. -/
def walk (past : Except Failure Unit) (opened : List Opener) (ts : List Token) :
    Except Failure Unit :=
  match ts with
  | [] => do
    past
    match opened with
    | [] => return ()
    | o :: _ => .error ⟨.expected o.closer.toString, o.place⟩
  | t :: ts =>
    match Group.openedBy? t ts with
    | some g =>
      if opened.length < maxNesting then
        walk past (⟨g.closer, t.start⟩ :: opened) (ts.drop (g.openerLength - 1))
      else .error ⟨.nestedTooDeep, t.start⟩
    | none =>
      match t.mark?.filter isCloser with
      | none => walk past opened ts
      | some c =>
        if opened.head?.map Opener.closer = some c then walk past opened.tail ts
        else .error ⟨.unexpected c, t.start⟩
termination_by ts.length
decreasing_by
  all_goals simp only [List.length_drop, List.length_cons]; omega

/-- The groups that are open behind the tokens `ts`, the innermost one first, when those `opened`
are open in front of them; or the failure at the first bracket that is wrong: one that opens a group
too deep, or that does not close the innermost group. -/
def openBehind (opened : List Opener) (ts : List Token) : Except Failure (List Opener) :=
  match ts with
  | [] => .ok opened
  | t :: ts =>
    match Group.openedBy? t ts with
    | some g =>
      if opened.length < maxNesting then
        openBehind (⟨g.closer, t.start⟩ :: opened) (ts.drop (g.openerLength - 1))
      else .error ⟨.nestedTooDeep, t.start⟩
    | none =>
      match t.mark?.filter isCloser with
      | none => openBehind opened ts
      | some c =>
        if opened.head?.map Opener.closer = some c then openBehind opened.tail ts
        else .error ⟨.unexpected c, t.start⟩
termination_by ts.length
decreasing_by
  all_goals simp only [List.length_drop, List.length_cons]; omega

/-- None of the groups `left` is missed, of which the innermost one would be. -/
def noneLeft : List Opener → Except Failure Unit
  | [] => .ok ()
  | o :: _ => .error ⟨.expected o.closer.toString, o.place⟩

section Walk

variable {past : Except Failure Unit} {opened : List Opener} {t : Token} {ts us : List Token}

theorem walk_opened {g : Group} (opens : Group.openedBy? t ts = some g)
    (shallow : opened.length < maxNesting) :
  walk past opened (t :: ts)
    = walk past (⟨g.closer, t.start⟩ :: opened) (ts.drop (g.openerLength - 1))
  := by
  rw [walk, opens]
  exact if_pos shallow

theorem walk_deep {g : Group} (opens : Group.openedBy? t ts = some g)
    (deep : opened.length = maxNesting) :
  walk past opened (t :: ts) = .error ⟨.nestedTooDeep, t.start⟩
  := by
  rw [walk, opens]
  exact if_neg (Nat.not_lt.mpr (Nat.le_of_eq deep.symm))

theorem walk_passes (passes : t.Passes ts) :
  walk past opened (t :: ts) = walk past opened ts
  := by
  have other : t.mark?.filter isCloser = none := by
    have closes := passes.closes
    unfold Token.closes at closes
    cases mark : t.mark? with
    | none => rfl
    | some c =>
      rw [mark, Option.any_some] at closes
      rw [Option.filter_some, closes]
      rfl
  rw [walk, passes.opens]
  simp only [other]

theorem walk_closer {c : Char} (mark : t.mark? = some c) (closes : isCloser c = true) :
  walk past opened (t :: ts)
    = if opened.head?.map Opener.closer = some c then walk past opened.tail ts
      else .error ⟨.unexpected c, t.start⟩
  := by
  have closer : t.mark?.filter isCloser = some c := by
    rw [mark, Option.filter_some, closes]
    rfl
  have closes : t.closes = true := (Token.closes_eq mark).trans closes
  rw [walk, Group.openedBy?_of_closes closes]
  simp only [closer]

theorem walk_closes {c : Char} (mark : t.mark? = some c) (closes : isCloser c = true)
    (place : Position) :
  walk past (⟨c, place⟩ :: opened) (t :: ts) = walk past opened ts
  := (walk_closer mark closes).trans (if_pos rfl)

theorem walk_unexpected {c : Char} (mark : t.mark? = some c) (closes : isCloser c = true)
    (other : opened.head?.map Opener.closer ≠ some c) :
  walk past opened (t :: ts) = .error ⟨.unexpected c, t.start⟩
  := (walk_closer mark closes).trans (if_neg other)

/-- A walk meets what stands past the last token only if no bracket is wrong before, and misses the
innermost group that is open there. -/
theorem walk_eq (past : Except Failure Unit) (opened : List Opener) (ts : List Token) :
  walk past opened ts = (do
    let left ← openBehind opened ts
    past
    noneLeft left)
  := by
  fun_induction openBehind opened ts with
  | case1 opened => cases opened <;> rw [walk] <;> rfl
  | case2 _ _ _ _ opens shallow ih => rw [walk_opened opens shallow, ih]
  | case3 _ _ _ _ opens deep =>
    rw [walk, opens]
    exact if_neg deep
  | case4 _ _ _ opens other ih =>
    rw [walk, opens]
    simp only [other]
    exact ih
  | case5 _ _ _ opens _ closer same ih =>
    rw [walk, opens]
    simp only [closer, same, if_true]
    exact ih
  | case6 _ _ _ opens _ closer differs =>
    rw [walk, opens]
    simp only [closer, differs, if_false]
    rfl

/-- A walk goes through balanced tokens. -/
theorem walk_balanced {n : Nat} (balanced : Balanced n ts us)
    (depth : opened.length + n = maxNesting) :
  walk past opened ts = walk past opened us
  := by
  induction balanced generalizing opened with
  | refl => rfl
  | token passes _ ih =>
    rw [walk_passes passes]
    exact ih depth
  | @group n t ts g c us vs opens _ closing _ ih ih' =>
    have inside : (⟨g.closer, t.start⟩ :: opened : List Opener).length + n = maxNesting := by
      rw [List.length_cons]
      omega
    rw [walk_opened opens (by omega), ih inside, walk_closes closing g.isCloser_closer]
    exact ih' depth

end Walk

end LosslessScss
