import LosslessScss.Group

/-!
# Brackets

The tokens that open a group and those that close one.  `Group.openedBy?` tells the group
that a token opens together with the one after it, and `Token.closes` whether a token closes
a group.  To a survey inside of a group nothing else matters: `Statement.plainSurveyFrom`
goes one level deeper at the first, one level up at the second, and passes over any other
token.
-/

namespace LosslessScss

/-- The group that the tokens `t :: ts` open, if they open one. -/
def Group.openedBy? (t : Token) (ts : List Token) : Option Group :=
  match t.mark? with
  | some '(' => some .parentheses
  | some '[' => some .brackets
  | some '{' => some .block
  | some '#' => if ts.head?.bind Token.mark? = some '{' then some .interpolation else none
  | _ => none

/-- Whether a token closes a group. -/
def Token.closes (t : Token) : Bool := t.mark?.any isCloser

namespace Token

variable {t : Token}

theorem closes_eq {c : Char} (mark : t.mark? = some c) :
  t.closes = isCloser c
  := by
  rw [closes, mark]
  rfl

theorem closes_of_noMark (noMark : t.mark? = none) :
  t.closes = false
  := by
  rw [closes, noMark]
  rfl

/-- A token that closes a group is one of three marks. -/
theorem mark?_of_closes (closes : t.closes = true) :
  t.mark? = some ')' ∨ t.mark? = some ']' ∨ t.mark? = some '}'
  := by
  cases mark : t.mark? with
  | none =>
    rw [closes_of_noMark mark] at closes
    cases closes
  | some c =>
    rw [closes_eq mark] at closes
    simpa [isCloser, or_assoc] using closes

end Token

/-- A token that closes a group opens none. -/
theorem Group.openedBy?_of_closes {t : Token} (closes : t.closes = true) (ts : List Token) :
  Group.openedBy? t ts = none
  := by
  unfold openedBy?
  obtain mark | mark | mark := Token.mark?_of_closes closes
  all_goals
    rw [mark]
    rfl

/-- A block opens with a curly bracket, and with nothing else. -/
theorem Group.openedBy?_eq_block {t : Token} {ts : List Token} :
  Group.openedBy? t ts = some .block ↔ t.mark? = some '{'
  := by
  constructor
  · intro opened
    unfold openedBy? at opened
    split at opened
    case h_3 mark => exact mark
    case h_4 => split at opened <;> cases opened
    all_goals cases opened
  · intro mark
    rw [openedBy?, mark]
    rfl

namespace Statement

variable {e : Ending} {t : Token} {ts : List Token}

/-- Inside of a group the survey tells the groups that tokens open. -/
theorem openerLength_opened {g : Group} (opened : Group.openedBy? t ts = some g) (inside : Bool)
    (shown : g = .block → inside = true) :
  openerLength e inside t ts = .ok g.openerLength
  := by
  unfold Group.openedBy? at opened
  split at opened
  case h_1 mark => cases opened; rw [openerLength, mark]; rfl
  case h_2 mark => cases opened; rw [openerLength, mark]; rfl
  case h_3 mark => cases opened; rw [openerLength, mark, shown rfl]; rfl
  case h_4 mark =>
    rw [openerLength, mark]
    cases ts with
    | nil => cases opened
    | cons u us =>
      split at opened
      case isTrue next =>
        cases opened
        have mark : u.mark? = some '{' := next
        simp only [Ending.atMark, mark]
        rfl
      case isFalse => cases opened
  case h_5 => cases opened

/-- A token that opens no group is told from those that do, unless it is a `#` before the
end. -/
theorem openerLength_unopened (unopened : Group.openedBy? t ts = none) (inside : Bool) :
  openerLength e inside t ts = .ok 0 ∨
    t.mark? = some '#' ∧ ts = [] ∧ openerLength e inside t ts = (do e.reach; return 0)
  := by
  unfold Group.openedBy? at unopened
  split at unopened
  case h_1 | h_2 | h_3 => cases unopened
  case h_4 mark =>
    rw [openerLength, mark]
    cases ts with
    | nil =>
      right
      refine ⟨rfl, rfl, ?_⟩
      cases e <;> rfl
    | cons u us =>
      left
      split at unopened
      case isTrue => cases unopened
      case isFalse next =>
        have other : u.mark? ≠ some '{' := next
        simp only [Ending.atMark, other]
        rfl
  case h_5 =>
    left
    unfold openerLength
    split
    all_goals first | rfl | contradiction

/-- Outside of every group a curly bracket opens none. -/
theorem openerLength_block (opened : Group.openedBy? t ts = some .block) :
  openerLength e false t ts = .ok 0
  := by
  rw [openerLength, Group.openedBy?_eq_block.mp opened]
  rfl

/-- The number of tokens that are read as opening a group is that of the group they open; it is
zero if they open none, or open a block outside of every group. -/
theorem openerLength_eq_ok {inside : Bool} {n : Nat} (length : openerLength e inside t ts = .ok n) :
  (∃ g, Group.openedBy? t ts = some g ∧ g.openerLength = n ∧ (g = .block → inside = true)) ∨
    n = 0 ∧ (inside = true → Group.openedBy? t ts = none)
  := by
  cases opened : Group.openedBy? t ts with
  | none =>
    right
    obtain known | ⟨_, _, known⟩ := openerLength_unopened (e := e) opened inside
    · rw [known] at length
      cases length
      exact ⟨rfl, fun _ => rfl⟩
    · rw [known] at length
      cases e <;> cases length
      exact ⟨rfl, fun _ => rfl⟩
  | some g =>
    cases inside with
    | true =>
      left
      rw [openerLength_opened opened true fun _ => rfl] at length
      cases length
      exact ⟨g, rfl, rfl, fun _ => rfl⟩
    | false =>
      by_cases block : g = .block
      · right
        rw [openerLength_block (block ▸ opened)] at length
        cases length
        exact ⟨rfl, nofun⟩
      · left
        rw [openerLength_opened opened false fun is => absurd is block] at length
        cases length
        exact ⟨g, rfl, rfl, fun is => absurd is block⟩

/-- Inside of a group a token that opens no other one closes it, or is passed over. -/
theorem turn_inside (unopened : Group.openedBy? t ts = none) (scope : Scope) (first : Bool)
    (colons : Colons) :
  turn e scope true first colons t ts = .ok (if t.closes then .closed else .passed colons)
  := by
  unfold Group.openedBy? at unopened
  unfold turn Token.closes
  generalize t.mark? = mark at unopened ⊢
  split
  case h_1 | h_2 | h_3 => rfl
  case h_4 => cases unopened
  case h_5 | h_6 | h_7 => rfl
  case h_8 none =>
    cases mark with
    | none => rfl
    | some c =>
      have other : isCloser c = false := by
        simp only [isCloser, Bool.or_eq_false_iff, beq_eq_false_iff_ne]
        refine ⟨⟨?_, ?_⟩, ?_⟩ <;> rintro rfl <;> simp_all
      simp only [Option.any_some, other]
      rfl

/-! ### A survey inside of a group -/

@[simp]
theorem plainSurveyFrom_nil (e : Ending) (scope : Scope) (depth : Nat) (first : Bool)
    (colons : Colons) :
  plainSurveyFrom e scope depth first colons [] = (do e.reach; return colons.form)
  := by
  rw [plainSurveyFrom]

theorem plainSurveyFrom_opened {g : Group} (opened : Group.openedBy? t ts = some g)
    (scope : Scope) {depth : Nat} (shown : g = .block → 0 < depth) (first : Bool)
    (colons : Colons) :
  plainSurveyFrom e scope depth first colons (t :: ts)
    = plainSurveyFrom e scope (depth + 1) false colons (ts.drop (g.openerLength - 1))
  := by
  obtain ⟨n, length⟩ := Nat.exists_eq_add_one.mpr g.openerLength_pos
  rw [plainSurveyFrom, openerLength_opened opened _ (by simpa using shown), length]
  rfl

/-- Outside of every group a block settles the form of a statement. -/
theorem plainSurveyFrom_block (opened : Group.openedBy? t ts = some .block) (scope : Scope)
    (first : Bool) (colons : Colons) :
  plainSurveyFrom e scope 0 first colons (t :: ts)
    = .ok (if first then .loose else colons.formBeforeBlock)
  := by
  have mark : t.mark? = some '\x7b' := Group.openedBy?_eq_block.mp opened
  have length : openerLength e (decide (0 < 0)) t ts = .ok 0 := openerLength_block opened
  rw [plainSurveyFrom, length]
  simp only [turn, mark]
  rfl

theorem plainSurveyFrom_unopened (unopened : Group.openedBy? t ts = none) (scope : Scope)
    (depth : Nat) (first : Bool) (colons : Colons) :
  plainSurveyFrom e scope (depth + 1) first colons (t :: ts)
    = plainSurveyFrom e scope (if t.closes then depth else depth + 1) false colons ts
  := by
  have turn := turn_inside (e := e) unopened scope first colons
  rw [plainSurveyFrom]
  obtain length | ⟨mark, rfl, length⟩ := openerLength_unopened (e := e) unopened (0 < depth + 1)
  · rw [length]
    simp only [Nat.zero_lt_succ, decide_true, turn]
    cases t.closes <;> rfl
  · have passes : t.closes = false := Token.closes_eq mark
    rw [length, passes]
    simp only [Nat.zero_lt_succ, decide_true, turn, passes, plainSurveyFrom_nil]
    cases e.reach <;> simp [plainSurveyFrom_nil] <;> rfl

end Statement

end LosslessScss
