import LosslessScss.Proofs.Likeness

/-!
# Two surveys

Surveys that look at every token find the same form for tokens that are alike, and so levels with
such a survey are alike as soon as their endings are (`Likeness.plainLevels`).
-/

namespace LosslessScss.Likeness

open Statement

variable {R : Likeness} {e e' : Ending} {ts us : List Token} {t u : Token}

theorem Endings.openerLength (h : R.Endings e e') (first : R.token t u)
    (rest : List.Forall₂ R.token ts us) (inside : Bool) :
  R.Agree (· = ·) (openerLength e inside t ts) (openerLength e' inside u us)
  := by
  unfold Statement.openerLength
  rw [R.mark_eq first]
  split
  case h_4 =>
    apply (h.atMark rest '\x7b').bind
    rintro opens _ rfl
    exact .ok rfl
  all_goals exact .ok rfl

theorem Endings.turn (h : R.Endings e e') (alike : R.token t u)
    (rest : List.Forall₂ R.token ts us) (scope : Scope) (inside first : Bool) (colons : Colons) :
  R.Agree (· = ·) (turn e scope inside first colons t ts)
    (turn e' scope inside first colons u us)
  := by
  unfold Statement.turn
  rw [R.mark_eq alike]
  split
  case h_7 =>
    split
    · exact .ok rfl
    · apply (h.atName rest).bind
      rintro name _ rfl
      apply (h.atMark rest ':').bind
      rintro colon _ rfl
      exact .ok rfl
  all_goals exact .ok rfl

theorem Endings.plainSurveyFrom (h : R.Endings e e') (alike : List.Forall₂ R.token ts us)
    (scope : Scope) (depth : Nat) (first : Bool) (colons : Colons) :
  R.Agree (· = ·) (plainSurveyFrom e scope depth first colons ts)
    (plainSurveyFrom e' scope depth first colons us)
  := by
  fun_induction Statement.plainSurveyFrom e scope depth first colons ts generalizing us with
  | case1 =>
    cases alike
    rw [Statement.plainSurveyFrom]
    exact h.reach.bind fun _ _ _ => .ok rfl
  | case2 depth first colons t ts ih ih' ih'' =>
    cases alike with
    | cons alike rest =>
    rw [Statement.plainSurveyFrom]
    apply (h.openerLength alike rest _).bind
    rintro n _ rfl
    cases n with
    | succ n => exact ih n (List.forall₂_drop n rest)
    | zero =>
      apply (h.turn alike rest scope _ first colons).bind
      rintro turned _ rfl
      cases turned with
      | settled => exact .ok rfl
      | closed => exact ih' rest
      | passed colons => exact ih'' colons rest

/-- Levels of the same depth whose surveys look at every token are alike if their endings are. -/
theorem plainLevels (endings : R.Endings e e') (n : Nat) :
  (LosslessScss.levels e Survey.plain n).Alike R (LosslessScss.levels e' Survey.plain n)
  := by
  apply Likeness.levels endings
  intro scope s s' like
  apply (endings.plainSurveyFrom (R.tokens like) scope 0 true ⟨false, false⟩).bind
  rintro form _ rfl
  exact .ok ⟨rfl, like⟩

end LosslessScss.Likeness
