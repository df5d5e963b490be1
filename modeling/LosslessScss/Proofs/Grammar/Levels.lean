import LosslessScss.Proofs.Grammar.Completeness

/-!
# Levels of nesting

How many groups may still be nested makes no difference to what a phrase makes up, as long as there
are enough of them (`Derives.mono`).  As the parser reads what is derived, tokens make up one
sequence only.
-/

namespace LosslessScss

variable {e : Ending} {n m : Nat} {p : Phrase} {ts us vs : List Token} {ns ns' : List Node}

/-- What is derived is derived as well where more groups may be nested. -/
theorem Derives.mono (derives : Derives e n p ts ns us) (more : n ≤ m) :
  Derives e m p ts ns us
  := by
  induction derives generalizing m with
  | group opening _ closing ih =>
    obtain ⟨k, rfl⟩ := Nat.exists_eq_succ_of_ne_zero (Nat.ne_zero_of_lt more)
    exact .group opening (ih (Nat.le_of_succ_le_succ more)) closing
  | callNone absent => exact .callNone absent
  | callArguments _ ih => exact .callArguments (ih more)
  | segmentToken continues => exact .segmentToken continues
  | segmentInterpolation _ ih => exact .segmentInterpolation (ih more)
  | segmentsEnd ends => exact .segmentsEnd ends
  | segmentsCons _ _ ih ih' => exact .segmentsCons (ih more) (ih' more)
  | targetName name => exact .targetName name
  | targetInterpolation _ ih => exact .targetInterpolation (ih more)
  | atomToken noName lone => exact .atomToken noName lone
  | atomName name _ ih => exact .atomName name (ih more)
  | atomGroup kind _ ih => exact .atomGroup kind (ih more)
  | atomInterpolation _ _ ih ih' => exact .atomInterpolation (ih more) (ih' more)
  | atomCompound which sigil noGroup named _ ih =>
    exact .atomCompound which sigil noGroup named (ih more)
  | atomPseudo which colons named _ _ ih ih' =>
    exact .atomPseudo which colons named (ih more) (ih' more)
  | atomsStop stops => exact .atomsStop stops
  | atomsEnd mayEnd reached => exact .atomsEnd mayEnd reached
  | atomsCons goesOn _ _ ih ih' => exact .atomsCons goesOn (ih more) (ih' more)
  | headNone absent => exact .headNone absent
  | headCall blank name _ ih => exact .headCall blank name (ih more)
  | statementToken alone => exact .statementToken alone
  | atRuleBlock keyword _ _ _ ih ih' ih'' =>
    exact .atRuleBlock keyword (ih more) (ih' more) (ih'' more)
  | atRule keyword _ _ noBlock final ih ih' =>
    exact .atRule keyword (ih more) (ih' more) noBlock final
  | rule start survey _ _ ih ih' => exact .rule start survey (ih more) (ih' more)
  | declarationBlock start survey _ _ _ final ih ih' ih'' =>
    exact .declarationBlock start survey (ih more) (ih' more) (ih'' more) final
  | declaration start survey _ _ noBlock final ih ih' =>
    exact .declaration start survey (ih more) (ih' more) noBlock final
  | looseBlock start survey _ block ih => exact .looseBlock start survey (ih more) block
  | loose start survey _ noBlock _ ih ih' => exact .loose start survey (ih more) noBlock (ih' more)
  | sequenceEnd reached => exact .sequenceEnd reached
  | sequenceCloser closer mark => exact .sequenceCloser closer mark
  | sequenceCons goesOn _ _ ih ih' => exact .sequenceCons goesOn (ih more) (ih' more)

/-- Tokens make up one sequence only. -/
theorem Derives.sequence_unique {around : Surroundings}
    (derives : Derives e n (.sequence around) ts ns us)
    (derives' : Derives e n (.sequence around) ts ns' vs) :
  ns = ns' ∧ us = vs
  := by
  obtain ⟨r, read, rfl, rfl⟩ := derives.reads ⟨ts, 0, ∅⟩ rfl
  obtain ⟨r', read', rfl, rfl⟩ := derives'.reads ⟨ts, 0, ∅⟩ rfl
  obtain rfl := Except.ok.inj (read.symm.trans read')
  exact ⟨rfl, rfl⟩

end LosslessScss
