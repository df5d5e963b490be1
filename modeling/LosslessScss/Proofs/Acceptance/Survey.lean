import LosslessScss.Proofs.Balance

/-!
# What a survey promises

A selector is read up to a block, and the property of a declaration up to a colon, with no
regard to brackets that are closed or to the end of the text.  That they come to it is what
the survey of the statement promises: `Loop.Awaits` says that the survey, continued from the
tokens that the loop has come to, still finds a rule or a declaration.  Every atom keeps the
promise (`Loop.Awaits.atom`), and as long as it holds no group is closed.
-/

namespace LosslessScss

/-! ### Failures of a survey -/

namespace Statement

variable (e : Ending) (scope : Scope)

theorem fails_openerLength (inside : Bool) (t : Token) (ts : List Token) :
  Fails (openerLength e inside t ts) fun f => e.reach = .error f
  := by
  unfold openerLength
  split
  case h_4 => exact (e.fails_atMark ts '\x7b').bind fun _ _ => Fails.ok
  all_goals exact Fails.ok

theorem fails_turn (inside first : Bool) (colons : Colons) (t : Token) (ts : List Token) :
  Fails (turn e scope inside first colons t ts) fun f => e.reach = .error f
  := by
  unfold turn
  split
  case h_7 =>
    split
    · exact Fails.ok
    · exact (e.fails_atName ts).bind fun _ _ => (e.fails_atMark ts ':').bind fun _ _ => Fails.ok
  all_goals exact Fails.ok

/-- A survey fails only with what stands past the last token. -/
theorem fails_plainSurveyFrom (depth : Nat) (first : Bool) (colons : Colons) (ts : List Token) :
  Fails (plainSurveyFrom e scope depth first colons ts) fun f => e.reach = .error f
  := by
  fun_induction plainSurveyFrom e scope depth first colons ts with
  | case1 => exact e.fails_reach.bind fun _ _ => Fails.ok
  | case2 depth first colons t ts ih ih' ih'' =>
    apply (fails_openerLength e _ t ts).bind
    intro n _
    cases n with
    | succ n => exact ih n
    | zero =>
      apply (fails_turn e scope _ first colons t ts).bind
      intro turned _
      cases turned with
      | settled => exact Fails.ok
      | closed => exact ih'
      | passed colons => exact ih'' colons

end Statement

/-! ### What a survey promises -/

namespace Statement

variable {e : Ending} {scope : Scope} {first : Bool} {colons : Colons} {form : Form} {t : Token}
  {ts : List Token}

theorem Colons.form_ne_rule (colons : Colons) :
  colons.form ≠ .rule
  := by
  unfold form
  split <;> exact nofun

/-- What a token that opens no group means outside of every group. -/
theorem turn_outside (opens : Group.openedBy? t ts = none) {turned : Turn}
    (turns : turn e scope false first colons t ts = .ok turned) :
  turned = .settled colons.form ∨ t.closes = false ∧ ∃ colons',
    turned = .passed colons' ∧ (t.mark? ≠ some ':' → colons' = colons)
  := by
  unfold turn at turns
  have other {c : Char} (mark : t.mark? = some c) (noCloser : isCloser c = false) :
      t.closes = false := (Token.closes_eq mark).trans noCloser
  split at turns
  case h_1 | h_2 | h_3 | h_5 =>
    cases turns
    exact .inl rfl
  case h_4 mark =>
    rw [Group.openedBy?, mark] at opens
    cases opens
  case h_6 mark =>
    cases scope with
    | statements =>
      cases turns
      exact .inr ⟨other mark rfl, colons, rfl, fun _ => rfl⟩
    | entries =>
      cases turns
      exact .inl rfl
  case h_7 mark =>
    have passed {colons' : Colons} : t.closes = false ∧ ∃ colons'',
        Turn.passed colons' = .passed colons'' ∧ (t.mark? ≠ some ':' → colons'' = colons) :=
      ⟨other mark rfl, colons', rfl, fun no => absurd mark no⟩
    cases first with
    | true => cases turns; exact .inr passed
    | false =>
      cases named : e.atName ts with
      | error => rw [named] at turns; cases turns
      | ok =>
        cases double : e.atMark ':' ts with
        | error => rw [named, double] at turns; cases turns
        | ok => rw [named, double] at turns; cases turns; exact .inr passed
  case h_8 _ _ _ _ _ _ _ =>
    cases turns
    refine .inr ⟨?_, colons, rfl, fun _ => rfl⟩
    cases mark : t.mark? with
    | none => exact Token.closes_of_noMark mark
    | some c =>
      apply other mark
      simp_all [isCloser]

/-- Outside of every group a token settles the form by the colons met so far, or the survey goes
on behind it; only a colon changes what is known of colons. -/
theorem plainSurveyFrom_outside (opens : Group.openedBy? t ts = none)
    (survey : plainSurveyFrom e scope 0 first colons (t :: ts) = .ok form) :
  form = colons.form ∨ t.closes = false ∧ ∃ colons',
    plainSurveyFrom e scope 0 false colons' ts = .ok form ∧
      (t.mark? ≠ some ':' → colons' = colons)
  := by
  rw [plainSurveyFrom] at survey
  simp only [Nat.lt_irrefl, decide_false] at survey
  cases length : openerLength e false t ts with
  | error => rw [length] at survey; cases survey
  | ok n =>
    obtain ⟨g, opened, _⟩ | ⟨rfl, _⟩ := openerLength_eq_ok length
    · rw [opens] at opened
      cases opened
    · rw [length] at survey
      cases turns : turn e scope false first colons t ts with
      | error => simp only [turns] at survey; cases survey
      | ok turned =>
        simp only [turns] at survey
        obtain rfl | ⟨closes, colons', rfl, same⟩ := turn_outside opens turns
        · cases survey
          exact .inl rfl
        · exact .inr ⟨closes, colons', survey, same⟩

end Statement

/-- A token that does not end a run closes no group and opens no block. -/
theorem closes_of_endsRun (scope : Scope) {t : Token} (goesOn : Level.endsRun scope t = false) :
  t.closes = false ∧ t.mark? ≠ some '\x7b'
  := by
  unfold Level.endsRun at goesOn
  unfold Token.closes
  split at goesOn
  case h_1 | h_2 | h_3 | h_4 | h_5 => cases goesOn
  case h_6 mark =>
    rw [mark]
    exact ⟨rfl, by decide⟩
  case h_7 =>
    cases mark : t.mark? with
    | none => exact ⟨rfl, nofun⟩
    | some c => simp_all [isCloser]

/-- What the survey of a statement promises to the loop that comes to the tokens `ts`: a selector
is followed by a block, and a property by a colon. -/
def Loop.Awaits (e : Ending) (scope : Scope) (ts : List Token) : Loop → Prop
  | run _ _ => True
  | selector => ∃ first colons,
      Statement.plainSurveyFrom e scope 0 first colons ts = .ok .rule
  | property => ∃ first,
      Statement.plainSurveyFrom e scope 0 first ⟨false, false⟩ ts = .ok .declaration

namespace Loop.Awaits

variable {e : Ending} {scope : Scope} {loop : Loop} {t : Token} {ts us : List Token}

/-- What is promised lies ahead. -/
theorem stopsAtEnd (awaits : loop.Awaits e scope []) :
  loop.stopsAtEnd = true
  := by
  cases loop with
  | run => rfl
  | selector =>
    obtain ⟨first, colons, survey⟩ := awaits
    rw [Statement.plainSurveyFrom_nil] at survey
    cases reached : e.reach with
    | error => rw [reached] at survey; cases survey
    | ok =>
      rw [reached] at survey
      exact absurd (Except.ok.inj survey) colons.form_ne_rule
  | property =>
    obtain ⟨first, survey⟩ := awaits
    rw [Statement.plainSurveyFrom_nil] at survey
    cases reached : e.reach with
    | error => rw [reached] at survey; cases survey
    | ok => rw [reached] at survey; cases survey

theorem outside (awaits : loop.Awaits e scope (t :: ts)) (opens : Group.openedBy? t ts = none)
    (goesOn : loop = .property → t.mark? ≠ some ':') :
  loop.Awaits e scope ts ∧ (loop.stopsAtEnd = false → t.closes = false)
  := by
  cases loop with
  | run => exact ⟨trivial, nofun⟩
  | selector =>
    obtain ⟨first, colons, survey⟩ := awaits
    obtain settled | ⟨closes, colons', survey, _⟩ := Statement.plainSurveyFrom_outside opens survey
    · exact absurd settled.symm colons.form_ne_rule
    · exact ⟨⟨false, colons', survey⟩, fun _ => closes⟩
  | property =>
    obtain ⟨first, survey⟩ := awaits
    obtain settled | ⟨closes, colons', survey, same⟩ :=
      Statement.plainSurveyFrom_outside opens survey
    · cases settled
    · rw [same (goesOn rfl)] at survey
      exact ⟨⟨false, survey⟩, fun _ => closes⟩

theorem pass (awaits : loop.Awaits e scope (t :: ts)) (passes : t.Passes ts)
    (goesOn : loop = .property → t.mark? ≠ some ':') :
  loop.Awaits e scope ts
  := (awaits.outside passes.opens goesOn).1

/-- Before what is promised no group is closed, and no block is opened. -/
theorem goesOn (awaits : loop.Awaits e scope (t :: ts)) (goesOn : loop.stops t = false) :
  t.closes = false ∧ t.mark? ≠ some '\x7b'
  := by
  have closes (ends : loop.stopsAtEnd = false) (noColon : loop = .property → t.mark? ≠ some ':') :
      t.closes = false := by
    cases opened : Group.openedBy? t ts with
    | none => exact (awaits.outside opened noColon).2 ends
    | some g =>
      apply Bool.eq_false_iff.mpr
      intro closes
      rw [Group.openedBy?_of_closes closes] at opened
      cases opened
  cases loop with
  | run scope' _ => exact closes_of_endsRun scope' goesOn
  | selector => exact ⟨closes rfl nofun, of_decide_eq_false goesOn⟩
  | property =>
    refine ⟨closes rfl fun _ => of_decide_eq_false goesOn, ?_⟩
    intro mark
    obtain ⟨first, survey⟩ := awaits
    rw [Statement.plainSurveyFrom_block (Group.openedBy?_eq_block.mpr mark)] at survey
    cases first <;> cases survey

theorem group {n : Nat} {g : Group} {ns : List Node} (awaits : loop.Awaits e scope ts)
    (derives : Derives e n (.group g) ts ns us) (noBlock : g ≠ .block) :
  loop.Awaits e scope us
  := by
  have passes (first : Bool) (colons : Statement.Colons) :
      Statement.plainSurveyFrom e scope 0 first colons ts
        = Statement.plainSurveyFrom e scope 0 false colons us := by
    cases derives with
    | @group n g o os ts ns c us opening inside closing =>
      obtain ⟨g', opened, closer, behind, block⟩ := opening.openedBy? ts
      apply Statement.plainSurveyFrom_group opened (fun is => absurd (block is) noBlock)
        (closer ▸ closing) first
      rw [behind]
      exact Statement.plainSurveyFrom_balanced inside.balanced 0 false
  cases loop with
  | run => trivial
  | selector =>
    obtain ⟨first, colons, survey⟩ := awaits
    exact ⟨false, colons, passes first colons ▸ survey⟩
  | property =>
    obtain ⟨first, survey⟩ := awaits
    exact ⟨false, passes first _ ▸ survey⟩

theorem call {n : Nat} {m : Node} {ns : List Node} (awaits : loop.Awaits e scope ts)
    (derives : Derives e n (.call m) ts ns us) :
  loop.Awaits e scope us
  := by
  cases derives with
  | callNone => exact awaits
  | callArguments arguments => exact awaits.group arguments nofun

theorem noMark (awaits : loop.Awaits e scope (t :: ts)) (noMark : t.mark? = none) :
  loop.Awaits e scope ts
  := awaits.pass (.of_noMark noMark) fun _ => by simp [noMark]

theorem segments {n : Nat} {first : Bool} {ns : List Node} (awaits : loop.Awaits e scope ts)
    (derives : Derives e n (.segments first) ts ns us) :
  loop.Awaits e scope us
  := by
  generalize phrase : Phrase.segments first = p at derives
  induction derives generalizing first with
  | segmentsEnd => exact awaits
  | segmentsCons one _ _ ih =>
    cases phrase
    apply ih _ rfl
    cases one with
    | segmentToken continues => exact awaits.noMark (Level.mark?_of_continuesName continues)
    | segmentInterpolation interpolation => exact awaits.group interpolation nofun
  | _ => cases phrase

theorem target {n : Nat} {ns : List Node} (awaits : loop.Awaits e scope ts)
    (derives : Derives e n .target ts ns us) :
  loop.Awaits e scope us
  := by
  cases derives with
  | targetName name => exact awaits.noMark (Token.mark?_of_identifier _ name)
  | targetInterpolation interpolation => exact awaits.group interpolation nofun

/-- What is promised still lies ahead after an atom. -/
theorem atom {n : Nat} {m : Node} (awaits : loop.Awaits e scope (t :: ts))
    (goesOn : loop.stops t = false)
    (derives : Derives e n (.atom loop.inSelector) (t :: ts) [m] us) :
  loop.Awaits e scope us
  := by
  have noColon : loop = .property → t.mark? ≠ some ':' := by
    rintro rfl
    exact of_decide_eq_false goesOn
  generalize tokens : t :: ts = ts' at derives awaits
  generalize inside : loop.inSelector = selector at derives
  cases derives with
  | atomToken _ lone =>
    cases tokens
    exact awaits.pass lone.passes noColon
  | atomName name call =>
    cases tokens
    exact (awaits.noMark (Token.mark?_of_identifier _ name)).call call
  | atomGroup kind group =>
    subst tokens
    apply awaits.group group
    rintro rfl
    obtain ⟨os, rest, tokens, marks⟩ := group.opens
    obtain ⟨o, rfl⟩ : ∃ o, os = [o] := List.length_eq_one_iff.mp marks.length
    cases tokens
    exact (awaits.goesOn goesOn).2 (marks.head rfl)
  | atomInterpolation interpolation call => exact (awaits.group interpolation nofun).call call
  | atomCompound which sigil noGroup _ segments =>
    cases tokens
    exact (awaits.pass (passes_of_sigil which sigil noGroup).1 noColon).segments segments
  | @atomPseudo _ kind c cs ts'' _ _ _ _ which colons _ target call =>
    have noProperty : loop ≠ .property := by
      rintro rfl
      cases inside
    have pass {t : Token} {ts : List Token} (awaits : loop.Awaits e scope (t :: ts))
        (mark : t.mark? = some ':') : loop.Awaits e scope ts :=
      awaits.pass (.of_mark mark rfl (by decide) nofun) fun is => absurd is noProperty
    have behind : loop.Awaits e scope ts'' := by
      obtain rfl | rfl := which
      · obtain rfl : cs = [] := List.map_eq_nil_iff.mp (List.cons.inj colons).2
        exact pass awaits (colons.head rfl)
      · obtain ⟨d, rfl, mark⟩ := List.map_eq_singleton_iff.mp (List.cons.inj colons).2
        exact pass (pass awaits (colons.head rfl)) mark
    exact (behind.target target).call call

end Loop.Awaits

end LosslessScss
