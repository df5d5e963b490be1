import LosslessScss.Proofs.Acceptance.Survey
import LosslessScss.Proofs.Extension

/-!
# The extent of a statement

Where a statement ends and which colons it has outside of its groups, told by the marks of its
tokens alone: `Statement.extent` counts the groups that are open and does not look at what the
tokens make up.  What a survey answers depends on the extent only (`Statement.form_of_survey`).
The atoms of a statement keep to its extent: none of them goes beyond the end, and none of them
hides a colon or shows one that is in a group (`Statement.GoesOn.atom`).
-/

namespace LosslessScss

/-! ### Extents -/

/-- With the tokens `ts` a block opens. -/
def OpensBlock (ts : List Token) : Prop := ts.head?.bind Token.mark? = some '\x7b'

instance decidableOpensBlock (ts : List Token) : Decidable (OpensBlock ts) :=
  inferInstanceAs (Decidable (_ = _))

@[simp]
theorem not_opensBlock_nil :
  ¬OpensBlock []
  := nofun

@[simp]
theorem opensBlock_cons {t : Token} {ts : List Token} :
  OpensBlock (t :: ts) ↔ t.mark? = some '\x7b'
  := Iff.rfl

/-- The tokens behind a statement, and the tokens behind each of its colons. -/
structure Extent where
  behind : List Token
  colons : List (List Token)
  deriving DecidableEq, Repr

/-- The extent with other colons in front of its own. -/
def Extent.meeting (x : Extent) (others : List (List Token)) : Extent :=
  { x with colons := others ++ x.colons }

namespace Statement

/-- The tokens `ts` behind the token `t`, if it is a colon that counts: one that is not the first
token of the statement. -/
def colonAt (first : Bool) (t : Token) (ts : List Token) : List (List Token) :=
  if first = false ∧ t.mark? = some ':' then [ts] else []

/-- The extent of a statement of which the tokens `ts` are left, inside of `depth` groups.  The
statement ends outside of every group before a token that ends a run; a colon counts outside of
every group unless it is the first token. -/
def extentFrom (scope : Scope) (depth : Nat) (first : Bool) (ts : List Token) : Extent :=
  match ts with
  | [] => ⟨[], []⟩
  | t :: ts =>
    if depth = 0 ∧ Level.endsRun scope t then ⟨t :: ts, []⟩
    else
      match Group.openedBy? t ts with
      | some g => extentFrom scope (depth + 1) false (ts.drop (g.openerLength - 1))
      | none =>
        (extentFrom scope (if t.closes then depth - 1 else depth) false ts).meeting
          (if depth = 0 then colonAt first t ts else [])
termination_by ts.length
decreasing_by
  all_goals simp only [List.length_drop, List.length_cons]; omega

/-- The extent of the statement at the beginning of `ts`. -/
def extent (scope : Scope) (ts : List Token) : Extent := extentFrom scope 0 true ts

/-- A colon before the tokens `ts` is hard: neither an identifier follows, nor an interpolation,
nor another colon. -/
def hard (ts : List Token) : Bool :=
  match ts with
  | [] => true
  | t :: ts =>
    t.kind ≠ .identifier && Group.openedBy? t ts ≠ some .interpolation && t.mark? ≠ some ':'

variable {e : Ending} {scope : Scope} {first : Bool} {t : Token} {ts us : List Token}

@[simp]
theorem extentFrom_nil (depth : Nat) :
  extentFrom scope depth first [] = ⟨[], []⟩
  := by
  rw [extentFrom]

/-- A statement ends where a run does. -/
theorem extentFrom_ends (ends : Level.endsRun scope t = true) :
  extentFrom scope 0 first (t :: ts) = ⟨t :: ts, []⟩
  := by
  rw [extentFrom]
  exact if_pos ⟨rfl, ends⟩

theorem extentFrom_opened {g : Group} (opened : Group.openedBy? t ts = some g) {depth : Nat}
    (goesOn : 0 < depth ∨ Level.endsRun scope t = false) :
  extentFrom scope depth first (t :: ts)
    = extentFrom scope (depth + 1) false (ts.drop (g.openerLength - 1))
  := by
  have inside : ¬(depth = 0 ∧ Level.endsRun scope t = true) := by
    rintro ⟨rfl, ends⟩
    rw [ends] at goesOn
    obtain no | no := goesOn <;> cases no
  rw [extentFrom, if_neg inside, opened]

theorem extentFrom_unopened (unopened : Group.openedBy? t ts = none) (depth : Nat) :
  extentFrom scope (depth + 1) first (t :: ts)
    = extentFrom scope (if t.closes then depth else depth + 1) false ts
  := by
  rw [extentFrom, if_neg (by simp), unopened]
  simp [Extent.meeting]

/-- Outside of every group a colon counts, and any other token passes. -/
theorem extentFrom_passes (passes : t.Passes ts) (goesOn : Level.endsRun scope t = false) :
  extentFrom scope 0 first (t :: ts) = (extentFrom scope 0 false ts).meeting (colonAt first t ts)
  := by
  rw [extentFrom, if_neg (by simp [goesOn]), passes.opens, passes.closes]
  rfl

/-- Inside of a group the extent of a statement does not depend on balanced tokens. -/
theorem extentFrom_balanced {n : Nat} (balanced : Balanced n ts us) (depth : Nat)
    (first : Bool) :
  extentFrom scope (depth + 1) first ts = extentFrom scope (depth + 1) false us
  := by
  have started (depth : Nat) (first : Bool) (ts : List Token) :
      extentFrom scope (depth + 1) first ts = extentFrom scope (depth + 1) false ts := by
    cases ts with
    | nil => simp
    | cons t ts =>
      cases opened : Group.openedBy? t ts with
      | some g =>
        have inside : 0 < depth + 1 := Nat.succ_pos depth
        rw [extentFrom_opened opened (.inl inside), extentFrom_opened opened (.inl inside)]
      | none => rw [extentFrom_unopened opened, extentFrom_unopened opened]
  induction balanced generalizing depth first with
  | refl => exact started depth first _
  | token passes _ ih =>
    rw [extentFrom_unopened passes.opens, passes.closes]
    exact ih depth false
  | @group n t ts g c us vs opened _ closing _ ih ih' =>
    have closes : c.closes = true := (Token.closes_eq closing).trans g.isCloser_closer
    rw [extentFrom_opened opened (.inl (Nat.succ_pos depth)), ih (depth + 1) false,
      extentFrom_unopened (Group.openedBy?_of_closes closes us), closes]
    exact ih' depth false

/-- A token that opens a group other than a block does not end a run. -/
theorem endsRun_of_openedBy? (scope : Scope) {g : Group} (opened : Group.openedBy? t ts = some g)
    (noBlock : g ≠ .block) :
  Level.endsRun scope t = false
  := by
  unfold Group.openedBy? at opened
  unfold Level.endsRun
  split at opened
  case h_1 mark | h_2 mark | h_4 mark =>
    rw [mark]
    rfl
  case h_3 =>
    cases opened
    exact absurd rfl noBlock
  case h_5 => cases opened

/-- A token that opens a block ends a run. -/
theorem endsRun_of_block (scope : Scope) (opened : Group.openedBy? t ts = some .block) :
  Level.endsRun scope t = true
  := by
  rw [Level.endsRun, Group.openedBy?_eq_block.mp opened]
  rfl

/-- Outside of every group the extent of a statement does not depend on a group that is no
block. -/
theorem extentFrom_group {n : Nat} {g : Group} {ns : List Node}
    (derives : Derives e n (.group g) ts ns us) (noBlock : g ≠ .block) :
  extentFrom scope 0 first ts = extentFrom scope 0 false us
  := by
  cases derives with
  | @group n g o os ts ns c us opening inside closing =>
    obtain ⟨g', opened, closer, behind, block⟩ := opening.openedBy? ts
    have goesOn := endsRun_of_openedBy? scope opened fun is => noBlock (block is)
    have closes : c.closes = true := (Token.closes_eq closing).trans g.isCloser_closer
    rw [List.cons_append, extentFrom_opened opened (.inr goesOn), behind,
      extentFrom_balanced inside.balanced 0 false,
      extentFrom_unopened (Group.openedBy?_of_closes closes us), closes]
    rfl

/-! ### Extents and surveys -/

/-- What is known of colons when others have been met, each before the given tokens. -/
def Colons.meeting (colons : Colons) (others : List (List Token)) : Colons :=
  ⟨colons.met || !others.isEmpty, colons.separating || others.any hard⟩

@[simp]
theorem Colons.meeting_nil (colons : Colons) :
  colons.meeting [] = colons
  := by
  simp [meeting]

end Statement

/-- The form of a statement that ends with the given extent, when other colons have been met. -/
def Extent.form (x : Extent) (colons : Statement.Colons) : Form :=
  if OpensBlock x.behind then (colons.meeting x.colons).formBeforeBlock
  else (colons.meeting x.colons).form

/-- The form by the extent alone. -/
theorem Extent.form_none (x : Extent) :
  x.form ⟨false, false⟩ =
    if OpensBlock x.behind then if x.colons.any Statement.hard then .declaration else .rule
    else if x.colons = [] then .loose else .declaration
  := by
  cases colons : x.colons with
  | nil => simp [form, colons, Statement.Colons.formBeforeBlock, Statement.Colons.form]
  | cons =>
    simp [form, colons, Statement.Colons.meeting, Statement.Colons.formBeforeBlock,
      Statement.Colons.form]

/-- Colons that have been met count as those of the extent do. -/
theorem Extent.form_meeting (x : Extent) (colons : Statement.Colons)
    (others : List (List Token)) :
  x.form (colons.meeting others) = (x.meeting others).form colons
  := by
  have meeting :
      (colons.meeting others).meeting x.colons = colons.meeting (others ++ x.colons) := by
    cases others <;> simp [Statement.Colons.meeting, Bool.or_assoc]
  rw [form, form, meeting]
  rfl

namespace Statement

variable {e : Ending} {scope : Scope} {colons : Colons} {first : Bool} {t : Token}
  {ts : List Token} {form : Form}

theorem interpolation_of_seen {seen : Bool} (looks : e.atInterpolation (t :: ts) = .ok seen) :
  Group.openedBy? t ts = some .interpolation ↔ seen = true
  := by
  rw [Ending.atInterpolation] at looks
  by_cases hash : t.mark? = some '#'
  · rw [if_pos hash] at looks
    rw [Group.openedBy?, hash]
    cases ts with
    | nil =>
      cases e <;> cases looks
      simp
    | cons u us =>
      cases looks
      by_cases curly : u.mark? = some '\x7b'
      · simp [curly]
      · simp [curly]
  · rw [if_neg hash] at looks
    cases looks
    unfold Group.openedBy?
    split
    all_goals simp_all

/-- What a survey sees behind a colon tells whether it is hard. -/
theorem hard_of_seen {name colon : Bool} (named : e.atName ts = .ok name)
    (double : e.atMark ':' ts = .ok colon) :
  hard ts = !(name || colon)
  := by
  cases ts with
  | nil =>
    cases e with
    | finished => cases named; cases double; rfl
    | broken => cases named
  | cons t ts =>
    cases double
    rw [Ending.atName] at named
    by_cases identifier : t.kind = .identifier
    · rw [if_pos identifier] at named
      cases named
      simp [hard, identifier]
    · rw [if_neg identifier] at named
      simp [hard, identifier, interpolation_of_seen named]

/-- A token that does not end a run is passed, and counts if it is a colon. -/
theorem turn_goesOn (goesOn : Level.endsRun scope t = false) {turned : Turn}
    (turns : turn e scope false first colons t ts = .ok turned) :
  turned = .passed (colons.meeting (colonAt first t ts))
  := by
  unfold Level.endsRun at goesOn
  unfold turn at turns
  split at turns
  case h_1 mark | h_2 mark | h_3 mark | h_4 mark | h_5 mark =>
    rw [mark] at goesOn
    cases goesOn
  case h_6 mark =>
    rw [mark] at goesOn
    have statements : scope ≠ .entries := of_decide_eq_false goesOn
    simp only [Bool.not_false, Bool.true_and, statements, decide_false, Bool.false_eq_true,
      if_false] at turns
    cases turns
    simp [colonAt, mark]
  case h_7 mark =>
    cases first with
    | true =>
      cases turns
      simp [colonAt]
    | false =>
      cases named : e.atName ts with
      | error => rw [named] at turns; cases turns
      | ok name =>
        cases double : e.atMark ':' ts with
        | error => rw [named, double] at turns; cases turns
        | ok colon =>
          rw [named, double] at turns
          cases turns
          simp [colonAt, Colons.meeting, mark, hard_of_seen named double]
  case h_8 other =>
    cases turns
    have noColon : t.mark? ≠ some ':' := other
    simp [colonAt, noColon]

/-- A token that ends a run settles the form by the colons met so far. -/
theorem plainSurveyFrom_ends (ends : Level.endsRun scope t = true)
    (begun : first = true → ¬OpensBlock (t :: ts)) :
  plainSurveyFrom e scope 0 first colons (t :: ts) = .ok (Extent.form ⟨t :: ts, []⟩ colons)
  := by
  unfold Level.endsRun at ends
  rw [plainSurveyFrom, openerLength, turn, Extent.form]
  split at ends
  case h_2 mark =>
    have goesOn : first = false := by simpa [mark] using begun
    simp [mark, goesOn, bind, Except.bind, pure, Except.pure]
  case h_1 mark | h_3 mark | h_4 mark | h_5 mark =>
    simp [mark, bind, Except.bind, pure, Except.pure]
  case h_6 mark =>
    simp [mark, of_decide_eq_true ends, bind, Except.bind, pure, Except.pure]
  case h_7 => cases ends

/-- A survey goes on behind a token that neither ends a run nor opens a group. -/
theorem plainSurveyFrom_goesOn (unopened : Group.openedBy? t ts = none)
    (goesOn : Level.endsRun scope t = false)
    (survey : plainSurveyFrom e scope 0 first colons (t :: ts) = .ok form) :
  plainSurveyFrom e scope 0 false (colons.meeting (colonAt first t ts)) ts = .ok form
  := by
  rw [plainSurveyFrom] at survey
  simp only [Nat.lt_irrefl, decide_false] at survey
  cases length : openerLength e false t ts with
  | error => rw [length] at survey; cases survey
  | ok n =>
    obtain ⟨g, opened, _⟩ | ⟨rfl, _⟩ := openerLength_eq_ok length
    · rw [unopened] at opened
      cases opened
    · rw [length] at survey
      cases turns : turn e scope false first colons t ts with
      | error => simp only [turns] at survey; cases survey
      | ok turned =>
        obtain rfl := turn_goesOn goesOn turns
        simp only [turns] at survey
        exact survey

/-- The form that a survey finds is that of the extent. -/
theorem form_of_survey {depth : Nat}
    (survey : plainSurveyFrom e scope depth first colons ts = .ok form)
    (begun : first = true → ¬OpensBlock ts) :
  form = (extentFrom scope depth first ts).form colons
  := by
  fun_induction extentFrom scope depth first ts generalizing colons with
  | case1 =>
    rw [plainSurveyFrom_nil] at survey
    cases reached : e.reach with
    | error => rw [reached] at survey; cases survey
    | ok =>
      rw [reached] at survey
      cases survey
      simp [Extent.form]
  | case2 depth first t ts ends =>
    obtain ⟨rfl, ends⟩ := ends
    rw [plainSurveyFrom_ends ends begun] at survey
    exact (Except.ok.inj survey).symm
  | case3 depth first t ts goesOn g opened ih =>
    have shown : g = .block → 0 < depth := by
      rintro rfl
      apply Nat.pos_of_ne_zero
      exact fun outside => goesOn ⟨outside, endsRun_of_block scope opened⟩
    rw [plainSurveyFrom_opened opened scope shown] at survey
    exact ih survey nofun
  | case4 depth first t ts goesOn unopened ih =>
    cases depth with
    | zero =>
      have goesOn : Level.endsRun scope t = false := by simpa using goesOn
      have closes := (closes_of_endsRun scope goesOn).1
      rw [closes] at ih ⊢
      rw [ih (plainSurveyFrom_goesOn unopened goesOn survey) nofun, Extent.form_meeting]
      rfl
    | succ depth =>
      rw [plainSurveyFrom_unopened unopened] at survey
      exact ih survey nofun

end Statement

/-! ### Extents and atoms -/

namespace Statement

/-- A statement goes on from the tokens `ts` to the tokens `us` outside of every group and meets
colons before the tokens `cs`. -/
def GoesOn (scope : Scope) (first : Bool) (ts : List Token) (cs : List (List Token))
    (us : List Token) : Prop :=
  extentFrom scope 0 first ts = (extentFrom scope 0 false us).meeting cs

namespace GoesOn

variable {e : Ending} {n : Nat} {scope : Scope} {first : Bool} {t : Token}
  {ts us vs : List Token} {cs ds : List (List Token)} {ns : List Node}

theorem refl (scope : Scope) (ts : List Token) :
  GoesOn scope false ts [] ts
  := rfl

theorem trans (one : GoesOn scope first ts cs us) (others : GoesOn scope false us ds vs) :
  GoesOn scope first ts (cs ++ ds) vs
  := by
  unfold GoesOn at *
  rw [one, others, Extent.meeting, Extent.meeting, Extent.meeting, List.append_assoc]

/-- As long as a statement goes on its end is the same. -/
theorem behind (goesOn : GoesOn scope first ts cs us) :
  (extentFrom scope 0 first ts).behind = (extentFrom scope 0 false us).behind
  := by
  rw [goesOn]
  rfl

/-- A token that passes and is no colon. -/
theorem token (passes : t.Passes ts) (goesOn : Level.endsRun scope t = false)
    (noColon : t.mark? ≠ some ':') :
  GoesOn scope first (t :: ts) [] ts
  := by
  rw [GoesOn, extentFrom_passes passes goesOn, colonAt, if_neg fun colon => noColon colon.2]

theorem noMark (noMark : t.mark? = none) :
  GoesOn scope first (t :: ts) [] ts
  := by
  apply token (.of_noMark noMark)
  · rw [Level.endsRun, noMark]
  · rw [noMark]
    rintro ⟨⟩

theorem group {g : Group} (derives : Derives e n (.group g) ts ns us) (noBlock : g ≠ .block) :
  GoesOn scope first ts [] us
  := extentFrom_group derives noBlock

theorem call {m : Node} (derives : Derives e n (.call m) ts ns us) :
  GoesOn scope false ts [] us
  := by
  cases derives with
  | callNone => exact refl scope ts
  | callArguments arguments => exact group arguments nofun

theorem segments {start : Bool} (derives : Derives e n (.segments start) ts ns us) :
  GoesOn scope false ts [] us
  := by
  generalize phrase : Phrase.segments start = p at derives
  induction derives generalizing start with
  | segmentsEnd => exact refl scope _
  | @segmentsCons _ _ _ ts us _ _ one _ _ ih =>
    cases phrase
    have first : GoesOn scope false ts [] us := by
      cases one with
      | segmentToken continues => exact noMark (Level.mark?_of_continuesName continues)
      | segmentInterpolation interpolation => exact group interpolation nofun
    exact first.trans (ih rfl)
  | _ => cases phrase

theorem target (derives : Derives e n .target ts ns us) :
  GoesOn scope first ts [] us
  := by
  cases derives with
  | targetName name => exact noMark (Token.mark?_of_identifier _ name)
  | targetInterpolation interpolation => exact group interpolation nofun

theorem colon (mark : t.mark? = some ':') :
  GoesOn scope first (t :: ts) (colonAt first t ts) ts
  := by
  apply extentFrom_passes (.of_mark mark rfl (by decide) nofun)
  rw [Level.endsRun, mark]
  rfl

/-- The colons in front of a pseudo class or a pseudo element. -/
theorem colons {kind : Kind} (which : kind = .pseudoClass ∨ kind = .pseudoElement)
    {os : List Token} (marks : Marks (t :: os) kind.opening) :
  ∃ cs, GoesOn scope first (t :: os ++ ts) cs ts
  := by
  obtain rfl | rfl := which
  · obtain rfl : os = [] := List.map_eq_nil_iff.mp (List.cons.inj marks).2
    exact ⟨_, colon (marks.head rfl)⟩
  · obtain ⟨d, rfl, mark⟩ := List.map_eq_singleton_iff.mp (List.cons.inj marks).2
    exact ⟨_, (colon (marks.head rfl)).trans (colon mark)⟩

/-- A statement goes on behind an atom.  It meets a colon only if that is the atom, or in a
selector. -/
theorem atom {selector : Bool} (derives : Derives e n (.atom selector) (t :: ts) ns us)
    (goesOn : Level.endsRun scope t = false) (first : Bool) :
  ∃ cs, GoesOn scope first (t :: ts) cs us ∧
    (selector = false → t.mark? ≠ some ':' → cs = [])
  := by
  generalize tokens : t :: ts = ts' at derives
  cases derives with
  | atomToken _ lone =>
    cases tokens
    refine ⟨_, extentFrom_passes lone.passes goesOn, fun _ noColon => ?_⟩
    exact if_neg fun colon => noColon colon.2
  | atomName name call' =>
    cases tokens
    exact ⟨_, (noMark (Token.mark?_of_identifier _ name)).trans (call call'), fun _ _ => rfl⟩
  | atomGroup _ group' =>
    subst tokens
    refine ⟨_, group group' ?_, fun _ _ => rfl⟩
    rintro rfl
    have ends := group'.block_stops scope t rfl
    rw [goesOn] at ends
    cases ends
  | atomInterpolation interpolation call' =>
    subst tokens
    exact ⟨_, (group interpolation nofun).trans (call call'), fun _ _ => rfl⟩
  | atomCompound which sigil noGroup _ segments' =>
    cases tokens
    obtain ⟨passes, noColon⟩ := passes_of_sigil which sigil noGroup
    exact ⟨_, (token passes goesOn noColon).trans (segments segments'), fun _ _ => rfl⟩
  | atomPseudo which colons' _ target' call' =>
    cases tokens
    obtain ⟨cs, behind⟩ := colons which colons'
    exact ⟨_, (behind.trans (target target')).trans (call call'), nofun⟩

end GoesOn

end Statement

end LosslessScss
