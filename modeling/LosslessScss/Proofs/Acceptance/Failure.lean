import LosslessScss.Proofs.Acceptance.Survey
import LosslessScss.Proofs.Grammar.Completeness

/-!
# Failures of the parser

A level of nesting fails where a walk through the brackets does, or with what stands past the
last token, if its groups do so (`Level.Strict`).  Each function of a level is shown to fail
there and nowhere else: what it reads before it fails is balanced, and so a walk goes through
it.  A group of the next outer level then fails where a walk does as well, and so do all
levels by induction on the number of groups that may be nested (`levels_strict`).
-/

namespace LosslessScss

/-- A failure is that of a walk from the tokens `ts` on, or what stands past the last token. -/
def Blames (e : Ending) (opened : List Opener) (ts : List Token) (f : Failure) : Prop :=
  walk e.reach opened ts = .error f ∨ e.reach = .error f

section

variable {e : Ending} {opened : List Opener} {α β : Type}

/-- A look ahead fails only with what stands past the last token. -/
theorem Fails.look {ts : List Token} {x : Except Failure α} {f : α → Except Failure β}
    (past : Fails x fun g => e.reach = .error g)
    (second : ∀ a, x = .ok a → Fails (f a) (Blames e opened ts)) :
  Fails (x >>= f) (Blames e opened ts)
  := (past.mono fun _ => .inr).bind second

/-- To fail behind balanced tokens is to fail. -/
theorem Fails.behind {n : Nat} {ts us : List Token} {x : Except Failure α}
    (balanced : Balanced n ts us)
    (depth : opened.length + n = maxNesting) (h : Fails x (Blames e opened us)) :
  Fails x (Blames e opened ts)
  := by
  apply h.mono
  intro f blames
  rwa [Blames, walk_balanced balanced depth]

/-- What is read first takes balanced tokens, behind which the second step is made. -/
theorem Fails.step {n : Nat} {ts : List Token} {x : Except Failure (α × State)}
    {f : α × State → Except Failure β} (depth : opened.length + n = maxNesting)
    (first : Fails x (Blames e opened ts)) (moves : Ensures x fun r => Balanced n ts r.2.tokens)
    (second : ∀ r, x = .ok r → Fails (f r) (Blames e opened r.2.tokens)) :
  Fails (x >>= f) (Blames e opened ts)
  := by
  apply first.bind
  intro r read
  exact (second r read).behind (moves.of_eq r read) depth

end

/-- A level that reads by the rules and whose groups fail where a walk does. -/
structure Level.Strict (L : Level) (n : Nat) : Prop where
  sound : L.Sound n
  group : ∀ g s opened, opened.length + n = maxNesting → g.Opens s.tokens →
    Fails (L.group g s) (Blames L.ending opened s.tokens)

namespace Level.Strict

variable {L : Level} {n : Nat} {opened : List Opener} (strict : L.Strict n)
  (depth : opened.length + n = maxNesting)

theorem next_eq {L : Level} {s : State} {t : Token} {ts : List Token}
    (tokens : s.tokens = t :: ts) :
  L.next s = .ok (t, s.advance ts)
  := by
  rw [Level.next, tokens]

include strict depth

theorem call (caller : Node) (s : State) :
  Fails (L.call caller s) (Blames L.ending opened s.tokens)
  := by
  apply Fails.look (L.ending.fails_atMark s.tokens '(')
  intro opens look
  cases opens with
  | true =>
    apply (strict.group .arguments s opened depth (.of_atMark look rfl)).bind
    intro (a, s₁) _
    exact Fails.ok
  | false => exact Fails.ok

theorem single {s : State} {t : Token} {ts : List Token} (tokens : s.tokens = t :: ts) :
  Fails (L.single s) (Blames L.ending opened s.tokens)
  := by
  rw [Level.single, next_eq tokens, tokens]
  change Fails (if t.kind = .identifier then L.call (.leaf t) (s.advance ts) else .ok _) _
  split
  case isTrue name =>
    have passes : Balanced n (t :: ts) ts := .token (.of_kind (by simp [name])) .refl
    exact (strict.call depth (.leaf t) (s.advance ts)).behind passes depth
  case isFalse => exact Fails.ok

theorem segment (first : Bool) (s : State) :
  Fails (L.segment first s) (Blames L.ending opened s.tokens)
  := by
  apply Fails.look (L.ending.fails_atInterpolation s.tokens)
  intro opens look
  cases opens with
  | true =>
    apply (strict.group .interpolation s opened depth (.of_atInterpolation look)).bind
    intro _ _
    exact Fails.ok
  | false =>
    rw [if_neg Bool.false_ne_true]
    split
    · exact Fails.ok
    · split
      · exact Fails.ok
      · exact Fails.ok

omit strict in
/-- What is read one after another fails where a walk does, if every reading keeps to what is
`expected` of the state and fails where a walk does. -/
theorem collects {α : Type} {read : State → Except Failure (Option (α × State))}
    (advances : AdvancesIfSome read) (expected : State → Prop)
    (step : ∀ s, expected s → Fails (read s) (Blames L.ending opened s.tokens))
    (moves : ∀ s a s', expected s → read s = .ok (some (a, s')) →
      expected s' ∧ Balanced n s.tokens s'.tokens)
    (s : State) (holds : expected s) :
  Fails (collect read advances s) (Blames L.ending opened s.tokens)
  := by
  fun_induction collect read advances s with
  | case1 s f h => exact Fails.error ((step s holds).of_eq f h)
  | case2 => exact Fails.ok
  | case3 s a s' h ih =>
    obtain ⟨holds', balanced⟩ := moves s a s' holds h
    apply ((ih holds').behind balanced depth).bind
    intro _ _
    exact Fails.ok

theorem segments (s : State) :
  Fails (L.segments s) (Blames L.ending opened s.tokens)
  := by
  have balanced (first : Bool) (s : State) (m : Node) (s' : State)
      (read : L.segment first s = .ok (some (m, s'))) : Balanced n s.tokens s'.tokens :=
    ((strict.sound.segment first s).of_eq _ read).balanced
  apply (strict.segment depth true s).bind
  intro r first
  cases r with
  | none => exact Fails.ok
  | some pair =>
    obtain ⟨m, s₁⟩ := pair
    have others := collects depth (L.segment_advances false) (fun _ => True)
      (fun s _ => strict.segment depth false s)
      (fun s m s' _ read => ⟨trivial, balanced false s m s' read⟩) s₁ trivial
    apply (others.behind (balanced true s m s₁ first) depth).bind
    intro _ _
    exact Fails.ok

theorem compound (kind : Kind) {s : State} {t : Token} {ts : List Token}
    (tokens : s.tokens = t :: ts) (passes : t.Passes ts) :
  Fails (L.compound kind s) (Blames L.ending opened s.tokens)
  := by
  rw [Level.compound, next_eq tokens, tokens]
  apply ((strict.segments depth (s.advance ts)).behind (.token passes .refl) depth).bind
  intro _ _
  exact Fails.ok

theorem target (s : State) (named : L.ending.atName s.tokens = .ok true) :
  Fails (L.target s) (Blames L.ending opened s.tokens)
  := by
  apply Fails.look (L.ending.fails_atInterpolation s.tokens)
  intro opens look
  cases opens with
  | true => exact strict.group .interpolation s opened depth (.of_atInterpolation look)
  | false =>
    obtain ⟨t, ts, tokens, _⟩ | interpolation := Ending.exists_of_atName named
    · rw [if_neg Bool.false_ne_true, next_eq tokens]
      exact Fails.ok
    · rw [look] at interpolation
      cases interpolation

theorem pseudo {kind : Kind} (which : kind = .pseudoClass ∨ kind = .pseudoElement) {s : State}
    {c : Token} (cs : List Token) {ts : List Token} (tokens : s.tokens = c :: cs ++ ts)
    (colons : Marks (c :: cs) kind.opening) (named : L.ending.atName ts = .ok true) :
  Fails (L.pseudo kind s) (Blames L.ending opened s.tokens)
  := by
  obtain ⟨⟨_, s₁⟩, read, rfl, rfl⟩ := Level.Reads.colons which colons s tokens
  rw [Level.pseudo, read, tokens]
  apply Fails.behind (balanced_of_colons which colons n s₁.tokens) depth
  apply Fails.step depth (strict.target depth s₁ named)
    ((strict.sound.target s₁ named).mono fun _ derives => derives.balanced)
  intro (m, s₂) _
  apply (strict.call depth m s₂).bind
  intro _ _
  exact Fails.ok

theorem atHash {s : State} {t : Token} {ts : List Token} (tokens : s.tokens = t :: ts)
    (mark : t.mark? = some '#') :
  Fails (L.atHash ts s) (Blames L.ending opened s.tokens)
  := by
  apply Fails.look (L.ending.fails_atMark ts '\x7b')
  intro opens look
  cases opens with
  | true =>
    have opening : Group.interpolation.Opens s.tokens := by
      rw [tokens]
      apply Group.Opens.of_atInterpolation (e := L.ending)
      rw [Ending.atInterpolation, if_pos mark]
      exact look
    apply Fails.step depth (strict.group .interpolation s opened depth opening)
      ((strict.sound.group .interpolation s opening).mono fun _ derives => derives.balanced)
    rintro ⟨m, s₁⟩ _
    exact strict.call depth m s₁
  | false =>
    apply Fails.look (L.ending.fails_atName ts)
    intro named _
    cases named with
    | true =>
      apply strict.compound depth .idName tokens
      exact .of_mark mark rfl (by decide) fun _ => Ending.head_of_atMark look
    | false => exact strict.single depth tokens

theorem atPoint {s : State} {t : Token} {ts : List Token} (tokens : s.tokens = t :: ts)
    (mark : t.mark? = some '.') :
  Fails (L.atPoint ts s) (Blames L.ending opened s.tokens)
  := by
  apply Fails.look (L.ending.fails_atName ts)
  intro named _
  cases named with
  | true => exact strict.compound depth .className tokens (.of_mark mark rfl (by decide) nofun)
  | false => exact strict.single depth tokens

theorem atColon {s : State} {t : Token} {ts : List Token} (tokens : s.tokens = t :: ts)
    (mark : t.mark? = some ':') :
  Fails (L.atColon ts s) (Blames L.ending opened s.tokens)
  := by
  apply Fails.look (L.ending.fails_atMark ts ':')
  intro double look
  cases double with
  | true =>
    apply Fails.look (L.ending.fails_atName ts.tail)
    intro named look'
    cases named with
    | true =>
      obtain ⟨u, us, rfl, mark'⟩ := Ending.exists_of_atMark look
      apply strict.pseudo depth (.inr rfl) [u] tokens _ look'
      rw [Marks, List.map_cons, List.map_singleton, mark, mark']
      rfl
    | false => exact strict.single depth tokens
  | false =>
    apply Fails.look (L.ending.fails_atName ts)
    intro named look'
    cases named with
    | true =>
      apply strict.pseudo depth (.inl rfl) [] tokens _ look'
      rw [Marks, List.map_singleton, mark]
      rfl
    | false => exact strict.single depth tokens

/-- An atom fails where a walk does, if it does not close a group. -/
theorem atom (selector : Bool) {s : State} {t : Token} {ts : List Token}
    (tokens : s.tokens = t :: ts) (goesOn : t.closes = false) :
  Fails (L.atom selector s) (Blames L.ending opened s.tokens)
  := by
  have group {g : Group} {c : Char} (mark : t.mark? = some c)
      (opening : g.kind.opening.toList = [c]) :
      Fails (L.group g s) (Blames L.ending opened s.tokens) :=
    strict.group g s opened depth (tokens ▸ .of_mark mark opening)
  have single := strict.single depth tokens
  unfold Level.atom
  split
  next none => rw [none] at tokens; cases tokens
  next tokens' =>
    rw [tokens'] at tokens
    cases tokens
    split
    next mark => exact strict.atHash depth tokens' mark
    next mark => exact strict.atPoint depth tokens' mark
    next mark => exact group mark rfl
    next mark => exact group mark rfl
    next mark => exact group mark rfl
    next mark =>
      cases selector with
      | true => exact strict.atColon depth tokens' mark
      | false => exact single
    next mark =>
      rw [Token.closes_eq mark] at goesOn
      rw [if_neg (by simp [goesOn])]
      exact single
    next => exact single

/-! ### Failures of loops and statements -/

theorem loop (loop : Loop) (scope : Scope) (s : State)
    (awaits : loop.Awaits L.ending scope s.tokens) :
  Fails (L.loop loop s) (Blames L.ending opened s.tokens)
  := by
  apply collects depth (L.loopAtom_advances loop)
    (fun s => loop.Awaits L.ending scope s.tokens) _ _ s awaits
  · intro s awaits
    cases tokens : s.tokens with
    | nil =>
      obtain ⟨_, ends⟩ | ⟨mayNot, _⟩ := L.loopAtom_nil loop tokens
      · rw [ends]
        exact Fails.look L.ending.fails_reach fun _ _ => Fails.ok
      · rw [tokens] at awaits
        rw [awaits.stopsAtEnd] at mayNot
        cases mayNot
    | cons t ts =>
      rw [L.loopAtom_cons loop tokens]
      split
      case isTrue => exact Fails.ok
      case isFalse goesOn =>
        rw [tokens] at awaits
        have closes := (awaits.goesOn (Bool.eq_false_iff.mpr goesOn)).1
        rw [← tokens]
        apply (strict.atom depth loop.inSelector tokens closes).bind
        intro _ _
        exact Fails.ok
  · intro s m s' awaits read
    obtain ⟨⟨t, ts, tokens, goesOn⟩, derives⟩ := (strict.sound.loopAtom loop s).of_eq _ read
    rw [tokens] at awaits derives ⊢
    exact ⟨awaits.atom goesOn derives, derives.balanced⟩

theorem run (scope : Scope) (selector : Bool) (s : State) :
  Fails (L.run scope selector s) (Blames L.ending opened s.tokens)
  := strict.loop depth (.run scope selector) scope s trivial

omit strict depth in
theorem terminator (c : Char) (s : State) :
  Fails (L.terminator c s) (Blames L.ending opened s.tokens)
  := by
  apply Fails.look (L.ending.fails_atMark s.tokens c)
  intro there look
  cases there with
  | true =>
    obtain ⟨t, ts, tokens, _⟩ := Ending.exists_of_atMark look
    rw [if_pos rfl, next_eq tokens]
    exact Fails.ok
  | false => exact Fails.ok

theorem rule (scope : Scope) (s : State)
    (survey : Statement.plainSurvey L.ending scope s.tokens = .ok .rule) :
  Fails (L.rule s) (Blames L.ending opened s.tokens)
  := by
  apply Fails.step depth (strict.loop depth .selector scope s ⟨_, _, survey⟩)
    ((strict.sound.loop .selector s).mono fun _ derives => derives.balanced)
  intro (ms, s₁) read
  have opening : Group.block.Opens s₁.tokens := by
    have derives := (strict.sound.loop .selector s).of_eq _ read
    obtain ⟨u, us, rest, stops⟩ | ⟨_, stops⟩ := derives.atoms_end
    · exact rest ▸ .of_mark (of_decide_eq_true stops) rfl
    · cases stops
  apply (strict.group .block s₁ opened depth opening).bind
  intro _ _
  exact Fails.ok

theorem conclusion (scope : Scope) (s : State) :
  Fails (L.conclusion scope s) (Blames L.ending opened s.tokens)
  := by
  apply Fails.look (L.ending.fails_atMark s.tokens '\x7b')
  intro block look
  cases block with
  | true =>
    have opening : Group.block.Opens s.tokens := .of_atMark look rfl
    apply Fails.step depth (strict.group .block s opened depth opening)
      ((strict.sound.group .block s opening).mono fun _ derives => derives.balanced)
    rintro ⟨b, s₁⟩ _
    apply (terminator ';' s₁).bind
    intro _ _
    exact Fails.ok
  | false =>
    apply Fails.look (L.ending.fails_atMark s.tokens ';')
    intro semicolon _
    cases semicolon with
    | true =>
      apply (terminator ';' s).bind
      intro _ _
      exact Fails.ok
    | false =>
      cases scope with
      | statements => exact Fails.ok
      | entries =>
        apply (terminator ',' s).bind
        intro _ _
        exact Fails.ok

theorem declaration (scope : Scope) (s : State)
    (survey : Statement.plainSurvey L.ending scope s.tokens = .ok .declaration) :
  Fails (L.declaration scope s) (Blames L.ending opened s.tokens)
  := by
  apply Fails.step depth (strict.loop depth .property scope s ⟨_, survey⟩)
    ((strict.sound.loop .property s).mono fun _ derives => derives.balanced)
  intro (ps, s₁) read
  have derives := (strict.sound.loop .property s).of_eq _ read
  obtain ⟨c, us, rest, stops⟩ | ⟨_, stops⟩ := derives.atoms_end
  · have passes : Balanced n (c :: us) us :=
      .token (.of_mark (of_decide_eq_true stops) rfl (by decide) nofun) .refl
    dsimp only at rest ⊢
    rw [next_eq rest, rest]
    apply Fails.behind passes depth
    apply Fails.step depth (strict.run depth scope false (s₁.advance us))
      ((strict.sound.loop (.run scope false) _).mono fun _ derives => derives.balanced)
    intro (ms, s₃) _
    apply (strict.conclusion depth scope s₃).bind
    intro _ _
    exact Fails.ok
  · cases stops

theorem head (s : State) :
  Fails (L.head s) (Blames L.ending opened s.tokens)
  := by
  obtain ⟨blanks, rest, tokens, blank, _, head⟩ := L.head_eq s
  rw [head]
  apply Fails.look (L.ending.fails_atCall rest)
  intro call look
  cases call with
  | true =>
    obtain ⟨t, u, us, rfl, name, mark⟩ := Ending.exists_of_atCall look
    have tokens' : s.tokens = blanks ++ [t] ++ (u :: us) := by
      rw [tokens, List.append_assoc]
      rfl
    obtain ⟨⟨_, s₁⟩, read, rfl, rest⟩ := Level.Reads.leaves (L := L) (blanks ++ [t]) s tokens'
    have length : blanks.length + 1 = (blanks ++ [t]).length := by simp
    rw [if_pos rfl, length, read, tokens]
    have passes : Balanced n (blanks ++ t :: u :: us) (u :: us) :=
      (balanced_of_blanks blank n _).trans (.token (.of_kind (by simp [name])) .refl)
    apply Fails.behind passes depth
    have group := strict.group .arguments s₁ opened depth (rest ▸ .of_mark mark rfl)
    rw [rest] at group
    apply group.bind
    intro _ _
    exact Fails.ok
  | false => exact Fails.ok

theorem tail (s : State) :
  Fails (L.tail s) (Blames L.ending opened s.tokens)
  := by
  apply Fails.look (L.ending.fails_atMark s.tokens '\x7b')
  intro block look
  cases block with
  | true =>
    apply (strict.group .block s opened depth (.of_atMark look rfl)).bind
    intro _ _
    exact Fails.ok
  | false => exact terminator ';' s

theorem atRule (scope : Scope) {s : State} {t : Token} {ts : List Token}
    (tokens : s.tokens = t :: ts) (keyword : t.kind = .atKeyword) :
  Fails (L.atRule scope s) (Blames L.ending opened s.tokens)
  := by
  rw [Level.atRule, next_eq tokens, tokens]
  apply Fails.behind (.token (.of_kind (by simp [keyword])) .refl) depth
  apply Fails.step depth (strict.head depth (s.advance ts))
    ((strict.sound.head _).mono fun _ derives => derives.balanced)
  intro (hs, s₂) _
  apply Fails.step depth (strict.run depth scope true s₂)
    ((strict.sound.loop (.run scope true) _).mono fun _ derives => derives.balanced)
  intro (ps, s₃) _
  apply (strict.tail depth s₃).bind
  intro _ _
  exact Fails.ok

theorem loose (scope : Scope) {s : State} {t : Token} {ts : List Token}
    (tokens : s.tokens = t :: ts) (goesOn : t.closes = false) :
  Fails (L.loose scope s) (Blames L.ending opened s.tokens)
  := by
  apply Fails.step depth (strict.atom depth false tokens goesOn)
    ((strict.sound.atom false s).mono fun _ derives => derives.balanced)
  intro (m, s₁) _
  dsimp only
  split
  · exact Fails.ok
  · apply (strict.run depth scope false s₁).bind
    intro _ _
    exact Fails.ok

omit strict depth in
theorem alone {read : State → Except Failure (Node × State)} {s : State}
    (fails : Fails (read s) (Blames L.ending opened s.tokens)) :
  Fails (Level.alone read s) (Blames L.ending opened s.tokens)
  := by
  apply fails.bind
  intro _ _
  exact Fails.ok

theorem surveyed (scope : Scope) {s : State} {t : Token} {ts : List Token}
    (tokens : s.tokens = t :: ts) (goesOn : t.closes = false) :
  Fails (L.surveyed scope s) (Blames L.ending opened s.tokens)
  := by
  have past : Fails (Survey.plain L.ending scope s.taken s.memory s.tokens)
      fun f => L.ending.reach = .error f :=
    (Statement.fails_plainSurveyFrom L.ending scope 0 true ⟨false, false⟩ s.tokens).bind
      fun _ _ => Fails.ok
  rw [Level.surveyed, strict.sound.survey]
  apply Fails.look past
  rintro ⟨form, memory⟩ plain
  have survey := Survey.plain_eq_ok plain
  cases form with
  | rule => exact alone (strict.rule depth scope { s with memory } survey)
  | declaration => exact alone (strict.declaration depth scope { s with memory } survey)
  | loose => exact strict.loose depth scope (s := { s with memory }) tokens goesOn

theorem statement (scope : Scope) {s : State} {t : Token} {ts : List Token}
    (tokens : s.tokens = t :: ts) (goesOn : t.closes = false) :
  Fails (L.statement scope s) (Blames L.ending opened s.tokens)
  := by
  have surveyed := strict.surveyed depth scope tokens goesOn
  unfold Level.statement
  split
  next none => rw [none] at tokens; cases tokens
  next tokens' =>
    split
    · exact Fails.ok
    · split
      case isTrue keyword => exact alone (strict.atRule depth scope tokens' keyword)
      case isFalse => exact surveyed

/-! ### Failures of sequences and groups -/

omit strict depth in
/-- A sequence of statements stands in the innermost of the groups that are open. -/
def Fits (around : Surroundings) (opened : List Opener) : Prop :=
  opened.head? = match around with
    | .top => none
    | .inside g place => some ⟨g.closer, place⟩

theorem sequenceStatement (around : Surroundings) (fits : Fits around opened) (s : State) :
  Fails (L.sequenceStatement around s) (Blames L.ending opened s.tokens)
  := by
  have goesOn {t : Token} {ts : List Token} (tokens : s.tokens = t :: ts)
      (closes : t.closes = false) :
      Fails (found (L.statement around.scope) s) (Blames L.ending opened s.tokens) := by
    apply (strict.statement depth around.scope tokens closes).bind
    intro _ _
    exact Fails.ok
  unfold Level.sequenceStatement
  split
  next tokens =>
    apply Fails.look L.ending.fails_reach
    intro _ reached
    cases around with
    | top => exact Fails.ok
    | inside g place =>
      apply Fails.error
      left
      obtain ⟨opened, rfl⟩ := List.head?_eq_some_iff.mp fits
      rw [tokens, walk, reached]
      rfl
  next t ts tokens =>
    split
    next c mark =>
      split
      case isTrue => exact Fails.ok
      case isFalse noCloser =>
        split
        case isTrue closes =>
          apply Fails.error
          left
          rw [tokens]
          apply walk_unexpected mark closes
          rw [fits]
          cases around with
          | top => exact (Option.some_ne_none c).symm
          | inside g place => exact noCloser
        case isFalse other =>
          exact goesOn tokens ((Token.closes_eq mark).trans (Bool.eq_false_iff.mpr other))
    next mark => exact goesOn tokens (Token.closes_of_noMark mark)

theorem sequence (around : Surroundings) (fits : Fits around opened) (s : State) :
  Fails (L.sequence around s) (Blames L.ending opened s.tokens)
  := by
  have statements := collects depth (L.sequenceStatement_advances around) (fun _ => True)
    (fun s _ => strict.sequenceStatement depth around fits s)
    (fun s ms s' _ read =>
      ⟨trivial, ((strict.sound.sequenceStatement around s).of_eq _ read).2.balanced⟩) s trivial
  apply statements.bind
  intro _ _
  exact Fails.ok

omit depth in
/-- A group fails where a walk does, if its content does. -/
theorem enclosed (g : Group) (s : State) (opened : List Opener)
    (depth : opened.length + (n + 1) = maxNesting) (opens : g.Opens s.tokens) :
  Fails (L.enclosed g s) (Blames L.ending opened s.tokens)
  := by
  obtain ⟨os, ts, tokens, opening⟩ := opens
  have count : os.length = g.openerLength := opening.length.trans g.length_opening_kind
  obtain ⟨o, os', rfl⟩ :=
    List.exists_cons_of_length_pos (Nat.lt_of_lt_of_eq g.openerLength_pos count.symm)
  obtain ⟨g', openedBy, closer, behind, _⟩ := opening.openedBy? ts
  have moved : walk L.ending.reach opened s.tokens
      = walk L.ending.reach (⟨g.closer, o.start⟩ :: opened) ts := by
    rw [tokens, List.cons_append, walk_opened openedBy (by omega), behind, closer]
  obtain ⟨⟨_, s₂⟩, read, _, rfl⟩ := Level.Reads.opened (L := L) count (s.advance (os' ++ ts)) rfl
  have inside : (⟨g.closer, o.start⟩ :: opened).length + n = maxNesting := by
    rw [List.length_cons]
    omega
  have content := strict.sequence inside (.inside g o.start) rfl s₂
  rw [Level.enclosed, next_eq tokens]
  change Fails (L.opened g (s.advance (os' ++ s₂.tokens)) >>= _) _
  rw [read]
  refine Fails.bind Fails.ok ?_
  rintro _ ⟨⟩
  apply Fails.bind
  · apply content.mono
    intro f blames
    rwa [Blames, moved]
  · intro (ns, s₃) sequence
    obtain ⟨c, us, rest, _⟩ := ((strict.sound.sequence _ s₂).of_eq _ sequence).sequence_end
    dsimp only at rest ⊢
    rw [next_eq rest]
    exact Fails.ok

end Level.Strict

/-- All levels fail where a walk does. -/
theorem levels_strict (e : Ending) (n : Nat) :
  (levels e Survey.plain n).Strict n
  := by
  induction n with
  | zero =>
    refine ⟨levels_sound e 0, fun g s opened depth opens => ?_⟩
    change Fails (Level.refused e s) _
    obtain ⟨os, ts, tokens, opening⟩ := opens
    have count : os.length = g.openerLength := opening.length.trans g.length_opening_kind
    obtain ⟨o, os', rfl⟩ :=
      List.exists_cons_of_length_pos (Nat.lt_of_lt_of_eq g.openerLength_pos count.symm)
    obtain ⟨g', openedBy, _⟩ := opening.openedBy? ts
    rw [Level.refused, tokens]
    apply Fails.error
    left
    exact walk_deep openedBy depth
  | succ n ih =>
    refine ⟨levels_sound e (n + 1), fun g s opened depth opens => ?_⟩
    have enclosed := ih.enclosed g s opened depth opens
    rw [levels_ending] at enclosed ⊢
    exact enclosed

end LosslessScss
