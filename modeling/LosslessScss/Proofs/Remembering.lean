import LosslessScss.Proofs.Memory

/-!
# Parsing with a memory

A parser that remembers groups gives the tree that one gives which remembers nothing, and
the same failure: `TokenStream.stylesheet_eq_plainStylesheet`.  To tell in which states the
parser surveys a statement, its survey is made to fail there: `TokenStream.Surveys s call`
says that a failure which answers the call is the failure of the whole.  In all of these
states the memory is sound (`TokenStream.Surveys.sound`), and so the survey answers what the
plain one does (`TokenStream.survey_agrees`).
-/

namespace LosslessScss

/-! ### Calls of the survey -/

/-- What a survey is given: the scope of the statement, the index of its first token, the
groups gone through so far and the tokens that are left. -/
structure Survey.Call where
  scope : Scope
  index : Nat
  memory : Statement.Memory
  tokens : List Token

/-- The survey that fails with `f` where `stop` tells it to, and answers as `survey`
elsewhere. -/
def Survey.failingAt (survey : Survey) (stop : Survey.Call → Bool) (f : Failure) : Survey :=
  fun e scope index memory tokens =>
    if stop ⟨scope, index, memory, tokens⟩ then .error f
    else survey e scope index memory tokens

/-- To parse the tokens of a stream a statement is surveyed with the given call: if the survey
fails at this call, perhaps among others, then the whole fails likewise. -/
def TokenStream.Surveys (s : TokenStream) (call : Survey.Call) : Prop :=
  ∀ stop f, stop call = true →
    s.stylesheetWith (Survey.failingAt Statement.survey stop f) = .error f

/-! ### States with a sound memory -/

/-- A call for a statement of a stream, with a memory that is sound for the stream. -/
structure Survey.Call.Sound (s : TokenStream) (call : Survey.Call) : Prop where
  tokens : call.tokens = s.tokens.drop call.index
  memory : call.memory.Sound s

/-- Two states that differ in their memories only, of which the first one is sound.  What
escapes is the failure of a survey that stops at a sound call. -/
def rememberingLikeness (s : TokenStream) (stop : Survey.Call → Bool) : Likeness :=
  .equal
    (fun a b => a.tokens = b.tokens ∧ a.taken = b.taken ∧ a.tokens = s.tokens.drop a.taken ∧
      a.memory.Sound s)
    (fun _ => ∃ call : Survey.Call, stop call = true ∧ call.Sound s)
    And.left
    (by
      rintro a b t ts ⟨_, taken, rest, sound⟩ some
      refine ⟨rfl, congrArg (· + 1) taken, ?_, sound⟩
      rw [some] at rest
      simp only [State.advance]
      rw [← List.tail_drop, ← rest, List.tail_cons])

/-- A survey that stops somewhere agrees with the plain one in states with a sound memory. -/
theorem failingAt_agree {s : TokenStream} (stop : Survey.Call → Bool) (f : Failure)
    (scope : Scope) (a b : State) (like : (rememberingLikeness s stop).state a b) :
  (rememberingLikeness s stop).Agree
    (fun r r' => r.1 = r'.1 ∧
      (rememberingLikeness s stop).state { a with memory := r.2 } { b with memory := r'.2 })
    (Survey.failingAt Statement.survey stop f s.ending scope a.taken a.memory a.tokens)
    (Survey.plain s.ending scope b.taken b.memory b.tokens)
  := by
  obtain ⟨tokens, taken, rest, sound⟩ := like
  unfold Survey.failingAt
  split
  case isTrue stopped => exact .escape ⟨_, stopped, rest, sound⟩
  case isFalse =>
    have agrees := Statement.survey_agreesPlain sound scope a.taken
    rw [← rest] at agrees
    obtain ⟨answer, sound⟩ := agrees
    rw [Survey.plain, ← tokens, ← answer]
    cases survey : Statement.survey s.ending scope a.taken a.memory a.tokens with
    | error g => exact .error rfl
    | ok r => exact .ok ⟨rfl, rfl, taken, rest, sound.of_eq r survey⟩

/-- A survey that stops nowhere is the survey itself. -/
theorem Survey.failingAt_never (survey : Survey) (f : Failure) :
  survey.failingAt (fun _ => false) f = survey
  := by
  funext e scope index memory tokens
  exact if_neg Bool.false_ne_true

theorem rememberingLikeness_endings (s : TokenStream) (stop : Survey.Call → Bool) :
  (rememberingLikeness s stop).Endings s.ending s.ending
  := .self rfl rfl s.ending

namespace TokenStream

variable (s : TokenStream)

/-- Parsing with a survey that stops somewhere agrees with parsing with the plain one, unless
the survey stops at a sound call. -/
theorem stylesheetWith_failingAt (stop : Survey.Call → Bool) (f : Failure) :
  (rememberingLikeness s stop).Agree Eq
    (s.stylesheetWith (Survey.failingAt Statement.survey stop f)) s.plainStylesheet
  := by
  have alike := rememberingLikeness_endings s stop
  have levels := Likeness.levels alike (failingAt_agree stop f) maxNesting
  have initial : (rememberingLikeness s stop).state s.initial s.initial :=
    ⟨rfl, rfl, rfl, Statement.Memory.Sound.empty s⟩
  apply (levels.sequence .top s.initial s.initial initial).bind
  rintro ⟨ms, _⟩ ⟨ns, _⟩ ⟨children, _⟩
  have children : ms = ns := List.forall₂_eq_eq_eq ▸ children
  subst children
  exact .ok rfl

/-- Parsing with a memory is parsing without one. -/
theorem stylesheet_eq_plainStylesheet :
  s.stylesheet = s.plainStylesheet
  := by
  have agree := s.stylesheetWith_failingAt (fun _ => false) ⟨.endOfInput, .origin⟩
  rw [Survey.failingAt_never] at agree
  exact agree.eq (fun _ _ => id) fun _ ⟨_, stopped, _⟩ => Bool.false_ne_true stopped

/-- Every call of the survey is for a statement of the stream, with a sound memory. -/
theorem Surveys.sound {s : TokenStream} {call : Survey.Call} (surveys : s.Surveys call) :
  call.Sound s
  := by
  classical
  obtain ⟨f, differs⟩ : ∃ f, s.plainStylesheet ≠ .error f := by
    by_contra! all
    have := (all ⟨.endOfInput, .origin⟩).symm.trans (all ⟨.nestedTooDeep, .origin⟩)
    cases this
  have stops := surveys (fun c => c = call) f (decide_eq_true rfl)
  have agree := s.stylesheetWith_failingAt (fun c => c = call) f
  rw [stops] at agree
  generalize s.plainStylesheet = y at agree differs
  cases agree with
  | error h => exact absurd (congrArg _ h.symm) differs
  | escape h =>
    obtain ⟨other, same, sound⟩ := h
    rw [← of_decide_eq_true same]
    exact sound

/-- Where a statement of a stream is read with a sound memory, it is read without one as well. -/
theorem statement_plain {s : TokenStream} {call : Survey.Call} (sound : call.Sound s) {n : Nat}
    {ns : List Node} {a : State}
    (read : (levels s.ending Statement.survey n).statement call.scope
      ⟨call.tokens, call.index, call.memory⟩ = .ok (ns, a)) :
  ∃ b, (levels s.ending Survey.plain n).statement call.scope
      ⟨call.tokens, call.index, call.memory⟩ = .ok (ns, b) ∧ b.tokens = a.tokens
  := by
  have agree := failingAt_agree (s := s) (fun _ => false) ⟨.endOfInput, .origin⟩
  rw [Survey.failingAt_never] at agree
  have levels := Likeness.levels (rememberingLikeness_endings s _) agree n
  have alike := levels.statement call.scope ⟨call.tokens, call.index, call.memory⟩
    ⟨call.tokens, call.index, call.memory⟩ ⟨rfl, rfl, sound.tokens, sound.memory⟩
  rw [read] at alike
  generalize (LosslessScss.levels s.ending Survey.plain n).statement call.scope _ = y at alike ⊢
  cases alike with
  | @ok _ r same =>
    obtain ⟨nodes, tokens, _⟩ := same
    have nodes : ns = r.1 := List.forall₂_eq_eq_eq ▸ nodes
    exact ⟨r.2, nodes ▸ rfl, tokens.symm⟩

/-- A sequence fails if its first statement does. -/
theorem sequence_eq_error {L : Level} (around : Surroundings) {a : State} {t : Token}
    {ts : List Token} {f : Failure} (tokens : a.tokens = t :: ts) (goesOn : t.closes = false)
    (fails : L.statement around.scope a = .error f) :
  L.sequence around a = .error f
  := by
  have first : L.sequenceStatement around a = .error f := by
    unfold Level.sequenceStatement
    rw [tokens]
    cases mark : t.mark? with
    | none =>
      simp only [mark, found, fails]
      rfl
    | some c =>
      rw [Token.closes_eq mark] at goesOn
      have open_ : around.closer? ≠ some c := by
        cases around with
        | top => nofun
        | inside g _ =>
          rintro ⟨⟩
          rw [g.isCloser_closer] at goesOn
          cases goesOn
      simp only [mark, found, open_, goesOn, fails]
      rfl
  rw [Level.sequence, collect_eq, first]
  rfl

/-- A sequence fails where the survey of its first statement is made to fail, unless the first token
settles what the statement is. -/
theorem sequence_stopped {e : Ending} {stop : Survey.Call → Bool} (f : Failure) {n : Nat}
    (around : Surroundings) {a : State} {t : Token} {ts : List Token} (tokens : a.tokens = t :: ts)
    (goesOn : t.closes = false) (alone : Level.standsAlone around.scope t = false)
    (noKeyword : t.kind ≠ .atKeyword)
    (stopped : stop ⟨around.scope, a.taken, a.memory, a.tokens⟩ = true) :
  (levels e (Survey.failingAt Statement.survey stop f) n).sequence around a = .error f
  := by
  apply sequence_eq_error around tokens goesOn
  unfold Level.statement
  simp only [tokens, alone, Bool.false_eq_true, if_false, noKeyword]
  rw [Level.surveyed, levels_survey, levels_ending, Survey.failingAt, if_pos stopped]
  rfl

/-- The first statement is surveyed, unless its first token settles what it is. -/
theorem surveys_first {t : Token} {ts : List Token} (tokens : s.tokens = t :: ts)
    (goesOn : t.closes = false) (alone : Level.standsAlone .statements t = false)
    (noKeyword : t.kind ≠ .atKeyword) :
  s.Surveys ⟨.statements, 0, ∅, s.tokens⟩
  := by
  intro stop f stopped
  rw [stylesheetWith, sequence_stopped f .top tokens goesOn alone noKeyword stopped]
  rfl

/-- The first statement in parentheses at the beginning is surveyed with what the survey of the
outer statement remembers, unless its first token settles what it is. -/
theorem surveys_inside {t u : Token} {ts : List Token} {memory : Statement.Memory}
    (tokens : s.tokens = t :: u :: ts) (opens : t.mark? = some '(')
    (answer : Statement.survey s.ending .statements 0 ∅ s.tokens = .ok (.loose, memory))
    (goesOn : u.closes = false) (alone : Level.standsAlone .entries u = false)
    (noKeyword : u.kind ≠ .atKeyword) :
  s.Surveys ⟨.entries, 1, memory, u :: ts⟩
  := by
  have punctuation : t.kind = .punctuation := by
    by_contra other
    rw [Token.mark?, if_neg other] at opens
    cases opens
  have outerGoesOn : t.closes = false := by rw [Token.closes_eq opens]; rfl
  have outerAlone : Level.standsAlone .statements t = false := by
    simp [Level.standsAlone, opens, punctuation, Kind.isTrivia]
  have outerNoKeyword : t.kind ≠ .atKeyword := by simp [punctuation]
  intro stop f stopped
  by_cases first : stop ⟨.statements, 0, ∅, s.tokens⟩ = true
  · exact s.surveys_first tokens outerGoesOn outerAlone outerNoKeyword stop f first
  -- Where the outer survey does not fail, the inner one does.
  let L := levels s.ending (Survey.failingAt Statement.survey stop f) maxNesting
  have group : L.group .parentheses ⟨s.tokens, 0, memory⟩ = .error f := by
    have content := sequence_stopped (e := s.ending) (n := 63) (a := ⟨u :: ts, 1, memory⟩) f
      (.inside .parentheses t.start) rfl goesOn alone noKeyword stopped
    show (levels _ _ 63).enclosed _ _ = _
    simp only [Level.enclosed, Level.next, tokens, Level.opened, State.advance, bind, Except.bind,
      pure, Except.pure, content]
  have loose : L.loose .statements ⟨s.tokens, 0, memory⟩ = .error f := by
    rw [Level.loose]
    simp only [Level.atom, tokens, opens, bind, Except.bind]
    rw [← tokens, group]
  have statement : L.statement .statements s.initial = .error f := by
    have surveyed : L.surveyed .statements s.initial = .error f := by
      rw [Level.surveyed, levels_survey, levels_ending, Survey.failingAt, initial, if_neg first,
        answer]
      exact loose
    unfold Level.statement
    simp only [initial, tokens, outerAlone, outerNoKeyword, Bool.false_eq_true, if_false]
    rw [← tokens]
    exact surveyed
  rw [stylesheetWith, sequence_eq_error .top tokens outerGoesOn statement]
  rfl

/-- A statement in parentheses is surveyed with what the survey of the statement around it has
remembered: where the group ends that the inner one has. -/
theorem surveys_inner :
  let s := (Lexer.ofString "(a(b)c)").stream
  ∃ memory : Statement.Memory, memory[2]? = some (some 4) ∧
    s.Surveys ⟨.entries, 1, memory, s.tokens.tail⟩
  := by
  intro s
  have head : s.tokens.head?.bind Token.mark? = some '(' := by decide +kernel
  have second : s.tokens.tail.head?.map Token.kind = some .identifier := by decide +kernel
  have survey : (Statement.survey s.ending .statements 0 ∅ s.tokens).map (fun r => (r.1, r.2[2]?))
      = .ok (.loose, some (some 4)) := by
    decide +kernel
  cases answer : Statement.survey s.ending .statements 0 ∅ s.tokens with
  | error f => rw [answer] at survey; cases survey
  | ok r =>
    rw [answer] at survey
    obtain ⟨loose, known⟩ := Prod.mk.inj (Except.ok.inj survey)
    refine ⟨r.2, known, ?_⟩
    have answer : Statement.survey s.ending .statements 0 ∅ s.tokens = .ok (.loose, r.2) :=
      answer.trans (congrArg Except.ok (Prod.ext loose rfl))
    obtain ⟨t, first, opens⟩ := Option.bind_eq_some_iff.mp head
    obtain ⟨u, next, name⟩ := Option.map_eq_some_iff.mp second
    obtain ⟨us, tokens⟩ := List.head?_eq_some_iff.mp first
    rw [tokens, List.tail_cons] at next
    obtain ⟨ts, rfl⟩ := List.head?_eq_some_iff.mp next
    have mark := u.mark?_of_identifier name
    rw [tokens, List.tail_cons]
    exact s.surveys_inside tokens opens answer (Token.closes_of_noMark mark)
      (by simp [Level.standsAlone, mark, name, Kind.isTrivia]) (by simp [name])

/-- Parsing remembers without effect: at each of its calls the survey answers what the plain one
does, the memory is sound before and after it, and the tree or the failure is that of
parsing without a memory. -/
theorem survey_agrees :
  (∀ call, s.Surveys call →
    (Statement.survey s.ending call.scope call.index call.memory call.tokens).map Prod.fst
        = Statement.plainSurvey s.ending call.scope call.tokens ∧
      call.Sound s ∧
      Ensures (Statement.survey s.ending call.scope call.index call.memory call.tokens)
        fun r => r.2.Sound s) ∧
    ∀ l : Lexer, l.stream = s → l.parse = s.plainStylesheet
  := by
  constructor
  · intro call surveys
    have sound := surveys.sound
    have agrees := Statement.survey_agreesPlain sound.memory call.scope call.index
    rw [← sound.tokens] at agrees
    exact ⟨agrees.answer, sound, agrees.sound⟩
  · rintro l rfl
    exact l.stream.stylesheet_eq_plainStylesheet

/-- A statement in a group with a group of its own, which the survey passes over as it is
remembered. -/
theorem survey_agrees_inner :
  ∃ (s : TokenStream) (call : Survey.Call), s.Surveys call ∧ call.memory[2]? = some (some 4) ∧
    call.Sound s ∧ s.tokens.drop call.index = call.tokens ∧
    call.tokens.map Token.mark? = [none, some '(', none, some ')', none, some ')'] ∧
    (Statement.survey s.ending call.scope call.index call.memory call.tokens).map Prod.fst
      = .ok .loose
  := by
  let s : TokenStream := (Lexer.ofString "(a(b)c)").stream
  obtain ⟨memory, known, surveys⟩ := surveys_inner
  have marks : s.tokens.tail.map Token.mark?
      = [none, some '(', none, some ')', none, some ')'] := by
    decide +kernel
  have plain : Statement.plainSurvey s.ending .entries s.tokens.tail = .ok .loose := by
    decide +kernel
  obtain ⟨agrees, sound, _⟩ := (survey_agrees s).1 _ surveys
  exact ⟨s, _, surveys, known, sound, sound.tokens.symm, marks, agrees.trans plain⟩

end TokenStream

end LosslessScss
