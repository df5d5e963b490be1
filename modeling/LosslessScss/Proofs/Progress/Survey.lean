import LosslessScss.Proofs.Progress.Rounds
import LosslessScss.Proofs.Remembering

/-!
# Rounds of a survey

`Statement.Stage.round` is one round of a survey, which looks at a token, or passes over a group
that is remembered.  At every stage that a survey in a parse comes to, the memory is sound and the
tokens are those from the index on (`Survey.Call.Reaches.sound`); so each round goes forward, and a
remembered group ends behind the token that opens it (`Statement.Stage.Sound.step`,
`Statement.Stage.Sound.lt_of_known`).
-/

namespace LosslessScss

namespace Statement

/-! ### Stages -/

/-- A stage of a survey: the index of the next token, the groups that are open, whether the token is
the first one of the statement, the colons met, the memory, and the tokens that are left. -/
structure Stage where
  index : Nat
  opened : List Nat
  first : Bool
  colons : Colons
  memory : Memory
  tokens : List Token

namespace Stage

/-- What a survey answers from a stage on. -/
def survey (e : Ending) (scope : Scope) (a : Stage) : Except Failure (Form × Memory) :=
  surveyFrom e scope a.index a.opened a.first a.colons a.memory a.tokens

/-- One round of a survey: the answer, or the stage after it. -/
def round (e : Ending) (scope : Scope) (a : Stage) : Except Failure ((Form × Memory) ⊕ Stage) :=
  match a.tokens with
  | [] => do
    e.reach
    return .inl (a.colons.form, a.memory.leaveOpen a.opened)
  | t :: ts => do
    match ← openerLength e (!a.opened.isEmpty) t ts with
    | n + 1 =>
      match a.memory[a.index]? with
      | some (some stop) =>
        return .inr { a with index := stop + 1, first := false, tokens := ts.drop (stop - a.index) }
      | some none => return .inl (a.colons.form, a.memory.leaveOpen a.opened)
      | none =>
        return .inr { a with
          index := a.index + n + 1, opened := a.index :: a.opened, first := false,
          tokens := ts.drop n }
    | 0 =>
      match ← turn e scope (!a.opened.isEmpty) a.first a.colons t ts with
      | .settled form => return .inl (form, a.memory)
      | .closed =>
        return .inr { a with
          index := a.index + 1, opened := a.opened.tail, first := false,
          memory := a.memory.close a.opened a.index, tokens := ts }
      | .passed colons =>
        return .inr { a with index := a.index + 1, first := false, colons, tokens := ts }

variable {e : Ending} {scope : Scope} {a b : Stage}

/-- A survey consists of rounds. -/
theorem survey_eq (e : Ending) (scope : Scope) (a : Stage) :
  a.survey e scope = a.round e scope >>= Sum.elim .ok (survey e scope)
  := by
  obtain ⟨index, opened, first, colons, memory, _ | ⟨t, ts⟩⟩ := a
  · simp only [survey, round, surveyFrom]
    cases e.reach <;> rfl
  · simp only [survey, round]
    rw [surveyFrom]
    rcases openerLength e (!opened.isEmpty) t ts with _ | _ | n
    · rfl
    · rcases turn e scope (!opened.isEmpty) first colons t ts with _ | _ | _ | _
      all_goals rfl
    · rcases memory[index]? with _ | _ | _
      all_goals rfl

/-- The ways in which a survey goes on after a round: it jumps over a group that is remembered, it
enters a group, it leaves one, or it passes over a token. -/
inductive Step (e : Ending) (scope : Scope) (a : Stage) : Stage → Prop where
  | jump {t ts n stop} (tokens : a.tokens = t :: ts)
      (opens : openerLength e (!a.opened.isEmpty) t ts = .ok (n + 1))
      (known : a.memory[a.index]? = some (some stop)) :
      Step e scope a
        { a with index := stop + 1, first := false, tokens := ts.drop (stop - a.index) }
  | enter {t ts n} (tokens : a.tokens = t :: ts)
      (opens : openerLength e (!a.opened.isEmpty) t ts = .ok (n + 1)) :
      Step e scope a { a with
        index := a.index + n + 1, opened := a.index :: a.opened, first := false,
        tokens := ts.drop n }
  | leave {t ts} (tokens : a.tokens = t :: ts)
      (opensNone : openerLength e (!a.opened.isEmpty) t ts = .ok 0)
      (closed : turn e scope (!a.opened.isEmpty) a.first a.colons t ts = .ok .closed) :
      Step e scope a { a with
        index := a.index + 1, opened := a.opened.tail, first := false,
        memory := a.memory.close a.opened a.index, tokens := ts }
  | pass {t ts colons} (tokens : a.tokens = t :: ts)
      (opensNone : openerLength e (!a.opened.isEmpty) t ts = .ok 0)
      (passed : turn e scope (!a.opened.isEmpty) a.first a.colons t ts = .ok (.passed colons)) :
      Step e scope a { a with index := a.index + 1, first := false, colons, tokens := ts }

theorem step_of_round (goesOn : a.round e scope = .ok (.inr b)) :
  a.Step e scope b
  := by
  unfold round at goesOn
  split at goesOn
  case h_1 => cases e <;> cases goesOn
  case h_2 t ts tokens =>
    rcases opens : openerLength e (!a.opened.isEmpty) t ts with _ | _ | n
    · rw [opens] at goesOn
      cases goesOn
    · rcases turned : turn e scope (!a.opened.isEmpty) a.first a.colons t ts with _ | _ | _ | colons
      all_goals
        simp only [opens, turned, bind, Except.bind] at goesOn
        cases goesOn
      · exact .leave tokens opens turned
      · exact .pass tokens opens turned
    · rcases known : a.memory[a.index]? with _ | _ | stop
      all_goals
        simp only [opens, known, bind, Except.bind] at goesOn
        cases goesOn
      · exact .enter tokens opens
      · exact .jump tokens opens known

/-- A round after which a survey goes on leaves fewer tokens. -/
theorem Step.length_lt (step : a.Step e scope b) :
  b.tokens.length < a.tokens.length
  := by
  cases step with
  | jump tokens | enter tokens =>
    rw [tokens, List.length_drop, List.length_cons]
    omega
  | leave tokens | pass tokens => rw [tokens]; exact Nat.lt_succ_self _

/-- A survey ends after at most one round for every token and one more. -/
theorem roundsWithin_round {n : Nat} (enough : a.tokens.length < n) :
  roundsWithin (round e scope) n a = some (a.survey e scope)
  := by
  apply roundsWithin_eq (survey e scope) (survey_eq e scope) (fun a => a.tokens.length) _ enough
  exact fun a b goesOn => (step_of_round goesOn).length_lt

/-! ### Soundness -/

/-- At a stage the tokens are those from the index on, the memory is sound, and the groups are
those that are open. -/
structure Sound (s : TokenStream) (a : Stage) : Prop where
  tokens : a.tokens = s.tokens.drop a.index
  memory : a.memory.Sound s
  allOpen : AllOpen s.tokens a.opened a.index

namespace Sound

variable {s : TokenStream}

/-- A group that is remembered ends behind the token at its index, in front of the end of the
text. -/
theorem lt_of_known (sound : a.Sound s) {stop : Nat}
    (known : a.memory[a.index]? = some (some stop)) :
  a.index < stop ∧ stop < s.tokens.length
  := by
  obtain ⟨lt, stops⟩ := sound.memory.closed a.index stop known
  have stop_lt := groupEnd?_lt stops
  rw [List.length_drop] at stop_lt
  omega

/-- From a sound stage a survey goes forward, to a sound stage. -/
theorem step (sound : a.Sound s) (step : a.Step s.ending scope b) :
  b.Sound s ∧ a.index < b.index
  := by
  have rest := sound.tokens.symm
  cases step with
  | @jump t ts n stop tokens opens known =>
    rw [tokens] at rest
    obtain ⟨g, openedBy, _⟩ | ⟨⟨⟩, _⟩ := openerLength_eq_ok opens
    obtain ⟨lt, stops⟩ := sound.memory.closed a.index stop known
    have jumps := sound.allOpen.jump rest openedBy stops
    exact ⟨⟨drop_of_lt rest lt, sound.memory, jumps⟩, Nat.lt_succ_of_lt lt⟩
  | @enter t ts n tokens opens =>
    rw [tokens] at rest
    obtain ⟨g, openedBy, length, _⟩ | ⟨⟨⟩, _⟩ := openerLength_eq_ok opens
    have enters := sound.allOpen.enter rest openedBy
    rw [length] at enters
    have lt := Nat.lt_add_of_pos_right (n := a.index) (Nat.succ_pos n)
    exact ⟨⟨drop_of_drop_eq rest (Nat.succ_pos n), sound.memory, enters⟩, lt⟩
  | @leave t ts tokens opensNone closed =>
    rw [tokens] at rest
    obtain ⟨g, _, length, _⟩ | ⟨_, unopened⟩ := openerLength_eq_ok opensNone
    · exact absurd length (Nat.ne_of_gt g.openerLength_pos)
    obtain ⟨memory, leaves⟩ := sound.allOpen.turn_closed rest unopened sound.memory closed
    exact ⟨⟨drop_of_drop_eq rest Nat.one_pos, memory, leaves⟩, Nat.lt_succ_self _⟩
  | @pass t ts colons tokens opensNone passed =>
    rw [tokens] at rest
    obtain ⟨g, _, length, _⟩ | ⟨_, unopened⟩ := openerLength_eq_ok opensNone
    · exact absurd length (Nat.ne_of_gt g.openerLength_pos)
    have passes := sound.allOpen.turn_passed rest unopened passed
    exact ⟨⟨drop_of_drop_eq rest Nat.one_pos, sound.memory, passes⟩, Nat.lt_succ_self _⟩

end Sound

end Stage

end Statement

/-! ### The stages of a call -/

namespace Survey.Call

/-- The stage of a call before the first token of the statement. -/
def stage (call : Survey.Call) : Statement.Stage :=
  ⟨call.index, [], true, ⟨false, false⟩, call.memory, call.tokens⟩

/-- The stages that a call comes to, round by round. -/
inductive Reaches (e : Ending) (call : Survey.Call) : Statement.Stage → Prop where
  | start : Reaches e call call.stage
  | round {a b} (reaches : Reaches e call a) (goesOn : a.round e call.scope = .ok (.inr b)) :
      Reaches e call b

/-- The survey of a statement goes forward in each round and comes to an end.  A group that is
remembered ends behind the token at which it is looked up, and so no earlier than the statement
starts. -/
structure Progresses (s : TokenStream) (call : Survey.Call) : Prop where
  index_lt : ∀ a b, call.Reaches s.ending a → a.round s.ending call.scope = .ok (.inr b) →
    call.index ≤ a.index ∧ a.index < b.index ∧ b.tokens = s.tokens.drop b.index
  lt_of_known : ∀ a stop, call.Reaches s.ending a → a.memory[a.index]? = some (some stop) →
    call.index ≤ stop ∧ a.index < stop ∧ stop < s.tokens.length
  ends : ∀ n, call.tokens.length < n →
    roundsWithin (Statement.Stage.round s.ending call.scope) n call.stage
      = some (Statement.survey s.ending call.scope call.index call.memory call.tokens)

variable {s : TokenStream} {call : Survey.Call} {a : Statement.Stage}

/-- Every stage of a call with a sound memory is sound, and none lies in front of the statement. -/
theorem Reaches.sound (reaches : call.Reaches s.ending a) (sound : call.Sound s) :
  a.Sound s ∧ call.index ≤ a.index
  := by
  induction reaches with
  | start =>
    exact ⟨⟨sound.tokens, sound.memory, Statement.AllOpen.nil _ _⟩, Nat.le_refl _⟩
  | round _ goesOn ih =>
    obtain ⟨sound, lt⟩ := ih.1.step (Statement.Stage.step_of_round goesOn)
    exact ⟨sound, Nat.le_trans ih.2 (Nat.le_of_lt lt)⟩

theorem Sound.progresses (sound : call.Sound s) :
  call.Progresses s
  := by
  constructor
  · intro a b reaches goesOn
    obtain ⟨before, le⟩ := reaches.sound sound
    obtain ⟨behind, lt⟩ := before.step (Statement.Stage.step_of_round goesOn)
    exact ⟨le, lt, behind.tokens⟩
  · intro a stop reaches known
    obtain ⟨here, le⟩ := reaches.sound sound
    obtain ⟨lt, lt'⟩ := here.lt_of_known known
    exact ⟨Nat.le_trans le (Nat.le_of_lt lt), lt, lt'⟩
  · intro n enough
    exact Statement.Stage.roundsWithin_round (a := call.stage) enough

end Survey.Call

end LosslessScss
