import LosslessScss.Level.Sequence
import LosslessScss.Node.Printer

/-!
# Stylesheets

The syntax tree of a stylesheet.  `levels n` reads what stands at a level inside of which
`n` more groups may be nested: a group consists of its opening mark, a sequence that the
next deeper level reads, and its closing mark; at the deepest level every group is refused.
-/

namespace LosslessScss

namespace Level

/-- Takes what belongs to the opening of a group after its first token. -/
def opened (L : Level) (g : Group) (s : State) : Except Failure (Unit × State) :=
  match g with
  | .interpolation => do
    let (_, s) ← L.next s
    return ((), s)
  | _ => return ((), s)

/-- A group whose content stands at the level `L`. -/
def enclosed (L : Level) (g : Group) (s : State) : Except Failure (Node × State) := do
  let (opener, s) ← L.next s
  let (_, s) ← L.opened g s
  let (children, s) ← L.sequence (.inside g opener.start) s
  let (closer, s) ← L.next s
  return (.branch g.kind children opener.start closer.stop, s)

theorem opened_keeps (L : Level) (g : Group) :
  Keeps (L.opened g)
  := by
  intro s
  unfold opened
  split
  · apply Ensures.bind (L.next_advances s)
    intro r lt
    exact Ensures.ok (Nat.le_of_lt lt)
  · exact Ensures.ok (Nat.le_refl _)

theorem enclosed_advances (L : Level) (g : Group) :
  Advances (L.enclosed g)
  := by
  intro s
  apply Ensures.bind (L.next_advances s)
  intro (opener, s₁) lt
  apply Ensures.bind (L.opened_keeps g s₁)
  intro (_, s₂) le₁
  apply Ensures.bind (L.sequence_keeps _ s₂)
  intro (children, s₃) le₂
  apply Ensures.bind (L.next_advances s₃)
  intro r lt'
  have le₃ := Nat.le_trans le₁ (Nat.le_of_lt lt)
  exact Ensures.ok (Nat.lt_of_lt_of_le lt' (Nat.le_trans le₂ le₃))

/-- No group: one more would be nested too deep. -/
def refused (ending : Ending) (s : State) : Except Failure (Node × State) :=
  match s.tokens with
  | [] => .error ending.failure
  | t :: _ => .error ⟨.nestedTooDeep, t.start⟩

theorem refused_advances (ending : Ending) :
  Advances (refused ending)
  := by
  intro s
  unfold refused
  split
  · exact Ensures.error
  · exact Ensures.error

end Level

/-- The level inside of which `n` more groups may be nested. -/
def levels (ending : Ending) (survey : Survey) : Nat → Level
  | 0 =>
    { ending, survey
      group := fun _ => Level.refused ending
      group_advances := fun _ => Level.refused_advances ending }
  | n + 1 =>
    { ending, survey
      group := (levels ending survey n).enclosed
      group_advances := (levels ending survey n).enclosed_advances }

@[simp]
theorem levels_ending (ending : Ending) (survey : Survey) (n : Nat) :
  (levels ending survey n).ending = ending
  := by
  cases n <;> rfl

@[simp]
theorem levels_survey (ending : Ending) (survey : Survey) (n : Nat) :
  (levels ending survey n).survey = survey
  := by
  cases n <;> rfl

namespace TokenStream

/-- The state before the first token. -/
def initial (ts : TokenStream) : State := ⟨ts.tokens, 0, ∅⟩

/-- The syntax tree of the tokens of a stream, where statements are surveyed with
`survey`. -/
def stylesheetWith (survey : Survey) (ts : TokenStream) : Except Failure Node := do
  let (children, _) ← (levels ts.ending survey maxNesting).sequence .top ts.initial
  return .spanning .stylesheet children .origin

/-- The syntax tree of the tokens of a stream. -/
def stylesheet (ts : TokenStream) : Except Failure Node :=
  ts.stylesheetWith Statement.survey

/-- The syntax tree of the tokens of a stream, where nothing is remembered of the groups
gone through. -/
def plainStylesheet (ts : TokenStream) : Except Failure Node :=
  ts.stylesheetWith Survey.plain

end TokenStream

/-- The syntax tree of what a lexer has not handed out yet. -/
def Lexer.parse (l : Lexer) : Except Failure Node := l.stream.stylesheet

/-- The syntax tree of a text. -/
def parse (source : String) : Except Failure Node := (Lexer.ofString source).parse

end LosslessScss
