import LosslessScss.Group
import LosslessScss.Outcome

/-!
# Levels of nesting

A `Level` reads what stands at one level of nesting of a stylesheet.  It is given how to
survey a statement and how to read a whole group, whose content stands one level deeper;
so no function on a level has to call itself through a group.  Whatever is read takes at
least one token, and so `collect`, which reads until nothing is found, comes to an end.
-/

namespace LosslessScss

/-- The tokens that are left, the number of those taken, and the groups gone through so
far. -/
structure State where
  tokens : List Token
  taken : Nat
  memory : Statement.Memory

namespace State

/-- The number of tokens that are left. -/
def remaining (s : State) : Nat := s.tokens.length

/-- The state after the first token, when `ts` are those after it. -/
def advance (s : State) (ts : List Token) : State :=
  { s with tokens := ts, taken := s.taken + 1 }

theorem remaining_advance_lt {s : State} {t : Token} {ts : List Token}
    (h : s.tokens = t :: ts) :
  (s.advance ts).remaining < s.remaining
  := by
  rw [remaining, remaining, h]
  exact Nat.lt_succ_self _

end State

/-- A way to survey a statement: its form and what is remembered afterwards. -/
abbrev Survey :=
  Ending → Scope → Nat → Statement.Memory → List Token →
    Except Failure (Form × Statement.Memory)

/-- The survey that looks at every token and remembers nothing. -/
def Survey.plain : Survey := fun e scope _ memory tokens => do
  return (← Statement.plainSurvey e scope tokens, memory)

theorem Survey.plain_eq_ok {e : Ending} {scope : Scope} {index : Nat} {memory : Statement.Memory}
    {tokens : List Token} {r : Form × Statement.Memory}
    (h : Survey.plain e scope index memory tokens = .ok r) :
  Statement.plainSurvey e scope tokens = .ok r.1
  := by
  unfold Survey.plain at h
  cases answer : Statement.plainSurvey e scope tokens with
  | error => rw [answer] at h; cases h
  | ok form => rw [answer] at h; cases h; rfl

/-- Reading with `read` takes at least one token. -/
def Advances {α : Type} (read : State → Except Failure (α × State)) : Prop :=
  ∀ s, Ensures (read s) fun r => r.2.remaining < s.remaining

/-- Reading with `read` gives no token back. -/
def Keeps {α : Type} (read : State → Except Failure (α × State)) : Prop :=
  ∀ s, Ensures (read s) fun r => r.2.remaining ≤ s.remaining

/-- Reading with `read` takes at least one token if it finds anything. -/
def AdvancesIfSome {α : Type} (read : State → Except Failure (Option (α × State))) : Prop :=
  ∀ s, Ensures (read s) fun r => ∀ a s', r = some (a, s') → s'.remaining < s.remaining

/-- Reads with `read`, and answers what was read as something found. -/
def found {α : Type} (read : State → Except Failure (α × State)) (s : State) :
    Except Failure (Option (α × State)) := do
  let r ← read s
  return some r

theorem ensures_found {α : Type} {read : State → Except Failure (α × State)}
    (h : Advances read) (s : State) :
  Ensures (found read s) fun r => ∀ a s', r = some (a, s') → s'.remaining < s.remaining
  := by
  apply Ensures.bind (h s)
  intro r lt
  apply Ensures.ok
  rintro a s' ⟨⟩
  exact lt

theorem ensures_none {α : Type} {s : State} :
  Ensures (.ok none : Except Failure (Option (α × State)))
    fun r => ∀ a s', r = some (a, s') → s'.remaining < s.remaining
  := by
  apply Ensures.ok
  rintro a s' ⟨⟩

/-- What is the same for all that stands at one level of nesting: what follows the last
token, how to survey a statement, and how to read a group. -/
structure Level where
  ending : Ending
  survey : Survey
  group : Group → State → Except Failure (Node × State)
  group_advances : ∀ g, Advances (group g)

/-- Everything that `read` finds one after another, until it finds nothing. -/
def collect {α : Type} (read : State → Except Failure (Option (α × State)))
    (advances : AdvancesIfSome read) (s : State) : Except Failure (List α × State) :=
  match _h : read s with
  | .error f => .error f
  | .ok none => .ok ([], s)
  | .ok (some (a, s')) => do
    let (as, s'') ← collect read advances s'
    return (a :: as, s'')
termination_by s.remaining
decreasing_by exact (advances s).of_eq _ _h a s' rfl

theorem collect_eq {α : Type} (read : State → Except Failure (Option (α × State)))
    (advances : AdvancesIfSome read) (s : State) :
  collect read advances s = (do
    match ← read s with
    | none => return ([], s)
    | some (a, s') =>
      let (as, s'') ← collect read advances s'
      return (a :: as, s''))
  := by
  rw [collect]
  split
  · next h => rw [h]; rfl
  · next h => rw [h]; rfl
  · next h => rw [h]; rfl

/-- What holds of all that is read one after another, if it holds of nothing and one thing
more preserves it. -/
theorem collect_ensures {α : Type} {read : State → Except Failure (Option (α × State))}
    (advances : AdvancesIfSome read) {P : State → List α → State → Prop}
    (ends : ∀ s, read s = .ok none → P s [] s)
    (goesOn : ∀ s a s' as s'', read s = .ok (some (a, s')) → P s' as s'' → P s (a :: as) s'')
    (s : State) :
  Ensures (collect read advances s) fun r => P s r.1 r.2
  := by
  fun_induction collect read advances s with
  | case1 => exact Ensures.error
  | case2 s h => exact Ensures.ok (ends s h)
  | case3 s a s' h ih =>
    apply Ensures.bind ih
    intro (as, s'') others
    exact Ensures.ok (goesOn s a s' as s'' h others)

theorem collect_keeps {α : Type} (read : State → Except Failure (Option (α × State)))
    (advances : AdvancesIfSome read) :
  Keeps (collect read advances)
  := by
  apply collect_ensures advances (P := fun s _ s' => s'.remaining ≤ s.remaining)
  · intro s _
    exact Nat.le_refl _
  · intro s a s' as s'' h le
    exact Nat.le_trans le (Nat.le_of_lt ((advances s).of_eq _ h a s' rfl))

namespace Level

/-- Takes the next token. -/
def next (L : Level) (s : State) : Except Failure (Token × State) :=
  match s.tokens with
  | [] => .error L.ending.failure
  | t :: ts => .ok (t, s.advance ts)

theorem next_advances (L : Level) :
  Advances L.next
  := by
  intro s
  unfold next
  split
  · exact Ensures.error
  · next h => exact Ensures.ok (State.remaining_advance_lt h)

/-- The next token is the first of those left. -/
theorem next_tokens (L : Level) (s : State) :
  Ensures (L.next s) fun r => s.tokens = r.1 :: r.2.tokens
  := by
  unfold next
  split
  · exact Ensures.error
  · next h => exact Ensures.ok h

end Level

end LosslessScss
