import LosslessScss.Lexer
import LosslessScss.Outcome

/-!
# Looking ahead

Questions about the tokens to come that look at one or two of them.  To look past the last
token is to meet the ending: at the end of the text the answer is no, and a failure is
passed on.
-/

namespace LosslessScss.Ending

/-- Whether the next token is the mark `c`. -/
def atMark (e : Ending) (c : Char) : List Token → Except Failure Bool
  | [] => do
    e.reach
    return false
  | t :: _ => return t.mark? = some c

/-- Whether the next tokens open an interpolation. -/
def atInterpolation (e : Ending) : List Token → Except Failure Bool
  | [] => do
    e.reach
    return false
  | t :: ts => if t.mark? = some '#' then e.atMark '{' ts else return false

/-- Whether the next tokens start a name: an identifier, or an interpolation in its
place. -/
def atName (e : Ending) : List Token → Except Failure Bool
  | [] => do
    e.reach
    return false
  | t :: ts => if t.kind = .identifier then return true else e.atInterpolation (t :: ts)

/-- Whether an identifier with arguments comes next. -/
def atCall (e : Ending) : List Token → Except Failure Bool
  | [] => do
    e.reach
    return false
  | t :: ts => if t.kind = .identifier then e.atMark '(' ts else return false

/-! ### Looking past the last token -/

section Past

variable (e : Ending) (ts : List Token)

theorem fails_reach :
  Fails e.reach fun f => e.reach = .error f
  := ⟨fun _ => id⟩

theorem fails_atMark (c : Char) :
  Fails (e.atMark c ts) fun f => e.reach = .error f
  := by
  cases ts with
  | nil => exact e.fails_reach.bind fun _ _ => Fails.ok
  | cons => exact Fails.ok

theorem fails_atInterpolation :
  Fails (e.atInterpolation ts) fun f => e.reach = .error f
  := by
  cases ts with
  | nil => exact e.fails_reach.bind fun _ _ => Fails.ok
  | cons t ts =>
    rw [atInterpolation]
    split
    · exact e.fails_atMark ts '\x7b'
    · exact Fails.ok

theorem fails_atName :
  Fails (e.atName ts) fun f => e.reach = .error f
  := by
  cases ts with
  | nil => exact e.fails_reach.bind fun _ _ => Fails.ok
  | cons t ts =>
    rw [atName]
    split
    · exact Fails.ok
    · exact e.fails_atInterpolation (t :: ts)

theorem fails_atCall :
  Fails (e.atCall ts) fun f => e.reach = .error f
  := by
  cases ts with
  | nil => exact e.fails_reach.bind fun _ _ => Fails.ok
  | cons t ts =>
    rw [atCall]
    split
    · exact e.fails_atMark ts '('
    · exact Fails.ok

end Past

/-! ### What is seen -/

variable {e : Ending} {c : Char} {ts : List Token} {b : Bool}

/-- Where a mark is seen there is a token. -/
theorem exists_of_atMark (there : e.atMark c ts = .ok true) :
  ∃ t us, ts = t :: us ∧ t.mark? = some c
  := by
  cases ts with
  | nil => cases e <;> cases there
  | cons t us => exact ⟨t, us, rfl, of_decide_eq_true (Except.ok.inj there)⟩

theorem exists_of_atInterpolation (there : e.atInterpolation ts = .ok true) :
  ∃ t u us, ts = t :: u :: us ∧ t.mark? = some '#' ∧ u.mark? = some '\x7b'
  := by
  cases ts with
  | nil => cases e <;> cases there
  | cons t us =>
    simp only [atInterpolation] at there
    split at there
    case isTrue hash =>
      obtain ⟨u, us, rfl, mark⟩ := exists_of_atMark there
      exact ⟨t, u, us, rfl, hash, mark⟩
    case isFalse => cases there

/-- Where a name starts there is an identifier or an interpolation. -/
theorem exists_of_atName (there : e.atName ts = .ok true) :
  (∃ t us, ts = t :: us ∧ t.kind = .identifier) ∨ e.atInterpolation ts = .ok true
  := by
  cases ts with
  | nil => exact .inr there
  | cons t us =>
    simp only [atName] at there
    split at there
    case isTrue name => exact .inl ⟨t, us, rfl, name⟩
    case isFalse => exact .inr there

/-- Where a call is seen there are an identifier and an opening parenthesis. -/
theorem exists_of_atCall (there : e.atCall ts = .ok true) :
  ∃ t u us, ts = t :: u :: us ∧ t.kind = .identifier ∧ u.mark? = some '('
  := by
  cases ts with
  | nil => cases e <;> cases there
  | cons t us =>
    simp only [atCall] at there
    split at there
    case isTrue name =>
      obtain ⟨u, us, rfl, mark⟩ := exists_of_atMark there
      exact ⟨t, u, us, rfl, name, mark⟩
    case isFalse => cases there

end LosslessScss.Ending
