import LosslessScss.Level.AtRule
import LosslessScss.Level.Declaration
import LosslessScss.Level.Rule

/-!
# Sequences of statements

A stylesheet and every group consist of statements.  The first token of a statement, or
else a survey of it, tells which form it has: a statement of one token, an at-rule, a rule,
a declaration or a run of loose nodes.
-/

namespace LosslessScss.Level

/-! ### Statements -/

/-- A run of loose nodes.  A block at its beginning is a run of its own. -/
def loose (L : Level) (scope : Scope) (s : State) : Except Failure (List Node × State) := do
  let (first, s) ← L.atom false s
  if first.kind = .block then return ([first], s)
  else
    let (ns, s) ← L.run scope false s
    return (first :: ns, s)

theorem loose_advances (L : Level) (scope : Scope) :
  Advances (L.loose scope)
  := by
  intro s
  apply Ensures.bind (L.atom_advances false s)
  intro (first, s₁) lt
  dsimp only
  split
  · exact Ensures.ok lt
  · apply Ensures.bind (L.run_keeps scope false s₁)
    intro r le
    exact Ensures.ok (Nat.lt_of_le_of_lt le lt)

/-- Reads a single node and answers it as a list. -/
def alone (read : State → Except Failure (Node × State)) (s : State) :
    Except Failure (List Node × State) := do
  let (n, s) ← read s
  return ([n], s)

theorem alone_advances {read : State → Except Failure (Node × State)} (h : Advances read) :
  Advances (alone read)
  := by
  intro s
  apply Ensures.bind (h s)
  intro r lt
  exact Ensures.ok lt

/-- The nodes of a statement of a given form. -/
def ofForm (L : Level) (scope : Scope) : Form → State → Except Failure (List Node × State)
  | .rule => alone L.rule
  | .declaration => alone (L.declaration scope)
  | .loose => L.loose scope

theorem ofForm_advances (L : Level) (scope : Scope) (form : Form) :
  Advances (L.ofForm scope form)
  := by
  cases form with
  | rule => exact alone_advances L.rule_advances
  | declaration => exact alone_advances (L.declaration_advances scope)
  | loose => exact L.loose_advances scope

/-- The nodes of a statement whose form a survey tells. -/
def surveyed (L : Level) (scope : Scope) (s : State) : Except Failure (List Node × State) := do
  let (form, memory) ← L.survey L.ending scope s.taken s.memory s.tokens
  L.ofForm scope form { s with memory }

theorem surveyed_advances (L : Level) (scope : Scope) :
  Advances (L.surveyed scope)
  := by
  intro s
  apply Ensures.after
  intro (form, memory)
  exact L.ofForm_advances scope form { s with memory }

/-- Whether a token is a statement by itself: white space, a comment, a semicolon, and
among entries a comma. -/
def standsAlone (scope : Scope) (t : Token) : Bool :=
  t.kind.isTrivia || t.mark? = some ';' || (scope = .entries && t.mark? = some ',')

/-- The nodes of the next statement. -/
def statement (L : Level) (scope : Scope) (s : State) : Except Failure (List Node × State) :=
  match s.tokens with
  | [] => .error L.ending.failure
  | t :: ts =>
    if standsAlone scope t then .ok ([.leaf t], s.advance ts)
    else if t.kind = .atKeyword then alone (L.atRule scope) s
    else L.surveyed scope s

theorem statement_advances (L : Level) (scope : Scope) :
  Advances (L.statement scope)
  := by
  intro s
  unfold statement
  split
  · exact Ensures.error
  · next h =>
    split
    · exact Ensures.ok (State.remaining_advance_lt h)
    · split
      · exact alone_advances (L.atRule_advances scope) s
      · exact L.surveyed_advances scope s

/-! ### Sequences -/

/-- The next statement of a sequence, unless the sequence ends: with the mark that closes
its group, which stays where it is, or with the text. -/
def sequenceStatement (L : Level) (around : Surroundings) (s : State) :
    Except Failure (Option (List Node × State)) :=
  match s.tokens with
  | [] => do
    L.ending.reach
    around.finish
    return none
  | t :: _ =>
    match t.mark? with
    | some c =>
      if around.closer? = some c then .ok none
      else if isCloser c then .error ⟨.unexpected c, t.start⟩
      else found (L.statement around.scope) s
    | none => found (L.statement around.scope) s

theorem sequenceStatement_advances (L : Level) (around : Surroundings) :
  AdvancesIfSome (L.sequenceStatement around)
  := by
  intro s
  unfold sequenceStatement
  split
  · apply Ensures.after
    intro _
    apply Ensures.after
    intro _
    exact ensures_none
  · split
    · split
      · exact ensures_none
      · split
        · exact Ensures.error
        · exact ensures_found (L.statement_advances around.scope) s
    · exact ensures_found (L.statement_advances around.scope) s

/-- The nodes of a sequence of statements. -/
def sequence (L : Level) (around : Surroundings) (s : State) :
    Except Failure (List Node × State) := do
  let (nss, s) ← collect (L.sequenceStatement around) (L.sequenceStatement_advances around) s
  return (nss.flatten, s)

theorem sequence_eq (L : Level) (around : Surroundings) (s : State) :
  L.sequence around s = (do
    match ← L.sequenceStatement around s with
    | none => return ([], s)
    | some (ms, s') =>
      let (ns, s'') ← L.sequence around s'
      return (ms ++ ns, s''))
  := by
  rw [sequence, collect_eq]
  cases L.sequenceStatement around s with
  | error => rfl
  | ok r =>
    rcases r with _ | ⟨ms, s'⟩
    · rfl
    · simp only [bind, Except.bind, sequence]
      cases collect (L.sequenceStatement around) (L.sequenceStatement_advances around) s' with
      | error => rfl
      | ok r => rfl

theorem sequence_keeps (L : Level) (around : Surroundings) :
  Keeps (L.sequence around)
  := by
  intro s
  apply Ensures.bind (collect_keeps _ (L.sequenceStatement_advances around) s)
  intro r le
  exact Ensures.ok le

end LosslessScss.Level
