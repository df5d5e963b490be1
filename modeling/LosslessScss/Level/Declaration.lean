import LosslessScss.Level.Run

/-!
# Declarations

A declaration is a property, a colon, a value, which may end in a block, and perhaps a
terminator.
-/

namespace LosslessScss.Level

/-- The next atom of a property, unless the colon follows. -/
def propertyAtom (L : Level) (s : State) : Except Failure (Option (Node × State)) :=
  match s.tokens with
  | [] => .error (L.ending.lacking ":")
  | t :: _ => if t.mark? = some ':' then .ok none else found (L.atom false) s

theorem propertyAtom_advances (L : Level) :
  AdvancesIfSome L.propertyAtom
  := by
  intro s
  unfold propertyAtom
  split
  · exact Ensures.error
  · split
    · exact ensures_none
    · exact ensures_found (L.atom_advances false) s

/-- The block and the terminator that end a declaration.  After a block the terminator is a
semicolon; without one it may be a comma among entries. -/
def conclusion (L : Level) (scope : Scope) (s : State) :
    Except Failure ((List Node × List Node) × State) := do
  if ← L.ending.atMark '{' s.tokens then
    let (block, s) ← L.group .block s
    let (mark, s) ← L.terminator ';' s
    return (([block], mark), s)
  else if ← L.ending.atMark ';' s.tokens then
    let (mark, s) ← L.terminator ';' s
    return (([], mark), s)
  else if scope = .entries then
    let (mark, s) ← L.terminator ',' s
    return (([], mark), s)
  else return (([], []), s)

theorem conclusion_keeps (L : Level) (scope : Scope) :
  Keeps (L.conclusion scope)
  := by
  intro s
  apply Ensures.after
  intro block
  split
  · apply Ensures.bind (L.group_advances .block s)
    intro (n, s₁) lt
    apply Ensures.bind (L.terminator_keeps ';' s₁)
    intro r le
    exact Ensures.ok (Nat.le_trans le (Nat.le_of_lt lt))
  · apply Ensures.after
    intro semicolon
    split
    · apply Ensures.bind (L.terminator_keeps ';' s)
      intro r le
      exact Ensures.ok le
    · split
      · apply Ensures.bind (L.terminator_keeps ',' s)
        intro r le
        exact Ensures.ok le
      · exact Ensures.ok (Nat.le_refl _)

/-- A declaration: a property, a colon, a value and perhaps a terminator. -/
def declaration (L : Level) (scope : Scope) (s : State) : Except Failure (Node × State) := do
  let start := here s
  let (property, s) ← collect L.propertyAtom L.propertyAtom_advances s
  let (colon, s) ← L.next s
  let (value, s) ← L.run scope false s
  let ((block, mark), s) ← L.conclusion scope s
  let parts :=
    [.spanning .property property start, .leaf colon,
      .spanning .value (value ++ block) colon.stop]
  return (.spanning .declaration (parts ++ mark) start, s)

theorem declaration_advances (L : Level) (scope : Scope) :
  Advances (L.declaration scope)
  := by
  intro s
  apply Ensures.bind (collect_keeps L.propertyAtom L.propertyAtom_advances s)
  intro (property, s₁) le₁
  apply Ensures.bind (L.next_advances s₁)
  intro (colon, s₂) lt
  apply Ensures.bind (L.run_keeps scope false s₂)
  intro (value, s₃) le₂
  apply Ensures.bind (L.conclusion_keeps scope s₃)
  intro r le₃
  exact Ensures.ok (Nat.lt_of_le_of_lt (Nat.le_trans le₃ le₂) (Nat.lt_of_lt_of_le lt le₁))

end LosslessScss.Level
