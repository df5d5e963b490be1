import LosslessScss.Level.Run

/-!
# Rules

A rule is a selector and a block.
-/

namespace LosslessScss.Level

/-- The next atom of a selector, unless a block follows. -/
def selectorAtom (L : Level) (s : State) : Except Failure (Option (Node × State)) := do
  if ← L.ending.atMark '{' s.tokens then return none else found (L.atom true) s

theorem selectorAtom_advances (L : Level) :
  AdvancesIfSome L.selectorAtom
  := by
  intro s
  apply Ensures.after
  intro block
  split
  · exact ensures_none
  · exact ensures_found (L.atom_advances true) s

/-- A rule: a selector and a block. -/
def rule (L : Level) (s : State) : Except Failure (Node × State) := do
  let start := here s
  let (selector, s) ← collect L.selectorAtom L.selectorAtom_advances s
  let (block, s) ← L.group .block s
  return (.spanning .rule [.spanning .selector selector start, block] start, s)

theorem rule_advances (L : Level) :
  Advances L.rule
  := by
  intro s
  apply Ensures.bind (collect_keeps L.selectorAtom L.selectorAtom_advances s)
  intro (selector, s₁) le
  apply Ensures.bind (L.group_advances .block s₁)
  intro r lt
  exact Ensures.ok (Nat.lt_of_lt_of_le lt le)

end LosslessScss.Level
