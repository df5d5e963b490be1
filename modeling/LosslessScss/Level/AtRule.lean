import LosslessScss.Level.Run

/-!
# At-rules

An at-rule is a keyword, perhaps a name with arguments, further nodes, and a semicolon or a
block.
-/

namespace LosslessScss.Level

/-- The next `n` tokens as leaves. -/
def leaves (L : Level) : Nat → State → Except Failure (List Node × State)
  | 0, s => return ([], s)
  | n + 1, s => do
    let (t, s) ← L.next s
    let (ns, s) ← L.leaves n s
    return (.leaf t :: ns, s)

theorem leaves_keeps (L : Level) (n : Nat) :
  Keeps (L.leaves n)
  := by
  induction n with
  | zero =>
    intro s
    exact Ensures.ok (Nat.le_refl _)
  | succ n ih =>
    intro s
    apply Ensures.bind (L.next_advances s)
    intro (t, s₁) lt
    apply Ensures.bind (ih s₁)
    intro r le
    exact Ensures.ok (Nat.le_trans le (Nat.le_of_lt lt))

/-- The name with arguments after the keyword of an at-rule, and the white space in
front. -/
def head (L : Level) (s : State) : Except Failure (List Node × State) := do
  let blanks := (s.tokens.takeWhile (·.kind = .space)).length
  if ← L.ending.atCall (s.tokens.drop blanks) then
    let (name, s) ← L.leaves (blanks + 1) s
    let (arguments, s) ← L.group .arguments s
    return (name ++ [arguments], s)
  else return ([], s)

/-- The white space in front of a name is told from what follows it. -/
theorem head_eq (L : Level) (s : State) :
  ∃ blanks rest, s.tokens = blanks ++ rest ∧ (∀ b ∈ blanks, b.kind = .space) ∧
    s.tokens.dropWhile (·.kind = .space) = rest ∧
    L.head s = (do
      if ← L.ending.atCall rest then
        let (name, s) ← L.leaves (blanks.length + 1) s
        let (arguments, s) ← L.group .arguments s
        return (name ++ [arguments], s)
      else return ([], s))
  := by
  have tokens : s.tokens
      = s.tokens.takeWhile (·.kind = .space) ++ s.tokens.dropWhile (·.kind = .space) :=
    List.takeWhile_append_dropWhile.symm
  refine ⟨_, _, tokens, ?_, rfl, ?_⟩
  · intro b mem
    exact of_decide_eq_true (List.all_eq_true.mp List.all_takeWhile b mem)
  · have behind := @List.drop_left _ (s.tokens.takeWhile (·.kind = .space))
      (s.tokens.dropWhile (·.kind = .space))
    rw [List.takeWhile_append_dropWhile] at behind
    rw [head, behind]

theorem head_keeps (L : Level) :
  Keeps L.head
  := by
  intro s
  apply Ensures.after
  intro call
  split
  · apply Ensures.bind (L.leaves_keeps _ s)
    intro (name, s₁) le
    apply Ensures.bind (L.group_advances .arguments s₁)
    intro r lt
    exact Ensures.ok (Nat.le_trans (Nat.le_of_lt lt) le)
  · exact Ensures.ok (Nat.le_refl _)

/-- The semicolon or the block at the end of an at-rule. -/
def tail (L : Level) (s : State) : Except Failure (List Node × State) := do
  if ← L.ending.atMark '{' s.tokens then
    let (block, s) ← L.group .block s
    return ([block], s)
  else L.terminator ';' s

theorem tail_keeps (L : Level) :
  Keeps L.tail
  := by
  intro s
  apply Ensures.after
  intro block
  split
  · apply Ensures.bind (L.group_advances .block s)
    intro r lt
    exact Ensures.ok (Nat.le_of_lt lt)
  · exact L.terminator_keeps ';' s

/-- An at-rule: its keyword, perhaps a name with arguments, further nodes, and a semicolon
or a block. -/
def atRule (L : Level) (scope : Scope) (s : State) : Except Failure (Node × State) := do
  let (keyword, s) ← L.next s
  let (name, s) ← L.head s
  let (prelude, s) ← L.run scope true s
  let (final, s) ← L.tail s
  return (.spanning .atRule (.leaf keyword :: (name ++ prelude ++ final)) keyword.start, s)

theorem atRule_advances (L : Level) (scope : Scope) :
  Advances (L.atRule scope)
  := by
  intro s
  apply Ensures.bind (L.next_advances s)
  intro (keyword, s₁) lt
  apply Ensures.bind (L.head_keeps s₁)
  intro (name, s₂) le₁
  apply Ensures.bind (L.run_keeps scope true s₂)
  intro (prelude, s₃) le₂
  apply Ensures.bind (L.tail_keeps s₃)
  intro r le₃
  exact Ensures.ok (Nat.lt_of_le_of_lt (Nat.le_trans le₃ (Nat.le_trans le₂ le₁)) lt)

end LosslessScss.Level
