import LosslessScss.Level

/-!
# Atoms

The smallest nodes that a selector, a property or a value consists of: single tokens,
groups, function calls, classes and ids, pseudo classes and pseudo elements.
-/

namespace LosslessScss.Level

/-! ### Tokens and calls -/

/-- The node that `caller` and the arguments directly after it make up, or `caller` itself
if there are none. -/
def call (L : Level) (caller : Node) (s : State) : Except Failure (Node × State) := do
  if ← L.ending.atMark '(' s.tokens then
    let (arguments, s) ← L.group .arguments s
    return (.spanning .functionCall [caller, arguments] caller.start, s)
  else return (caller, s)

theorem call_keeps (L : Level) (caller : Node) :
  Keeps (L.call caller)
  := by
  intro s
  apply Ensures.after
  intro opens
  split
  · apply Ensures.bind (L.group_advances .arguments s)
    intro r lt
    exact Ensures.ok (Nat.le_of_lt lt)
  · exact Ensures.ok (Nat.le_refl _)

/-- The next token as a leaf, or the function call that an identifier starts. -/
def single (L : Level) (s : State) : Except Failure (Node × State) := do
  let (t, s) ← L.next s
  if t.kind = .identifier then L.call (.leaf t) s else return (.leaf t, s)

theorem single_advances (L : Level) :
  Advances L.single
  := by
  intro s
  apply Ensures.bind (L.next_advances s)
  intro (t, s₁) lt
  dsimp only
  split
  · apply (L.call_keeps (.leaf t) s₁).mono
    intro r le
    exact Nat.lt_of_le_of_lt le lt
  · exact Ensures.ok lt

/-! ### Classes and ids -/

/-- Whether the token `t` continues the name of a class or an id.  A number with a point in
front does not, and only an identifier can come `first`. -/
def continuesName (first : Bool) (t : Token) : Bool :=
  if t.kind = .identifier then true
  else if t.kind = .number then !first && t.text.toList.head? != some '.'
  else !first && t.kind = .operator && t.text = "-"

theorem mark?_of_continuesName {first : Bool} {t : Token}
    (continues : continuesName first t = true) :
  t.mark? = none
  := by
  apply if_neg
  intro kind
  simp [continuesName, kind] at continues

/-- The next segment of the name of a class or an id, if the name goes on. -/
def segment (L : Level) (first : Bool) (s : State) :
    Except Failure (Option (Node × State)) := do
  if ← L.ending.atInterpolation s.tokens then found (L.group .interpolation) s
  else
    match s.tokens with
    | [] => return none
    | t :: ts => if continuesName first t then return some (.leaf t, s.advance ts) else return none

theorem segment_advances (L : Level) (first : Bool) :
  AdvancesIfSome (L.segment first)
  := by
  intro s
  apply Ensures.after
  intro opens
  split
  · exact ensures_found (L.group_advances .interpolation) s
  · split
    · exact ensures_none
    · next h =>
      split
      · apply Ensures.ok
        rintro _ _ ⟨⟩
        exact State.remaining_advance_lt h
      · exact ensures_none

/-- The segments of the name of a class or an id. -/
def segments (L : Level) (s : State) : Except Failure (List Node × State) := do
  match ← L.segment true s with
  | none => return ([], s)
  | some (n, s) =>
    let (ns, s) ← collect (L.segment false) (L.segment_advances false) s
    return (n :: ns, s)

theorem segments_keeps (L : Level) :
  Keeps L.segments
  := by
  intro s
  apply Ensures.bind (L.segment_advances true s)
  intro r first
  cases r with
  | none => exact Ensures.ok (Nat.le_refl _)
  | some pair =>
    obtain ⟨n, s₁⟩ := pair
    apply Ensures.bind (collect_keeps (L.segment false) (L.segment_advances false) s₁)
    intro r le
    exact Ensures.ok (Nat.le_trans le (Nat.le_of_lt (first n s₁ rfl)))

/-- A class or an id: the mark in front and the segments of the name. -/
def compound (L : Level) (kind : Kind) (s : State) : Except Failure (Node × State) := do
  let (sigil, s) ← L.next s
  let (ns, s) ← L.segments s
  return (.branch kind ns sigil.start ((ns.getLast?.map Node.stop).getD sigil.stop), s)

theorem compound_advances (L : Level) (kind : Kind) :
  Advances (L.compound kind)
  := by
  intro s
  apply Ensures.bind (L.next_advances s)
  intro (sigil, s₁) lt
  apply Ensures.bind (L.segments_keeps s₁)
  intro r le
  exact Ensures.ok (Nat.lt_of_le_of_lt le lt)

/-! ### Pseudo classes and pseudo elements -/

/-- The interpolation at the beginning of the tokens, or the next token as a leaf. -/
def target (L : Level) (s : State) : Except Failure (Node × State) := do
  if ← L.ending.atInterpolation s.tokens then L.group .interpolation s
  else
    let (t, s) ← L.next s
    return (.leaf t, s)

theorem target_advances (L : Level) :
  Advances L.target
  := by
  intro s
  apply Ensures.after
  intro opens
  split
  · exact L.group_advances .interpolation s
  · apply Ensures.bind (L.next_advances s)
    intro r lt
    exact Ensures.ok lt

/-- The colons in front of a pseudo class or a pseudo element, of which the first one is
the answer. -/
def colons (L : Level) (kind : Kind) (s : State) : Except Failure (Token × State) := do
  let (colon, s) ← L.next s
  if kind = .pseudoElement then
    let (_, s) ← L.next s
    return (colon, s)
  else return (colon, s)

theorem colons_advances (L : Level) (kind : Kind) :
  Advances (L.colons kind)
  := by
  intro s
  apply Ensures.bind (L.next_advances s)
  intro (colon, s₁) lt
  dsimp only
  split
  · apply Ensures.bind (L.next_advances s₁)
    intro r lt'
    exact Ensures.ok (Nat.lt_trans lt' lt)
  · exact Ensures.ok lt

/-- A pseudo class or a pseudo element: the colons in front and the name. -/
def pseudo (L : Level) (kind : Kind) (s : State) : Except Failure (Node × State) := do
  let (colon, s) ← L.colons kind s
  let (name, s) ← L.target s
  let (name, s) ← L.call name s
  return (.branch kind [name] colon.start name.stop, s)

theorem pseudo_advances (L : Level) (kind : Kind) :
  Advances (L.pseudo kind)
  := by
  intro s
  apply Ensures.bind (L.colons_advances kind s)
  intro (colon, s₁) lt
  apply Ensures.bind (L.target_advances s₁)
  intro (name, s₂) lt'
  apply Ensures.bind (L.call_keeps name s₂)
  intro r le
  exact Ensures.ok (Nat.lt_of_le_of_lt le (Nat.lt_trans lt' lt))

/-! ### Atoms -/

/-- The atom that a `#` starts, before the tokens `ts`. -/
def atHash (L : Level) (ts : List Token) (s : State) : Except Failure (Node × State) := do
  if ← L.ending.atMark '{' ts then
    let (n, s) ← L.group .interpolation s
    L.call n s
  else if ← L.ending.atName ts then L.compound .idName s
  else L.single s

theorem atHash_advances (L : Level) (ts : List Token) :
  Advances (L.atHash ts)
  := by
  intro s
  apply Ensures.after
  intro opens
  split
  · apply Ensures.bind (L.group_advances .interpolation s)
    intro (n, s₁) lt
    apply (L.call_keeps n s₁).mono
    intro r le
    exact Nat.lt_of_le_of_lt le lt
  · apply Ensures.after
    intro named
    split
    · exact L.compound_advances .idName s
    · exact L.single_advances s

/-- The atom that a point starts, before the tokens `ts`. -/
def atPoint (L : Level) (ts : List Token) (s : State) : Except Failure (Node × State) := do
  if ← L.ending.atName ts then L.compound .className s else L.single s

theorem atPoint_advances (L : Level) (ts : List Token) :
  Advances (L.atPoint ts)
  := by
  intro s
  apply Ensures.after
  intro named
  split
  · exact L.compound_advances .className s
  · exact L.single_advances s

/-- The atom that a colon in a selector starts, before the tokens `ts`. -/
def atColon (L : Level) (ts : List Token) (s : State) : Except Failure (Node × State) := do
  if ← L.ending.atMark ':' ts then
    if ← L.ending.atName ts.tail then L.pseudo .pseudoElement s else L.single s
  else if ← L.ending.atName ts then L.pseudo .pseudoClass s
  else L.single s

theorem atColon_advances (L : Level) (ts : List Token) :
  Advances (L.atColon ts)
  := by
  intro s
  apply Ensures.after
  intro double
  split
  · apply Ensures.after
    intro named
    split
    · exact L.pseudo_advances .pseudoElement s
    · exact L.single_advances s
  · apply Ensures.after
    intro named
    split
    · exact L.pseudo_advances .pseudoClass s
    · exact L.single_advances s

/-- One node of a selector, a property or a value.  In a `selector`, colons in front of a
name start a pseudo class or a pseudo element. -/
def atom (L : Level) (selector : Bool) (s : State) : Except Failure (Node × State) :=
  match s.tokens with
  | [] => .error L.ending.failure
  | t :: ts =>
    match t.mark? with
    | some '#' => L.atHash ts s
    | some '.' => L.atPoint ts s
    | some '(' => L.group .parentheses s
    | some '[' => L.group .brackets s
    | some '{' => L.group .block s
    | some ':' => if selector then L.atColon ts s else L.single s
    | some c => if isCloser c then .error ⟨.unexpected c, t.start⟩ else L.single s
    | none => L.single s

theorem atom_nil (L : Level) (selector : Bool) {s : State} (none : s.tokens = []) :
  L.atom selector s = .error L.ending.failure
  := by
  rw [atom, none]

theorem atom_advances (L : Level) (selector : Bool) :
  Advances (L.atom selector)
  := by
  intro s
  unfold atom
  split
  · exact Ensures.error
  · next t ts _ =>
    split
    · exact L.atHash_advances ts s
    · exact L.atPoint_advances ts s
    · exact L.group_advances .parentheses s
    · exact L.group_advances .brackets s
    · exact L.group_advances .block s
    · split
      · exact L.atColon_advances ts s
      · exact L.single_advances s
    · split
      · exact Ensures.error
      · exact L.single_advances s
    · exact L.single_advances s

end LosslessScss.Level
