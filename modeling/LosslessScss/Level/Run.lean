import LosslessScss.Level.Atom

/-!
# Runs of atoms

A run of atoms goes on up to a token that ends it: a semicolon, a bracket that opens a block
or closes a group, and among entries a comma.
-/

namespace LosslessScss.Level

/-- Whether a token ends a run of atoms. -/
def endsRun (scope : Scope) (t : Token) : Bool :=
  match t.mark? with
  | some ';' | some '{' | some ')' | some ']' | some '}' => true
  | some ',' => scope = .entries
  | _ => false

/-- The next atom of a run, unless the run ends. -/
def runAtom (L : Level) (scope : Scope) (selector : Bool) (s : State) :
    Except Failure (Option (Node × State)) :=
  match s.tokens with
  | [] => do
    L.ending.reach
    return none
  | t :: _ => if endsRun scope t then .ok none else found (L.atom selector) s

theorem runAtom_advances (L : Level) (scope : Scope) (selector : Bool) :
  AdvancesIfSome (L.runAtom scope selector)
  := by
  intro s
  unfold runAtom
  split
  · apply Ensures.after
    intro _
    exact ensures_none
  · split
    · exact ensures_none
    · exact ensures_found (L.atom_advances selector) s

/-- The atoms up to the end of a run. -/
def run (L : Level) (scope : Scope) (selector : Bool) (s : State) :
    Except Failure (List Node × State) :=
  collect (L.runAtom scope selector) (L.runAtom_advances scope selector) s

theorem run_keeps (L : Level) (scope : Scope) (selector : Bool) :
  Keeps (L.run scope selector)
  := collect_keeps (L.runAtom scope selector) (L.runAtom_advances scope selector)

/-- The next token as a leaf, if it is the mark `c`. -/
def terminator (L : Level) (c : Char) (s : State) : Except Failure (List Node × State) := do
  if ← L.ending.atMark c s.tokens then
    let (t, s) ← L.next s
    return ([.leaf t], s)
  else return ([], s)

theorem terminator_keeps (L : Level) (c : Char) :
  Keeps (L.terminator c)
  := by
  intro s
  apply Ensures.after
  intro there
  split
  · apply Ensures.bind (L.next_advances s)
    intro r lt
    exact Ensures.ok (Nat.le_of_lt lt)
  · exact Ensures.ok (Nat.le_refl _)

/-- The place of the next token, if there is one. -/
def here (s : State) : Position := (s.tokens.head?.map Token.start).getD .origin

end LosslessScss.Level
