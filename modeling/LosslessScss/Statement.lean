import LosslessScss.Lookahead
import Std.Data.TreeMap

/-!
# The forms of statements

A statement is a rule, a declaration or a run of loose nodes.  Which one it is shows only
in the tokens up to its end, which a survey looks through.  Groups in brackets are passed
over: inside of them nothing ends the statement, and every closing bracket closes the
innermost group.

`Statement.plainSurvey` looks at every token.  `Statement.survey` remembers where the
groups end that it has gone through, so that a later survey passes over them at once.
-/

namespace LosslessScss

/-- What a sequence of statements consists of: plain statements, or entries that a comma
ends as well. -/
inductive Scope where
  | statements
  | entries
  deriving DecidableEq, Repr

/-- The form of a statement: a selector with a block, a property with a value, or neither
of them. -/
inductive Form where
  | rule
  | declaration
  | loose
  deriving DecidableEq, Repr

namespace Statement

/-- What is known of the colons met in a statement: whether there is one, and whether one
of them cannot belong to a selector. -/
structure Colons where
  met : Bool
  separating : Bool
  deriving DecidableEq, Repr

/-- The form of a statement that ends without a block. -/
def Colons.form (colons : Colons) : Form := if colons.met then .declaration else .loose

/-- The form of a statement before a block. -/
def Colons.formBeforeBlock (colons : Colons) : Form :=
  if colons.separating then .declaration else .rule

/-- The number of tokens that open a group at the beginning of `t :: ts`, which is zero if
none is opened.  A curly bracket opens a group only inside of another one. -/
def openerLength (e : Ending) (inside : Bool) (t : Token) (ts : List Token) :
    Except Failure Nat :=
  match t.mark? with
  | some '(' | some '[' => return 1
  | some '{' => return if inside then 1 else 0
  | some '#' => do return if ← e.atMark '{' ts then 2 else 0
  | _ => return 0

/-- What a token that opens no group means for a statement: its form is settled, or a group
is closed, or the statement goes on. -/
inductive Turn where
  | settled (form : Form)
  | closed
  | passed (colons : Colons)
  deriving DecidableEq, Repr

/-- What the token `t` before `ts` means for a statement: `inside` says whether it stands in
a group, `first` whether it is the first token of the statement. -/
def turn (e : Ending) (scope : Scope) (inside first : Bool) (colons : Colons) (t : Token)
    (ts : List Token) : Except Failure Turn :=
  match t.mark? with
  | some ')' | some ']' | some '}' =>
    return if inside then .closed else .settled colons.form
  | some '{' => return .settled (if first then .loose else colons.formBeforeBlock)
  | some ';' => return if inside then .passed colons else .settled colons.form
  | some ',' =>
    return if !inside && scope = .entries then .settled colons.form else .passed colons
  | some ':' =>
    if inside || first then return .passed colons
    else do
      let name ← e.atName ts
      let colon ← e.atMark ':' ts
      return .passed ⟨true, colons.separating || !(name || colon)⟩
  | _ => return .passed colons

/-! ### Looking at every token -/

/-- The form of a statement of which the tokens `ts` are left, inside of `depth` groups. -/
def plainSurveyFrom (e : Ending) (scope : Scope) (depth : Nat) (first : Bool)
    (colons : Colons) (ts : List Token) : Except Failure Form :=
  match ts with
  | [] => do
    e.reach
    return colons.form
  | t :: ts => do
    match ← openerLength e (0 < depth) t ts with
    | n + 1 => plainSurveyFrom e scope (depth + 1) false colons (ts.drop n)
    | 0 =>
      match ← turn e scope (0 < depth) first colons t ts with
      | .settled form => return form
      | .closed => plainSurveyFrom e scope (depth - 1) false colons ts
      | .passed colons => plainSurveyFrom e scope depth false colons ts
termination_by ts.length
decreasing_by
  all_goals simp only [List.length_drop, List.length_cons]; omega

/-- The form of the statement at the beginning of `ts`. -/
def plainSurvey (e : Ending) (scope : Scope) (ts : List Token) : Except Failure Form :=
  plainSurveyFrom e scope 0 true ⟨false, false⟩ ts

/-! ### Remembering groups -/

/-- The groups gone through so far: for the index of the first token of a group the index
of the token that closes it, or none if the text ends before. -/
abbrev Memory := Std.TreeMap Nat (Option Nat)

/-- The innermost of the groups `opened` is closed by the token at `index`. -/
def Memory.close (memory : Memory) (opened : List Nat) (index : Nat) : Memory :=
  match opened with
  | [] => memory
  | o :: _ => memory.insert o (some index)

/-- None of the groups `opened` is ever closed. -/
def Memory.leaveOpen (memory : Memory) (opened : List Nat) : Memory :=
  opened.foldl (fun memory o => memory.insert o none) memory

/-- The form of a statement of which the tokens `ts` are left, the first of them with the
given index, inside of the groups that start at `opened`, the innermost one first. -/
def surveyFrom (e : Ending) (scope : Scope) (index : Nat) (opened : List Nat) (first : Bool)
    (colons : Colons) (memory : Memory) (ts : List Token) : Except Failure (Form × Memory) :=
  match ts with
  | [] => do
    e.reach
    return (colons.form, memory.leaveOpen opened)
  | t :: ts => do
    match ← openerLength e (!opened.isEmpty) t ts with
    | n + 1 =>
      match memory[index]? with
      | some (some close) =>
        surveyFrom e scope (close + 1) opened false colons memory (ts.drop (close - index))
      | some none => return (colons.form, memory.leaveOpen opened)
      | none =>
        surveyFrom e scope (index + n + 1) (index :: opened) false colons memory (ts.drop n)
    | 0 =>
      match ← turn e scope (!opened.isEmpty) first colons t ts with
      | .settled form => return (form, memory)
      | .closed =>
        surveyFrom e scope (index + 1) opened.tail false colons (memory.close opened index) ts
      | .passed colons => surveyFrom e scope (index + 1) opened false colons memory ts
termination_by ts.length
decreasing_by
  all_goals simp only [List.length_drop, List.length_cons]; omega

/-- The form of the statement at the beginning of `ts`, whose first token has the given
index. -/
def survey (e : Ending) (scope : Scope) (index : Nat) (memory : Memory) (ts : List Token) :
    Except Failure (Form × Memory) :=
  surveyFrom e scope index [] true ⟨false, false⟩ memory ts

end Statement

end LosslessScss
