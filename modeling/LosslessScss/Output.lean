import LosslessScss.Json.Printer
import LosslessScss.Json.Tree
import LosslessScss.Settings
import LosslessScss.Stylesheet

/-!
# Output

What the command-line tool writes for one input: the syntax tree or the tokens as a JSON
text, the source that the tree stands for, or that this source is the input again.
-/

namespace LosslessScss

/-- Why there is no output: the input cannot be read, or the source that its tree stands for
differs from it at the given byte. -/
inductive OutputFailure where
  | unread (failure : Failure)
  | changed (byte : Nat)
  deriving DecidableEq, Repr

/-- The number of elements before the first place where two lists differ, unless they are
equal. -/
def firstDifference {α : Type} [DecidableEq α] : List α → List α → Option Nat
  | [], [] => none
  | a :: as, b :: bs => if a = b then (firstDifference as bs).map (· + 1) else some 0
  | _, _ => some 0

theorem firstDifference_eq_none_iff {α : Type} [DecidableEq α] {as bs : List α} :
  firstDifference as bs = none ↔ as = bs
  := by
  fun_induction firstDifference as bs with
  | case1 => simp
  | case2 a as bs ih => simp [ih]
  | case3 a as b bs differ => simp [differ]
  | case4 as bs empty differ =>
    simp only [reduceCtorEq, false_iff]
    rintro rfl
    cases as with
    | nil => exact empty rfl rfl
    | cons a as => exact differ a as a as rfl rfl

/-- The text of a JSON value with the settings. -/
def Settings.render (c : Settings) (v : Json) : String := if c.pretty then v.pretty else v.compact

/-- A node as a JSON value with the settings. -/
def Settings.node (c : Settings) (n : Node) : Json := if c.positions then n.located else n.shape

/-- A token as a JSON value with the settings. -/
def Settings.token (c : Settings) (t : Token) : Json :=
  if c.positions then t.located else t.shape

/-- The output for an input that could be read. -/
def Settings.output (c : Settings) (source : String) : Except OutputFailure String :=
  match c.emission with
  | .tree =>
    match parse source with
    | .error f => .error (.unread f)
    | .ok tree => .ok (c.render (c.node tree))
  | .tokens =>
    match tokenize source with
    | .error f => .error (.unread f)
    | .ok tokens => .ok (c.render (.array (tokens.map c.token)))
  | .source =>
    match parse source with
    | .error f => .error (.unread f)
    | .ok tree => .ok tree.written
  | .check =>
    match parse source with
    | .error f => .error (.unread f)
    | .ok tree =>
      match firstDifference source.toUTF8.toList tree.written.toUTF8.toList with
      | some byte => .error (.changed byte)
      | none => .ok "ok"

end LosslessScss
