import LosslessScss.Node

/-!
# Texts of nodes

`Node.written` is the text of a node in the source: its content between the delimiters of
its kind.  `Node.flatten` is the same as a list of lexemes, in which the delimiters of a
branch are lexemes of punctuation.
-/

namespace LosslessScss

namespace Node

mutual

/-- The text of a node in the source. -/
def written : Node → String
  | leaf t => t.written
  | branch k children _ _ => k.opening ++ String.join (texts children) ++ k.closing

/-- The texts of nodes that follow each other. -/
def texts : List Node → List String
  | [] => []
  | n :: ns => n.written :: texts ns

end

theorem texts_eq_map (ns : List Node) :
  texts ns = ns.map written
  := by
  induction ns with
  | nil => rfl
  | cons n ns ih => simp [texts, ih]

end Node

/-- The lexemes of punctuation whose texts make up a delimiter. -/
def Lexeme.marks (delimiter : String) : List Lexeme :=
  delimiter.toList.map fun c => ⟨.punctuation, [c]⟩

namespace Node

mutual

/-- The lexemes of a node, with those that its delimiters stand for. -/
def flatten : Node → List Lexeme
  | leaf t => [t.lexeme]
  | branch k children _ _ =>
    Lexeme.marks k.opening ++ flattenList children ++ Lexeme.marks k.closing

/-- The lexemes of nodes that follow each other. -/
def flattenList : List Node → List Lexeme
  | [] => []
  | n :: ns => n.flatten ++ flattenList ns

end

end Node

end LosslessScss
