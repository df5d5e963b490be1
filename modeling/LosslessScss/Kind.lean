/-!
# Kinds of nodes

The kinds of nodes of a syntax tree: those of tokens, which carry text, and those of
composite constructs, which carry children.  A kind has a name, and an opening and a
closing delimiter: the punctuation around the content of a node that the node itself
leaves out.
-/

namespace LosslessScss

/-- The kind of a node. -/
inductive Kind where
  | space
  | lineComment
  | blockComment
  | number
  | colour
  | atKeyword
  | punctuation
  | operator
  | identifier
  | singleQuoted
  | doubleQuoted
  | variableName
  | stylesheet
  | rule
  | selector
  | block
  | declaration
  | property
  | value
  | atRule
  | arguments
  | parentheses
  | brackets
  | className
  | idName
  | interpolation
  | functionCall
  | pseudoClass
  | pseudoElement
  deriving DecidableEq, Repr

namespace Kind

/-- Every kind, the kinds of tokens first. -/
def all : List Kind :=
  [space, lineComment, blockComment, number, colour, atKeyword, punctuation, operator,
    identifier, singleQuoted, doubleQuoted, variableName, stylesheet, rule, selector, block,
    declaration, property, value, atRule, arguments, parentheses, brackets, className,
    idName, interpolation, functionCall, pseudoClass, pseudoElement]

theorem mem_all (k : Kind) :
  k ∈ all
  := by
  cases k <;> decide

/-- The name of a kind, in lower-case words joined by underscores. -/
def name : Kind → String
  | space => "space"
  | lineComment => "comment_singleline"
  | blockComment => "comment_multiline"
  | number => "number"
  | colour => "color_hex"
  | atKeyword => "atkeyword"
  | punctuation => "punctuation"
  | operator => "operator"
  | identifier => "identifier"
  | singleQuoted => "string_single"
  | doubleQuoted => "string_double"
  | variableName => "variable"
  | stylesheet => "stylesheet"
  | rule => "rule"
  | selector => "selector"
  | block => "block"
  | declaration => "declaration"
  | property => "property"
  | value => "value"
  | atRule => "atrule"
  | arguments => "arguments"
  | parentheses => "parentheses"
  | brackets => "attribute"
  | className => "class"
  | idName => "id"
  | interpolation => "interpolation"
  | functionCall => "function"
  | pseudoClass => "pseudo_class"
  | pseudoElement => "pseudo_element"

/-- The kind of a given name. -/
def ofName? (name : String) : Option Kind := all.find? (·.name == name)

/-- The words of the name of a kind, each with a capital and none between them. -/
def title (k : Kind) : String :=
  String.join ((k.name.splitOn "_").map String.capitalize)

/-- Whether a kind is one that the lexer produces. -/
def isToken : Kind → Bool
  | space | lineComment | blockComment | number | colour | atKeyword | punctuation
  | operator | identifier | singleQuoted | doubleQuoted | variableName => true
  | _ => false

/-- Whether a kind is that of white space or of a comment. -/
def isTrivia : Kind → Bool
  | space | lineComment | blockComment => true
  | _ => false

/-- What is written before the content of a node of a kind. -/
def opening : Kind → String
  | arguments | parentheses => "("
  | brackets => "["
  | block => "\x7b"
  | interpolation => "#\x7b"
  | className => "."
  | idName | colour => "#"
  | atKeyword => "@"
  | variableName => "$"
  | pseudoClass => ":"
  | pseudoElement => "::"
  | lineComment => "//"
  | blockComment => "/*"
  | doubleQuoted => "\""
  | singleQuoted => "'"
  | _ => ""

/-- What is written after the content of a node of a kind. -/
def closing : Kind → String
  | arguments | parentheses => ")"
  | brackets => "]"
  | block | interpolation => "\x7d"
  | blockComment => "*/"
  | doubleQuoted => "\""
  | singleQuoted => "'"
  | _ => ""

theorem ofName?_name (k : Kind) :
  ofName? k.name = some k
  := by
  cases k <;> decide

end Kind

end LosslessScss
