import LosslessScss.Proofs.Extension

/-!
# The grammar of syntax trees

What the children of every kind of node may be.  `Produces scope k ns` is one production: a node of
the kind `k` may have the children `ns`, where `scope` is that of the nearest stylesheet, block or
other group, the node itself included.  A tree is `Node.Grammatical` if each of its branches has a
production.  Where a kind of node occurs in such a tree, and where it does not, is told by
`Node.Worded` of every node and the scope that `Node.inScopes` finds for it.
-/

namespace LosslessScss

namespace Kind

/-- Whether a node of a kind has statements as its children. -/
def holdsStatements : Kind → Bool
  | stylesheet | block | arguments | parentheses | brackets | interpolation => true
  | _ => false

/-- The scope inside of a node of a kind that stands in the scope `outer`. -/
def scope (outer : Scope) : Kind → Scope
  | stylesheet | block => .statements
  | arguments | parentheses | brackets | interpolation => .entries
  | _ => outer

/-- The kinds of statements and of their parts that are no tokens. -/
def statements : List Kind := [rule, declaration, atRule, block] ++ atoms false

theorem holdsStatements_group (g : Group) :
  g.kind.holdsStatements = true
  := by
  cases g <;> rfl

theorem scope_group (outer : Scope) (g : Group) :
  g.kind.scope outer = g.scope
  := by
  cases g <;> rfl

end Kind

/-! ### Parts of nodes -/

/-- A token of a kind that the lexer produces and that is no bracket. -/
structure Token.Plain (t : Token) : Prop where
  kind : t.kind.isToken = true
  noBracket : ∀ c ∈ t.mark?, c ∉ ['(', ')', '[', ']', '{', '}']

namespace Node

/-- A node of a selector, a property or a value: a token that ends no statement, or a node of one of
the kinds of atoms. -/
def IsAtom (scope : Scope) (selector : Bool) (n : Node) : Prop :=
  (∃ t, n = .leaf t ∧ ∀ c ∈ t.mark?, c ∉ scope.terminators) ∨ n.kind ∈ Kind.atoms selector

/-- A node that stands for a name: an identifier or an interpolation in its place. -/
def IsName (n : Node) : Prop := n.kind = .identifier ∨ n.kind = .interpolation

/-- A node that continues the name of a class or an id: another name, a number that does not start
with a point, or a minus. -/
def ContinuesName (n : Node) : Prop :=
  n.IsName ∨ (n.kind = .number ∧ ∀ s ∈ n.text?, s.toList.head? ≠ some '.') ∨
    n.isLeaf .operator "-" = true

/-- The nodes between the keyword of an at-rule and its further nodes: none, or a name with its
arguments behind white space. -/
inductive CallHead : List Node → Prop where
  | none : CallHead []
  | call {blanks : List Token} {name : Token} {a : Node} (blank : ∀ b ∈ blanks, b.kind = .space)
      (identifier : name.kind = .identifier) (arguments : a.kind = .arguments) :
      CallHead (blanks.map .leaf ++ [.leaf name, a])

/-- No node at all, or a leaf that is one of the given marks. -/
inductive OptionalMark (marks : List Char) : List Node → Prop where
  | absent : OptionalMark marks []
  | leaf {t : Token} {c : Char} (mem : c ∈ marks) (mark : t.mark? = some c) :
      OptionalMark marks [.leaf t]

end Node

/-! ### Productions -/

/-- A node of the kind `k` may have the children `ns`. -/
inductive Produces (scope : Scope) : Kind → List Node → Prop where
  | sequence {k ns} (holds : k.holdsStatements = true)
      (statements : ∀ n ∈ ns, n.kind.isToken = true ∨ n.kind ∈ Kind.statements) :
      Produces scope k ns
  | rule {s b} (selector : s.kind = .selector) (some : s.children ≠ []) (block : b.kind = .block) :
      Produces scope .rule [s, b]
  | selector {ns} (atoms : ∀ n ∈ ns, n.IsAtom scope true) : Produces scope .selector ns
  | declaration {p c v fs} (property : p.kind = .property) (colon : c.mark? = some ':')
      (value : v.kind = .value) (final : Node.OptionalMark scope.terminators fs) :
      Produces scope .declaration (p :: .leaf c :: v :: fs)
  | property {ns} (atoms : ∀ n ∈ ns, n.IsAtom scope false)
      (noColon : ∀ t, .leaf t ∈ ns → t.mark? ≠ some ':') : Produces scope .property ns
  | value {ns} (atoms : ∀ n ∈ ns, n.IsAtom scope false) : Produces scope .value ns
  | valueBlock {ns b} (atoms : ∀ n ∈ ns, n.IsAtom scope false) (block : b.kind = .block) :
      Produces scope .value (ns ++ [b])
  | atRule {t hs ns fs} (keyword : t.kind = .atKeyword) (head : Node.CallHead hs)
      (prelude : ∀ n ∈ ns, n.IsAtom scope true) (final : Node.OptionalMark [';'] fs) :
      Produces scope .atRule (.leaf t :: (hs ++ ns ++ fs))
  | atRuleBlock {t hs ns b} (keyword : t.kind = .atKeyword) (head : Node.CallHead hs)
      (prelude : ∀ n ∈ ns, n.IsAtom scope true) (block : b.kind = .block) :
      Produces scope .atRule (.leaf t :: (hs ++ ns ++ [b]))
  | functionCall {m a} (name : m.IsName) (arguments : a.kind = .arguments) :
      Produces scope .functionCall [m, a]
  | compound {k n ns} (which : k = .className ∨ k = .idName) (first : n.IsName)
      (others : ∀ m ∈ ns, m.ContinuesName) : Produces scope k (n :: ns)
  | pseudo {k n} (which : k = .pseudoClass ∨ k = .pseudoElement)
      (name : n.IsName ∨ n.kind = .functionCall) : Produces scope k [n]

/-- Every node of a tree that stands in a scope is as the grammar has it. -/
inductive Node.Grammatical : Scope → Node → Prop where
  | leaf {scope t} (plain : t.Plain) : Grammatical scope (.leaf t)
  | branch {scope k ns p q} (produces : Produces (k.scope scope) k ns)
      (children : ∀ n ∈ ns, Grammatical (k.scope scope) n) :
      Grammatical scope (.branch k ns p q)

/-! ### Nodes and their scopes -/

namespace Node

mutual

/-- A node that stands in the scope `outer` and its descendants, as in `Node.preorder`, each with
the scope of the nearest stylesheet, block or other group, which may be the node itself. -/
def inScopes (outer : Scope) : Node → List (Scope × Node)
  | leaf t => [(outer, leaf t)]
  | branch k ns p q => (k.scope outer, branch k ns p q) :: inScopesList (k.scope outer) ns

/-- The same for the nodes of a list. -/
def inScopesList (outer : Scope) : List Node → List (Scope × Node)
  | [] => []
  | n :: ns => n.inScopes outer ++ inScopesList outer ns

end

mutual

/-- Every node of a tree has its scope. -/
theorem map_snd_inScopes (outer : Scope) (n : Node) :
  (n.inScopes outer).map Prod.snd = n.preorder
  := by
  cases n with
  | leaf t => rw [inScopes, preorder, List.map_singleton]
  | branch k ns p q => rw [inScopes, preorder, List.map_cons, map_snd_inScopesList _ ns]

theorem map_snd_inScopesList (outer : Scope) (ns : List Node) :
  (inScopesList outer ns).map Prod.snd = preorderList ns
  := by
  cases ns with
  | nil => rfl
  | cons n ns =>
    rw [inScopesList, preorderList, List.map_append, map_snd_inScopes outer n,
      map_snd_inScopesList outer ns]

end

/-- Where a node and its children may occur in a tree, and what they hold, when `scope` is that of
the nearest stylesheet, block or other group. -/
structure Worded (scope : Scope) (n : Node) : Prop where
  /-- Tokens hold a text and all other nodes hold children. -/
  holds : n.text?.isSome = n.kind.isToken
  noBracket : ∀ t, n = .leaf t → ∀ c ∈ t.mark?, c ∉ ['(', ')', '[', ']', '{', '}']
  stylesheet : ∀ c ∈ n.children, c.kind ≠ .stylesheet
  rule : n.kind = .rule →
    ∃ s b, n.children = [s, b] ∧ s.kind = .selector ∧ s.children ≠ [] ∧ b.kind = .block
  selector : ∀ c ∈ n.children, c.kind = .selector → n.kind = .rule
  declaration : n.kind = .declaration →
    ∃ p c v fs, n.children = p :: .leaf c :: v :: fs ∧ p.kind = .property ∧
      c.mark? = some ':' ∧ v.kind = .value ∧
      (fs = [] ∨ ∃ t, fs = [.leaf t] ∧
        (t.mark? = some ';' ∨ t.mark? = some ',' ∧ scope = .entries))
  parts : ∀ c ∈ n.children, c.kind = .property ∨ c.kind = .value → n.kind = .declaration
  colon : n.kind = .property → ∀ t, .leaf t ∈ n.children → t.mark? ≠ some ':'
  /-- A block is the second child of a rule, the last child of a value or of an at-rule, or a
  statement. -/
  block : ∀ before b after, n.children = before ++ b :: after → b.kind = .block →
    n.kind = .rule ∧ before.length = 1 ∨ n.kind ∈ [.value, .atRule] ∧ after = [] ∨
      n.kind.holdsStatements = true
  /-- A semicolon is a statement, the terminator of a declaration or the last child of an
  at-rule. -/
  semicolon : ∀ before t after, n.children = before ++ .leaf t :: after → t.mark? = some ';' →
    n.kind.holdsStatements = true ∨ n.kind = .declaration ∧ before.length = 3 ∨
      n.kind = .atRule ∧ after = []
  comma : scope = .entries → n.kind ∈ [.selector, .property, .value, .atRule] →
    ∀ t, .leaf t ∈ n.children → t.mark? ≠ some ','
  atRule : n.kind = .atRule → ∃ t ns, n.children = .leaf t :: ns ∧ t.kind = .atKeyword
  functionCall : n.kind = .functionCall →
    ∃ c a, n.children = [c, a] ∧ c.IsName ∧ a.kind = .arguments
  compound : n.kind = .className ∨ n.kind = .idName →
    ∃ c cs, n.children = c :: cs ∧ c.IsName ∧ ∀ c ∈ cs, c.ContinuesName
  pseudo : n.kind = .pseudoClass ∨ n.kind = .pseudoElement →
    ∃ c, n.children = [c] ∧ (c.IsName ∨ c.kind = .functionCall)

end Node

end LosslessScss
