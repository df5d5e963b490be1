import LosslessScss.Json.Tree
import LosslessScss.Node.Printer
import LosslessScss.Proofs.Tree.Derivation
import Mathlib.Data.List.Chain

/-!
# The height of syntax trees

A text may be of any length, but its tree has a bounded height.  On the way down from a node the
groups are as many as the parser may nest (`Derives.nested`), and between them the grammar lets at
most four other nodes follow each other: every node but a group has children of a lower
`Kind.rank` (`Produces.rank_lt`).  The parser goes no deeper either, as it reads what is inside of a
group at the next of its `levels`; and whatever is computed by recursion on the tree of a text needs
only so many calls inside of each other (`Node.foldWithin_eq`).
-/

namespace LosslessScss

/-! ### Ranks -/

namespace Kind

/-- Whether a node of a kind stands for a part of a text between two brackets. -/
def isGroup : Kind → Bool
  | block | parentheses | arguments | brackets | interpolation => true
  | _ => false

/-- How many nodes other than groups and tokens may follow each other downwards from a node of a
kind, itself included. -/
def rank : Kind → Nat
  | stylesheet => 5
  | rule => 4
  | selector | declaration | atRule => 3
  | property | value | pseudoClass | pseudoElement => 2
  | className | idName | functionCall => 1
  | _ => 0

theorem isGroup_kind (g : Group) :
  g.kind.isGroup = true
  := by
  cases g <;> rfl

theorem rank_of_isToken {k : Kind} :
  k.isToken = true → k.rank = 0
  := by
  cases k <;> decide

theorem rank_pos {k : Kind} :
  k.isToken = false → k.isGroup = false → 0 < k.rank
  := by
  cases k <;> decide

theorem rank_le {k : Kind} :
  k ≠ .stylesheet → k.rank ≤ 4
  := by
  cases k <;> decide

theorem stylesheet_not_mem_children (k : Kind) :
  .stylesheet ∉ k.children
  := by
  cases k <;> decide

/-- The children of a node that is no group are of a lower rank. -/
theorem rank_lt_of_mem_children {k : Kind} :
  k.isGroup = false → ∀ l ∈ k.children, l.rank < k.rank
  := by
  cases k <;> decide

end Kind

/-- A child is no stylesheet, and it is of a lower rank than its parent unless that is a group. -/
theorem Produces.rank_lt {scope : Scope} {k : Kind} {ns : List Node} {c : Node}
    (produces : Produces scope k ns) (plain : ∀ t, .leaf t ∈ ns → t.Plain) (mem : c ∈ ns) :
  c.kind ≠ .stylesheet ∧ (k.isGroup = false → c.kind.rank < k.rank)
  := by
  obtain token | inside := produces.child plain mem
  · constructor
    · intro stylesheet
      rw [stylesheet] at token
      cases token
    · intro noGroup
      rw [Kind.rank_of_isToken token]
      exact Kind.rank_pos produces.isToken noGroup
  · constructor
    · intro stylesheet
      rw [stylesheet] at inside
      exact k.stylesheet_not_mem_children inside
    · exact fun noGroup => Kind.rank_lt_of_mem_children noGroup _ inside

/-! ### Nested groups -/

/-- At most `n` groups lie inside of each other in a node, which may be one of them. -/
inductive Node.Nested : Nat → Node → Prop where
  | leaf {n t} : Nested n (.leaf t)
  | group {n k ns p q} (group : k.isGroup = true) (children : ∀ m ∈ ns, Nested n m) :
      Nested (n + 1) (.branch k ns p q)
  | other {n k ns p q} (noGroup : k.isGroup = false) (children : ∀ m ∈ ns, Nested n m) :
      Nested n (.branch k ns p q)

theorem Terminator.nested {e : Ending} {marks : List Char} {ts us : List Token} {ns : List Node}
    (terminator : Terminator e marks ts ns us) (n : Nat) :
  ∀ m ∈ ns, m.Nested n
  := by
  cases terminator with
  | mark => exact List.forall_mem_singleton.mpr .leaf
  | none => exact nofun

/-- The groups in what a phrase makes up are nested as deep as the level allows. -/
theorem Derives.nested {e : Ending} {n : Nat} {p : Phrase} {ts us : List Token} {ns : List Node}
    (derives : Derives e n p ts ns us) (given : ∀ m ∈ p.given, m.Nested n) :
  ∀ m ∈ ns, m.Nested n
  := by
  have none {n : Nat} : ∀ m ∈ ([] : List Node), m.Nested n := nofun
  have single {n : Nat} {m : Node} (own : m.Nested n) : ∀ o ∈ [m], o.Nested n :=
    List.forall_mem_singleton.mpr own
  have several {n : Nat} {ms ns : List Node} (first : ∀ m ∈ ms, m.Nested n)
      (second : ∀ m ∈ ns, m.Nested n) : ∀ m ∈ ms ++ ns, m.Nested n :=
    List.forall_mem_append.mpr ⟨first, second⟩
  have part {n : Nat} {k : Kind} (noGroup : k.isGroup = false) {ns : List Node}
      (children : ∀ m ∈ ns, m.Nested n) (p : Position) :
      ∀ m ∈ [Node.spanning k ns p], m.Nested n := single (.other noGroup children)
  -- The property, the colon and the value of a declaration, and its terminator.
  have declared {n : Nat} {c : Token} {ps vs fs : List Node} (property : ∀ m ∈ ps, m.Nested n)
      (value : ∀ m ∈ vs, m.Nested n) (final : ∀ m ∈ fs, m.Nested n) (p q r : Position) :
      ∀ m ∈ [Node.spanning .declaration
        ([.spanning .property ps p, .leaf c, .spanning .value vs q] ++ fs) r], m.Nested n :=
    part rfl (several (several (part rfl property p) (several (single .leaf) (part rfl value q)))
      final) r
  induction derives with
  | @group _ g _ _ _ _ _ _ _ _ _ ih => exact single (.group (Kind.isGroup_kind g) (ih none))
  | callNone => exact given
  | callArguments _ ih => exact part rfl (several given (ih none)) _
  | segmentToken | targetName | atomToken | statementToken => exact single .leaf
  | segmentsEnd | atomsStop | atomsEnd | headNone | sequenceEnd | sequenceCloser => exact none
  | segmentInterpolation _ ih | targetInterpolation _ ih | atomGroup _ _ ih
  | looseBlock _ _ _ _ ih => exact ih none
  | segmentsCons _ _ ih ih' | atomsCons _ _ _ ih ih' | loose _ _ _ _ _ ih ih'
  | sequenceCons _ _ _ ih ih' => exact several (ih none) (ih' none)
  | atomName _ _ ih => exact ih (single .leaf)
  | atomInterpolation _ _ ih ih' => exact ih' (ih none)
  | atomCompound which _ _ _ _ ih =>
    apply single (.other _ (ih none))
    obtain rfl | rfl := which <;> rfl
  | atomPseudo which _ _ _ _ ih ih' =>
    apply single (.other _ (ih' (ih none)))
    obtain rfl | rfl := which <;> rfl
  | headCall _ _ _ ih =>
    apply several
    · intro m mem
      obtain ⟨b, _, rfl⟩ := List.mem_map.mp mem
      exact .leaf
    · exact several (single .leaf) (ih none)
  | atRuleBlock _ _ _ _ ih ih' ih'' =>
    exact part rfl (several (single .leaf) (several (several (ih none) (ih' none)) (ih'' none))) _
  | atRule _ _ _ _ final ih ih' =>
    have parts := several (several (ih none) (ih' none)) (final.nested _)
    exact part rfl (several (single .leaf) parts) _
  | rule _ _ _ _ ih ih' => exact part rfl (several (part rfl (ih none) _) (ih' none)) _
  | declarationBlock _ _ _ _ _ final ih ih' ih'' =>
    exact declared (ih none) (several (ih' none) (ih'' none)) (final.nested _) _ _ _
  | declaration _ _ _ _ _ final ih ih' =>
    exact declared (ih none) (ih' none) (final.nested _) _ _ _

/-! ### Paths -/

namespace Node

/-- Nodes of a tree from its root downwards, each of them a child of the one before. -/
structure IsPath (n : Node) (path : List Node) : Prop where
  root : path.head? = some n
  steps : path.IsChain fun m c => c ∈ m.children

variable {scope : Scope} {k : Nat} {n c : Node} {path : List Node}

theorem isPath_singleton (n : Node) :
  n.IsPath [n]
  := ⟨rfl, .singleton n⟩

theorem IsPath.cons (child : c ∈ n.children) (below : c.IsPath path) :
  n.IsPath (n :: path)
  := by
  refine ⟨rfl, List.isChain_cons.mpr ⟨?_, below.steps⟩⟩
  rw [below.root]
  rintro _ ⟨⟩
  exact child

/-- A path ends with its root or goes on with a path from a child. -/
theorem IsPath.uncons (isPath : n.IsPath path) :
  path = [n] ∨ ∃ c below, path = n :: below ∧ c ∈ n.children ∧ c.IsPath below
  := by
  obtain ⟨root, steps⟩ := isPath
  obtain ⟨below, rfl⟩ := List.head?_eq_some_iff.mp root
  cases below with
  | nil => exact .inl rfl
  | cons c below =>
    obtain ⟨child, steps⟩ := List.isChain_cons_cons.mp steps
    exact .inr ⟨c, c :: below, rfl, child, rfl, steps⟩

/-- What lies below the first nodes of a path is a path. -/
theorem IsPath.behind {front behind : List Node} (isPath : n.IsPath (front ++ c :: behind)) :
  c.IsPath (c :: behind)
  := ⟨rfl, isPath.steps.right_of_append⟩

/-- A child in a tree as the grammar has it. -/
theorem Grammatical.child (grammatical : n.Grammatical scope) (child : c ∈ n.children) :
  (∃ scope, c.Grammatical scope) ∧ c.kind ≠ .stylesheet ∧
    (n.kind.isGroup = false → c.kind.rank < n.kind.rank)
  := by
  cases grammatical with
  | leaf => cases child
  | branch produces children =>
    refine ⟨⟨_, children c child⟩, produces.rank_lt ?_ child⟩
    intro t mem
    cases children _ mem with
    | leaf plain => exact plain

theorem Grammatical.of_path (grammatical : n.Grammatical scope) (isPath : n.IsPath path) :
  ∀ m ∈ path, ∃ scope, m.Grammatical scope
  := by
  induction path generalizing n scope with
  | nil => exact nofun
  | cons m path ih =>
    obtain same | ⟨c, below, same, child, isPath⟩ := isPath.uncons
    · cases same
      exact List.forall_mem_singleton.mpr ⟨scope, grammatical⟩
    · cases same
      obtain ⟨⟨scope', grammatical'⟩, _⟩ := grammatical.child child
      exact List.forall_mem_cons.mpr ⟨⟨scope, grammatical⟩, ih grammatical' isPath⟩

/-! ### Bounds -/

/-- A group takes one of the groups that may be nested, and the others are left to its children. -/
theorem Nested.child (nested : n.Nested k) (child : c ∈ n.children) :
  ∃ j, c.Nested j ∧ n.kind.isGroup.toNat + j ≤ k
  := by
  cases nested with
  | leaf => cases child
  | @group j _ _ _ _ group children =>
    refine ⟨j, children c child, ?_⟩
    rw [Node.kind, group, Bool.toNat_true, Nat.add_comm]
  | other noGroup children =>
    refine ⟨k, children c child, ?_⟩
    rw [Node.kind, noGroup, Bool.toNat_false, Nat.zero_add]

theorem Nested.own (nested : n.Nested k) (grammatical : n.Grammatical scope) :
  n.kind.isGroup.toNat ≤ k
  := by
  cases nested with
  | @leaf _ t =>
    cases grammatical with
    | leaf plain =>
      have noGroup : t.kind.isGroup = false := by
        have token := plain.kind
        cases is : t.kind <;> first | rfl | (rw [is] at token; cases token)
      rw [Node.kind, noGroup]
      exact Nat.zero_le k
  | group group =>
    rw [Node.kind, group]
    exact Nat.le_add_left 1 _
  | other noGroup =>
    rw [Node.kind, noGroup]
    exact Nat.zero_le k

/-- A path leads through as many groups as are nested, at most. -/
theorem IsPath.countP_isGroup_le (isPath : n.IsPath path) (nested : n.Nested k)
    (grammatical : n.Grammatical scope) :
  path.countP (·.kind.isGroup) ≤ k
  := by
  induction path generalizing n k scope with
  | nil => exact Nat.zero_le k
  | cons m path ih =>
    have count : (m :: path).countP (·.kind.isGroup)
        = m.kind.isGroup.toNat + path.countP (·.kind.isGroup) := by
      rw [List.countP_cons, Nat.add_comm]
      cases m.kind.isGroup <;> rfl
    rw [count]
    obtain same | ⟨c, below, same, child, isPath⟩ := isPath.uncons
    · cases same
      exact nested.own grammatical
    · cases same
      obtain ⟨⟨_, grammatical'⟩, _⟩ := grammatical.child child
      obtain ⟨j, nested', room⟩ := nested.child child
      have inside := ih isPath nested' grammatical'
      omega

/-- The nodes of a path that are no groups and have others below them become fewer with the rank of
the first one. -/
theorem IsPath.length_le_rank {others behind : List Node}
    (isPath : n.IsPath (others ++ c :: behind))
    (grammatical : n.Grammatical scope) (noGroup : ∀ m ∈ others, m.kind.isGroup = false) :
  others.length ≤ n.kind.rank
  := by
  induction others generalizing n scope with
  | nil => exact Nat.zero_le _
  | cons m others ih =>
    obtain ⟨own, noGroup⟩ := List.forall_mem_cons.mp noGroup
    obtain same | ⟨d, below, same, child, isPath⟩ := isPath.uncons
    · cases others <;> cases same
    · cases same
      obtain ⟨⟨_, grammatical'⟩, _, lower⟩ := grammatical.child child
      exact Nat.lt_of_le_of_lt (ih isPath grammatical' noGroup) (lower own)

/-- The length of a path from a node inside of which `k` groups are nested. -/
theorem IsPath.length_le (isPath : n.IsPath path) (nested : n.Nested k)
    (grammatical : n.Grammatical scope) :
  path.length ≤ 5 * k + n.kind.rank + 1
  := by
  induction path generalizing n k scope with
  | nil => exact Nat.zero_le _
  | cons m path ih =>
    obtain same | ⟨c, below, same, child, isPath⟩ := isPath.uncons
    · cases same
      exact Nat.le_add_left 1 _
    · cases same
      obtain ⟨⟨_, grammatical'⟩, noStylesheet, lower⟩ := grammatical.child child
      obtain ⟨j, nested', room⟩ := nested.child child
      have inside := ih isPath nested' grammatical'
      rw [List.length_cons]
      cases group : m.kind.isGroup with
      | true =>
        have rank := Kind.rank_le noStylesheet
        rw [group, Bool.toNat_true] at room
        omega
      | false =>
        have lower := lower group
        rw [group, Bool.toNat_false] at room
        omega

end Node

/-! ### Recursion on trees -/

namespace Node

variable {α : Type} (leafValue : Token → α) (branchValue : Kind → List α → α)

mutual

/-- The value of a tree that is computed from those of its leaves upwards. -/
def fold : Node → α
  | leaf t => leafValue t
  | branch k ns _ _ => branchValue k (foldList ns)

/-- The values of trees. -/
def foldList : List Node → List α
  | [] => []
  | n :: ns => n.fold :: foldList ns

end

/-- The same, with at most `d` calls inside of each other, if these are enough. -/
def foldWithin : Nat → Node → Option α
  | 0, _ => none
  | _ + 1, leaf t => some (leafValue t)
  | d + 1, branch k ns _ _ => (ns.mapM (foldWithin d)).map (branchValue k)

variable {leafValue branchValue} {n : Node} {ns : List Node} {d : Nat}

theorem mapM_foldWithin
    (enough : ∀ m ∈ ns,
      m.foldWithin leafValue branchValue d = some (m.fold leafValue branchValue)) :
  ns.mapM (foldWithin leafValue branchValue d) = some (foldList leafValue branchValue ns)
  := by
  induction ns with
  | nil => rfl
  | cons m ns ih =>
    obtain ⟨first, others⟩ := List.forall_mem_cons.mp enough
    rw [List.mapM_cons, first, ih others, foldList]
    rfl

/-- As many calls inside of each other are enough as there are nodes on a path. -/
theorem foldWithin_eq (bound : ∀ path, n.IsPath path → path.length ≤ d) :
  n.foldWithin leafValue branchValue d = some (n.fold leafValue branchValue)
  := by
  induction d generalizing n with
  | zero => exact absurd (bound [n] n.isPath_singleton) (Nat.not_succ_le_zero _)
  | succ d ih =>
    cases n with
    | leaf => rw [foldWithin, fold]
    | branch k ns p q =>
      have children : ∀ m ∈ ns, m.foldWithin leafValue branchValue d
          = some (m.fold leafValue branchValue) := by
        intro m mem
        apply ih
        intro path isPath
        exact Nat.le_of_succ_le_succ (bound _ (isPath.cons mem))
      rw [foldWithin, mapM_foldWithin children, fold]
      rfl

end Node

/-- The text of a node of a kind with the texts of its children. -/
def Kind.enclose (k : Kind) (texts : List String) : String :=
  k.opening ++ String.join texts ++ k.closing

/-- The shape of a node of a kind with the shapes of its children. -/
def Kind.shape (k : Kind) (shapes : List Json) : Json :=
  .ofMembers [("type", .string k.name), ("value", .array shapes)]

namespace Node

mutual

theorem written_eq_fold (n : Node) :
  n.written = n.fold Token.written Kind.enclose
  := by
  cases n with
  | leaf => rw [written, fold]
  | branch k ns p q => rw [written, fold, texts_eq_fold ns, Kind.enclose]

theorem texts_eq_fold (ns : List Node) :
  texts ns = foldList Token.written Kind.enclose ns
  := by
  cases ns with
  | nil => rfl
  | cons n ns => rw [texts, foldList, written_eq_fold n, texts_eq_fold ns]

end

mutual

theorem shape_eq_fold (n : Node) :
  n.shape = n.fold Token.shape Kind.shape
  := by
  cases n with
  | leaf => rw [shape, fold]
  | branch k ns p q => rw [shape, fold, shapes_eq_fold ns, Kind.shape]

theorem shapes_eq_fold (ns : List Node) :
  shapes ns = foldList Token.shape Kind.shape ns
  := by
  cases ns with
  | nil => rfl
  | cons n ns => rw [shapes, foldList, shape_eq_fold n, shapes_eq_fold ns]

end

end Node

/-! ### The trees of texts -/

/-- However long a text is, a path through its tree leads through at most 64 groups, at most four
other nodes follow each other above a further one, and the path has at most 326 nodes.  So the text
and the shape of the tree are computed with as many calls inside of each other. -/
theorem height_of_parse (source : String) (n : Node) (parsed : parse source = .ok n) :
  (∀ path, n.IsPath path →
    path.countP (·.kind.isGroup) ≤ 64 ∧
    (∀ front others g behind, path = front ++ others ++ g :: behind →
      (∀ m ∈ others, m.kind.isGroup = false ∧ m.kind ≠ .stylesheet) → others.length ≤ 4) ∧
    path.length ≤ 326) ∧
  n.foldWithin Token.written Kind.enclose 326 = some n.written ∧
  n.foldWithin Token.shape Kind.shape 326 = some n.shape
  := by
  have proper := (Lexer.stands_ofCursor (.ofString source)).proper_stream
  obtain ⟨ns, rfl, derives⟩ := TokenStream.derives_of_stylesheet parsed
  have grammatical := derives.stylesheet_grammatical proper
  have nested : (Node.spanning .stylesheet ns .origin).Nested 64 :=
    .other rfl (derives.nested nofun)
  have bound {path : List Node} (isPath : (Node.spanning .stylesheet ns .origin).IsPath path) :
      path.length ≤ 326 := isPath.length_le nested grammatical
  refine ⟨fun path isPath => ⟨?_, ?_, bound isPath⟩, ?_, ?_⟩
  · exact isPath.countP_isGroup_le nested grammatical
  · rintro front (_ | ⟨m, others⟩) g behind rfl noGroup
    · exact Nat.zero_le 4
    · rw [List.append_assoc] at isPath
      obtain ⟨scope, grammatical'⟩ := grammatical.of_path isPath m (by simp)
      have below : m.IsPath (m :: others ++ g :: behind) := isPath.behind
      have rank := Kind.rank_le (noGroup m List.mem_cons_self).2
      have length := below.length_le_rank grammatical' fun o mem => (noGroup o mem).1
      exact Nat.le_trans length rank
  · rw [Node.written_eq_fold]
    exact Node.foldWithin_eq fun _ => bound
  · rw [Node.shape_eq_fold]
    exact Node.foldWithin_eq fun _ => bound

/-- A rule, its selector, a pseudo class and its function call stand above the arguments. -/
theorem height_of_parse_arguments :
  ∃ n path, parse ":b(e)\x7b\x7d" = .ok n ∧ n.IsPath path ∧
    path.map Node.kind = [.stylesheet, .rule, .selector, .pseudoClass, .functionCall, .arguments,
      .identifier] ∧
    path.countP (·.kind.isGroup) ≤ 64 ∧ path.length ≤ 326 ∧
    n.foldWithin Token.written Kind.enclose 326 = some n.written
  := by
  let name := Node.leaf ⟨.identifier, "b", ⟨1, 1, 1, 1⟩, ⟨2, 1, 2, 2⟩⟩
  let entry := Node.leaf ⟨.identifier, "e", ⟨3, 1, 3, 3⟩, ⟨4, 1, 4, 4⟩⟩
  let arguments := Node.branch .arguments [entry] ⟨2, 1, 2, 2⟩ ⟨5, 1, 5, 5⟩
  let call := Node.branch .functionCall [name, arguments] ⟨1, 1, 1, 1⟩ ⟨5, 1, 5, 5⟩
  let pseudo := Node.branch .pseudoClass [call] .origin ⟨5, 1, 5, 5⟩
  let selector := Node.branch .selector [pseudo] .origin ⟨5, 1, 5, 5⟩
  let block := Node.branch .block [] ⟨5, 1, 5, 5⟩ ⟨7, 1, 7, 7⟩
  let rule := Node.branch .rule [selector, block] .origin ⟨7, 1, 7, 7⟩
  let root := Node.branch .stylesheet [rule] .origin ⟨7, 1, 7, 7⟩
  have parsed : parse ":b(e)\x7b\x7d" = .ok root := by decide +kernel
  have steps : [root, rule, selector, pseudo, call, arguments, entry].IsChain
      (fun m c => c ∈ m.children) := by
    decide +kernel
  have isPath : root.IsPath [root, rule, selector, pseudo, call, arguments, entry] := ⟨rfl, steps⟩
  obtain ⟨paths, written, _⟩ := height_of_parse _ root parsed
  obtain ⟨groups, _, length⟩ := paths _ isPath
  exact ⟨root, _, parsed, isPath, rfl, groups, length, written⟩

end LosslessScss
