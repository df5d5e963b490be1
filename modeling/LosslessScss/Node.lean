import LosslessScss.Token

/-!
# Nodes of a syntax tree

A `Node` is a leaf, which is a token, or a branch, which has children and a place of its
own.  `Node.preorder` lists a node and its descendants by recursion on the tree,
`Node.descendants` with a stack of the nodes that are still to be visited.
-/

namespace LosslessScss

/-- A node of a syntax tree. -/
inductive Node where
  | leaf (token : Token)
  | branch (kind : Kind) (children : List Node) (start stop : Position)

namespace Node

instance : Inhabited Node := ⟨branch .stylesheet [] .origin .origin⟩

/-- The kind of a node. -/
def kind : Node → Kind
  | leaf t => t.kind
  | branch k _ _ _ => k

/-- The place of the first character of a node. -/
def start : Node → Position
  | leaf t => t.start
  | branch _ _ p _ => p

/-- The place after the last character of a node. -/
def stop : Node → Position
  | leaf t => t.stop
  | branch _ _ _ q => q

/-- The text of a leaf. -/
def text? : Node → Option String
  | leaf t => some t.text
  | branch _ _ _ _ => none

/-- The children of a branch; a leaf has none. -/
def children : Node → List Node
  | leaf _ => []
  | branch _ children _ _ => children

/-- Whether a node is a leaf of the given kind and text. -/
def isLeaf (n : Node) (kind : Kind) (text : String) : Bool :=
  n.kind = kind && n.text? = some text

/-- The branch that extends from the first to the last of its children, or stands at a given
place without any. -/
def spanning (kind : Kind) (children : List Node) (position : Position) : Node :=
  branch kind children ((children.head?.map start).getD position)
    ((children.getLast?.map stop).getD position)

/-! ### Equality -/

mutual

/-- Whether two nodes are equal, places included. -/
def same : Node → Node → Bool
  | leaf s, leaf t => s = t
  | branch j ms p q, branch k ns r s => j = k && sameList ms ns && p = r && q = s
  | _, _ => false

/-- Whether two lists of nodes are equal. -/
def sameList : List Node → List Node → Bool
  | [], [] => true
  | m :: ms, n :: ns => same m n && sameList ms ns
  | _, _ => false

end

mutual

theorem eq_of_same {m n : Node} (h : same m n = true) :
  m = n
  := by
  cases m <;> cases n <;> simp only [same, Bool.and_eq_true, decide_eq_true_eq] at h
  case leaf.leaf => rw [h]
  case leaf.branch => cases h
  case branch.leaf => cases h
  case branch.branch =>
    obtain ⟨⟨⟨rfl, children⟩, rfl⟩, rfl⟩ := h
    rw [eq_of_sameList children]

theorem eq_of_sameList {ms ns : List Node} (h : sameList ms ns = true) :
  ms = ns
  := by
  cases ms <;> cases ns <;> simp only [sameList, Bool.and_eq_true] at h
  case nil.nil => rfl
  case nil.cons => cases h
  case cons.nil => cases h
  case cons.cons => rw [eq_of_same h.1, eq_of_sameList h.2]

end

mutual

theorem same_self (n : Node) :
  same n n = true
  := by
  cases n with
  | leaf => simp [same]
  | branch _ children _ _ => simp [same, sameList_self children]

theorem sameList_self (ns : List Node) :
  sameList ns ns = true
  := by
  cases ns with
  | nil => rfl
  | cons n ns => simp [sameList, same_self n, sameList_self ns]

end

instance : DecidableEq Node := fun m n =>
  if h : same m n = true then isTrue (eq_of_same h)
  else isFalse fun eq => h (eq ▸ same_self m)

/-! ### Descendants -/

mutual

/-- A node followed by its descendants, each before its own children. -/
def preorder : Node → List Node
  | leaf t => [leaf t]
  | branch k children p q => branch k children p q :: preorderList children

/-- The nodes of a list, each followed by its descendants. -/
def preorderList : List Node → List Node
  | [] => []
  | n :: ns => n.preorder ++ preorderList ns

end

theorem preorderList_append (ms ns : List Node) :
  preorderList (ms ++ ns) = preorderList ms ++ preorderList ns
  := by
  induction ms with
  | nil => rfl
  | cons m ms ih => simp only [List.cons_append, preorderList, ih, List.append_assoc]

mutual

/-- The number of nodes of a tree. -/
def size : Node → Nat
  | leaf _ => 1
  | branch _ children _ _ => 1 + sizeList children

/-- The number of nodes of a list of trees. -/
def sizeList : List Node → Nat
  | [] => 0
  | n :: ns => n.size + sizeList ns

end

theorem sizeList_append (ms ns : List Node) :
  sizeList (ms ++ ns) = sizeList ms + sizeList ns
  := by
  induction ms with
  | nil => simp [sizeList]
  | cons m ms ih => simp [sizeList, ih, Nat.add_assoc]

theorem size_eq (n : Node) :
  n.size = 1 + sizeList n.children
  := by
  cases n <;> simp [size, children, sizeList]

/-- A walk through trees: the nodes on the stack are still to be visited, the top one first. -/
structure Walk where
  stack : List Node

namespace Walk

/-- Puts nodes on the stack one after another, so that the last one is on top. -/
def push (w : Walk) (ns : List Node) : Walk := ⟨ns.foldl (fun stack n => n :: stack) w.stack⟩

/-- Puts the children of a node on the stack from the last one to the first. -/
def pushChildren (w : Walk) (n : Node) : Walk := w.push n.children.reverse

/-- The node on top of the stack and the walk on from its children, unless every node has been
visited. -/
def next? : Walk → Option (Node × Walk)
  | ⟨[]⟩ => none
  | ⟨n :: stack⟩ => some (n, (mk stack).pushChildren n)

theorem stack_pushChildren (w : Walk) (n : Node) :
  (w.pushChildren n).stack = n.children ++ w.stack
  := by
  simp [pushChildren, push]

theorem sizeList_lt_of_next? {w w' : Walk} {n : Node} (h : w.next? = some (n, w')) :
  sizeList w'.stack < sizeList w.stack
  := by
  rcases w with ⟨_ | ⟨m, stack⟩⟩
  · cases h
  · cases h
    simp only [stack_pushChildren, sizeList_append, sizeList, size_eq]
    omega

/-- The nodes that are visited one after another. -/
def nodes (w : Walk) : List Node :=
  match _h : w.next? with
  | none => []
  | some (n, w') => n :: w'.nodes
termination_by sizeList w.stack
decreasing_by exact sizeList_lt_of_next? _h

end Walk

/-- A node and all of its descendants in the order in which they are visited. -/
def descendants (n : Node) : List Node := (Walk.mk [n]).nodes

/-! ### Shifting -/

mutual

/-- A node of a text that itself stands at `p`. -/
def shift (p : Position) : Node → Node
  | leaf t => leaf (t.shift p)
  | branch k children q r =>
    branch k (shiftList p children) (p.shift q) (p.shift r)

/-- The nodes of a text that itself stands at `p`. -/
def shiftList (p : Position) : List Node → List Node
  | [] => []
  | n :: ns => n.shift p :: shiftList p ns

end

end Node

end LosslessScss
