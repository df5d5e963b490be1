import LosslessScss.Node

/-!
# Walks through trees

A walk that keeps the nodes still to be visited on a stack visits them in preorder
(`Node.Walk.nodes_eq`).  A node may occur in a tree more than once; what tells its occurrences apart
is the way down to each of them, the numbers of the children to go to.  So preorder is told by the
ways down: each of them is gone once, and they follow each other in lexicographic order
(`Node.descendants_preorder`).
-/

namespace LosslessScss.Node

/-! ### The stack -/

/-- What is visited of a walk is the preorder of the nodes on its stack, from the top on. -/
theorem Walk.nodes_eq (w : Walk) :
  w.nodes = preorderList w.stack
  := by
  fun_induction Walk.nodes w with
  | case1 w done =>
    rcases w with ⟨_ | ⟨n, stack⟩⟩
    · rfl
    · cases done
  | case2 w n w' visits ih =>
    rcases w with ⟨_ | ⟨m, stack⟩⟩
    · cases visits
    · cases visits
      rw [ih, stack_pushChildren, preorderList_append]
      cases n <;> rfl

theorem preorderList_eq_flatMap (ns : List Node) :
  preorderList ns = ns.flatMap preorder
  := by
  induction ns with
  | nil => rfl
  | cons n ns ih => rw [preorderList, ih, List.flatMap_cons]

theorem preorder_eq (n : Node) :
  n.preorder = n :: n.children.flatMap preorder
  := by
  cases n with
  | leaf => rfl
  | branch => rw [preorder, preorderList_eq_flatMap, children]

/-! ### Ways down -/

/-- The node at the end of a way down from a node, on which each number tells the child to go
to. -/
def descend? (n : Node) : List Nat → Option Node
  | [] => some n
  | i :: way => n.children[i]?.bind (·.descend? way)

mutual

/-- The ways down from a node to itself and to its descendants. -/
def ways : Node → List (List Nat)
  | leaf _ => [[]]
  | branch _ ns _ _ => [] :: waysList 0 ns

/-- The ways down to the nodes `ns`, numbered from `i` on, and to their descendants. -/
def waysList (i : Nat) : List Node → List (List Nat)
  | [] => []
  | n :: ns => n.ways.map (i :: ·) ++ waysList (i + 1) ns

end

theorem ways_eq (n : Node) :
  n.ways = [] :: waysList 0 n.children
  := by
  cases n <;> rfl

theorem mem_waysList {i : Nat} {ns : List Node} {way : List Nat} :
  way ∈ waysList i ns ↔ ∃ j m rest, ns[j]? = some m ∧ rest ∈ m.ways ∧ way = (i + j) :: rest
  := by
  induction ns generalizing i with
  | nil => simp [waysList]
  | cons n ns ih =>
    rw [waysList, List.mem_append, List.mem_map, ih]
    constructor
    · rintro (⟨rest, mem, rfl⟩ | ⟨j, m, rest, child, mem, rfl⟩)
      · exact ⟨0, n, rest, rfl, mem, rfl⟩
      · exact ⟨j + 1, m, rest, child, mem, by rw [Nat.add_right_comm, Nat.add_assoc]⟩
    · rintro ⟨_ | j, m, rest, child, mem, rfl⟩
      · cases child
        exact .inl ⟨rest, mem, rfl⟩
      · exact .inr ⟨j, m, rest, child, mem, by rw [Nat.add_right_comm, Nat.add_assoc]⟩

/-- There is a way down to a node exactly if it is among the ways. -/
theorem mem_ways {n : Node} {way : List Nat} :
  way ∈ n.ways ↔ ∃ m, n.descend? way = some m
  := by
  rw [ways_eq]
  induction way generalizing n with
  | nil => simp [descend?]
  | cons i way ih =>
    simp only [List.mem_cons, reduceCtorEq, false_or, mem_waysList, Nat.zero_add, List.cons.injEq,
      descend?, Option.bind_eq_some_iff]
    constructor
    · rintro ⟨_, m, _, child, mem, rfl, rfl⟩
      rw [ways_eq] at mem
      obtain ⟨o, there⟩ := ih.mp mem
      exact ⟨o, m, child, there⟩
    · rintro ⟨o, m, child, there⟩
      have mem := ih.mpr ⟨o, there⟩
      rw [← ways_eq] at mem
      exact ⟨i, m, way, child, mem, rfl, rfl⟩

mutual

/-- The ways down lead to the nodes in preorder. -/
theorem map_descend?_ways (n : Node) :
  n.ways.map n.descend? = n.preorder.map some
  := by
  cases n with
  | leaf => rfl
  | branch k ns p q =>
    rw [ways, List.map_cons, map_descend?_waysList (branch k ns p q) ns 0 rfl]
    rfl

theorem map_descend?_waysList (n : Node) (ns : List Node) (i : Nat)
    (children : n.children.drop i = ns) :
  (waysList i ns).map n.descend? = (preorderList ns).map some
  := by
  cases ns with
  | nil => rfl
  | cons m ns =>
    have child : n.children[i]? = some m := by
      rw [← List.head?_drop, children, List.head?_cons]
    have behind : n.children.drop (i + 1) = ns := by
      rw [← List.tail_drop, children, List.tail_cons]
    have first : m.ways.map (fun way => n.descend? (i :: way)) = m.preorder.map some := by
      simp only [descend?, child, Option.bind_some]
      exact map_descend?_ways m
    rw [waysList, List.map_append, List.map_map, preorderList, List.map_append,
      map_descend?_waysList n ns (i + 1) behind]
    exact congrArg (· ++ _) first

end

mutual

theorem ways_pairwise (n : Node) :
  n.ways.Pairwise (· < ·)
  := by
  cases n with
  | leaf => exact List.pairwise_singleton _ _
  | branch k ns p q =>
    apply List.Pairwise.cons _ (waysList_pairwise 0 ns)
    intro way mem
    obtain ⟨_, _, _, _, _, rfl⟩ := mem_waysList.mp mem
    exact List.nil_lt_cons _ _

theorem waysList_pairwise (i : Nat) (ns : List Node) :
  (waysList i ns).Pairwise (· < ·)
  := by
  cases ns with
  | nil => exact List.Pairwise.nil
  | cons n ns =>
    rw [waysList, List.pairwise_append, List.pairwise_map]
    refine ⟨?_, waysList_pairwise (i + 1) ns, ?_⟩
    · apply (ways_pairwise n).imp
      intro way way' lt
      exact List.cons_lt_cons_iff.mpr (.inr ⟨rfl, lt⟩)
    · intro way mem way' mem'
      obtain ⟨rest, _, rfl⟩ := List.mem_map.mp mem
      obtain ⟨j, _, _, _, _, rfl⟩ := mem_waysList.mp mem'
      exact List.cons_lt_cons_iff.mpr (.inl (by omega))

end

/-! ### Preorder -/

/-- The descendants of a node are visited in preorder: the node itself, and then the preorders of
its children one after another.  So every way down is gone exactly once, after those that it
continues and in the order of the children at which the ways part. -/
theorem descendants_preorder (n : Node) :
  n.descendants = n.preorder ∧ n.preorder = n :: n.children.flatMap preorder ∧
    ∃ ways : List (List Nat), n.descendants.map some = ways.map n.descend? ∧
      (∀ way, way ∈ ways ↔ ∃ m, n.descend? way = some m) ∧ ways.Pairwise (· < ·)
  := by
  have visited : n.descendants = n.preorder := by
    rw [descendants, Walk.nodes_eq, preorderList_eq_flatMap, List.flatMap_singleton]
  refine ⟨visited, n.preorder_eq, n.ways, ?_, fun _ => mem_ways, n.ways_pairwise⟩
  rw [visited, map_descend?_ways]

end LosslessScss.Node
