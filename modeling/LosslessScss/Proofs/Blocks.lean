import LosslessScss.Proofs.Origin

/-!
# The blocks of a derivation

Every block among the nodes that a phrase makes up, however deep it lies in them, has been read
as a sequence of statements inside of a group (`Derives.everyBlock`).
-/

namespace LosslessScss

/-- Every block among the nodes `ns` and their descendants satisfies `P`. -/
def Node.EveryBlock (P : Node → Prop) (ns : List Node) : Prop :=
  ∀ b ∈ preorderList ns, b.kind = .block → P b

/-- A node has as its children what is read inside of a block, somewhere in the tokens `ts`. -/
def ReadInside (e : Ending) (ts : List Token) (b : Node) : Prop :=
  ∃ n p us vs, n < maxNesting ∧ us <:+ ts ∧
    Derives e n (.sequence (.inside .block p)) us b.children vs

/-- A block that is made of tokens is a group of them. -/
theorem Node.Made.readInside {e : Ending} {ts : List Token} {b : Node} (made : b.Made e ts)
    (proper : ∀ t ∈ ts, t.Proper) (block : b.kind = .block) :
  ReadInside e ts b
  := by
  cases made with
  | @leaf t mem =>
    have token := (proper t mem).kind
    rw [show t.kind = .block from block] at token
    cases token
  | @group n g o us _ _ _ _ _ deep part inside =>
    obtain rfl : g = .block := by cases g <;> first | rfl | cases block
    exact ⟨n, o, us, _, deep, part, inside⟩
  | statement _ _ kind =>
    cases block
    exact absurd kind (by decide)
  | part kind =>
    cases block
    exact absurd kind (by decide)

/-- Every block that a phrase makes up is read inside of a group, if the nodes that the phrase is
given are made of the tokens. -/
theorem Derives.everyBlock {e : Ending} {n : Nat} {p : Phrase} {ts us ws : List Token}
    {ns : List Node} (derives : Derives e n p ts ns us) (deep : n ≤ maxNesting) (part : ts <:+ ws)
    (proper : ∀ t ∈ ws, t.Proper) (given : Node.Every (Node.Made e ws) p.given) :
  Node.EveryBlock (ReadInside e ws) ns
  := fun b mem block => (derives.made deep part given b mem).readInside proper block

end LosslessScss
