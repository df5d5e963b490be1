import LosslessScss.Proofs.Likeness.Survey
import LosslessScss.Proofs.Reading.Shift

/-!
# Stylesheets at another place

The parser copies the places of tokens without looking at them.  So of a text that stands at a
place `p` of a larger one it makes the nodes that it makes of the text itself, with every place
shifted by `p`, or it fails in the same way at the shifted place (`Level.sequence_shift`).
-/

namespace LosslessScss

namespace Node

theorem kind_shift (p : Position) (n : Node) :
  (n.shift p).kind = n.kind
  := by
  cases n <;> rfl

theorem start_shift (p : Position) (n : Node) :
  (n.shift p).start = p.shift n.start
  := by
  cases n <;> rfl

theorem stop_shift (p : Position) (n : Node) :
  (n.shift p).stop = p.shift n.stop
  := by
  cases n <;> rfl

/-- Nodes that are the shifted ones of others, one by one. -/
theorem eq_shiftList {p : Position} {ms ns : List Node}
    (shifted : List.Forall₂ (fun m n => n = m.shift p) ms ns) :
  ns = shiftList p ms
  := by
  induction shifted with
  | nil => rfl
  | cons first _ ih => rw [shiftList, first, ih]

end Node

/-- What follows the last token of a text that itself stands at `p`. -/
def Ending.shift (p : Position) : Ending → Ending
  | finished q => finished (p.shift q)
  | broken f => broken (f.shift p)

/-- The tokens of a text that itself stands at `p`, and what follows them. -/
def TokenStream.shift (p : Position) (s : TokenStream) : TokenStream :=
  ⟨s.tokens.map (Token.shift p), s.ending.shift p⟩

theorem Stretch.stream_shift (p : Position) (s : Stretch) :
  (s.shift p).stream = s.stream.shift p
  := by
  obtain ⟨tokens, failure, cursor⟩ := s
  cases failure <;> rfl

/-- In the second of two runs everything stands at places shifted by `p`. -/
def Likeness.shift (p : Position) : Likeness where
  token t u := u = t.shift p
  place q r := r = p.shift q
  node m n := n = m.shift p
  failure f g := g = f.shift p
  state s s' := s'.tokens = s.tokens.map (Token.shift p)
  escapes _ := False
  kind_eq := by
    rintro t _ rfl
    rfl
  mark_eq := by
    rintro t _ rfl
    rfl
  continues_eq := by
    rintro t _ rfl first
    rfl
  start := by
    rintro t _ rfl
    rfl
  stop := by
    rintro t _ rfl
    rfl
  failureAt := by
    rintro q _ rfl cause
    rfl
  leaf := by
    rintro t _ rfl
    rfl
  branch := by
    rintro ms ns q r _ _ children rfl rfl kind
    rw [Node.eq_shiftList children]
    rfl
  nodeKind_eq := by
    rintro m _ rfl
    exact (m.kind_shift p).symm
  nodeStart := by
    rintro m _ rfl
    exact m.start_shift p
  nodeStop := by
    rintro m _ rfl
    exact m.stop_shift p
  tokens := by
    intro s s' like
    rw [like, List.forall₂_map_right_iff]
    exact List.forall₂_same.mpr fun _ _ => rfl
  advance := by
    intro s s' t u ts us like some some'
    rw [some, some'] at like
    exact (List.cons.inj like).2

namespace Level

variable {e : Ending} {n : Nat} {s s' : State} {around : Surroundings}

/-- A sequence of statements at the top of a text that itself stands at `p`. -/
theorem sequence_shift (p : Position) (like : s'.tokens = s.tokens.map (Token.shift p)) :
  ((levels (e.shift p) Survey.plain n).sequence .top s').map Prod.fst
    = (((levels e Survey.plain n).sequence .top s).map fun r => Node.shiftList p r.1).mapError
      (Failure.shift p)
  := by
  have endings : (Likeness.shift p).Endings e (e.shift p) := by
    cases e with
    | finished => exact .finished rfl
    | broken => exact .broken rfl
  have agree := (Likeness.plainLevels endings n).sequence .top s s' like
  generalize (levels (e.shift p) Survey.plain n).sequence .top s' = y at agree
  generalize (levels e Survey.plain n).sequence .top s = x at agree
  cases agree with
  | ok h => exact congrArg Except.ok (Node.eq_shiftList h.1)
  | error h => exact congrArg Except.error h
  | escape h => exact h.elim

end Level

end LosslessScss
