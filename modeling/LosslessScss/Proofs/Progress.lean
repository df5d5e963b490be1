import LosslessScss.Proofs.Progress.Levels
import LosslessScss.Proofs.Progress.Survey
import LosslessScss.Proofs.Reading

/-!
# Progress

Reading goes forward whatever the text is, and so it comes to an end
(`TokenStream.progress_of_parse`).  A token that is read has at least one character, a statement and
an atom at least one token, and a survey looks further ahead with each round.  So no loop makes more
rounds than there are characters or tokens; and as a group begins with a token, groups cannot be
nested deeper than there are tokens, even without a limit.
-/

namespace LosslessScss

/-! ### Characters -/

/-- Reading goes forward from a cursor: unless the text ends there, a token with at least one
character is taken or reading fails, and all tokens are found with as many attempts as there are
characters. -/
structure Cursor.Progresses (c : Cursor) : Prop where
  token : c.atEnd = false → Ensures c.read.1 fun t? =>
    ∃ t, t? = some t ∧ t.written ≠ "" ∧ c.rest = t.written.toList ++ c.read.2.rest
  ends : ∀ n, c.rest.length ≤ n → c.readUpTo n = c.readAll

namespace Cursor

theorem readUpTo_eq_readAll {n : Nat} {c : Cursor} (enough : c.rest.length ≤ n) :
  c.readUpTo n = c.readAll
  := by
  fun_induction readUpTo n c with
  | case1 => exact (readAll_of_rest (List.length_eq_zero_iff.mp (Nat.le_zero.mp enough))).symm
  | case2 _ _ _ _ read => exact (readAll_of_error read).symm
  | case3 _ _ _ read => exact (readAll_of_none read).symm
  | case4 _ _ _ _ read ih =>
    have lt := length_rest_lt_of_read read
    rw [readAll_of_some read, ih (by omega)]

theorem progresses (c : Cursor) :
  c.Progresses
  := by
  refine ⟨?_, fun n enough => readUpTo_eq_readAll enough⟩
  intro goesOn
  constructor
  intro t? found
  have read : c.read = (.ok t?, c.read.2) := Prod.ext found rfl
  cases t? with
  | none =>
    rw [atEnd, (read_eq_none read).2] at goesOn
    cases goesOn
  | some t =>
    have text := (Passes.of_read read).text
    rw [spelling_cons, spelling_nil, List.append_nil, ← t.toList_written] at text
    refine ⟨t, rfl, ?_, text⟩
    intro empty
    have lt := length_rest_lt_of_read read
    rw [text, empty] at lt
    exact absurd lt (Nat.lt_irrefl _)

end Cursor

/-! ### Tokens -/

namespace Level

variable {L : Level}

/-- The loops at a level, each by what is read in its rounds: statements, the atoms of a run, of a
selector and of a property, and the segments of a name. -/
inductive Loop (L : Level) :
    {α : Type} → (State → Except Failure (Option (α × State))) → Prop where
  | sequence (around : Surroundings) : Loop L (L.sequenceStatement around)
  | run (scope : Scope) (selector : Bool) : Loop L (L.runAtom scope selector)
  | selector : Loop L L.selectorAtom
  | property : Loop L L.propertyAtom
  | segments : Loop L (L.segment false)

theorem Loop.advances {α : Type} {read : State → Except Failure (Option (α × State))}
    (loop : L.Loop read) :
  AdvancesIfSome read
  := by
  cases loop with
  | sequence around => exact L.sequenceStatement_advances around
  | run scope selector => exact L.runAtom_advances scope selector
  | selector => exact L.selectorAtom_advances
  | property => exact L.propertyAtom_advances
  | segments => exact L.segment_advances false

/-- Reading goes forward at a level: a statement and an atom take at least one token, and each of
the loops collects what it reads in at most one round for every token and one more. -/
structure Progresses (L : Level) : Prop where
  statement : ∀ scope s, Ensures (L.statement scope s) fun r => ∃ ts, ts ≠ [] ∧ s.Takes ts r.2
  atom : ∀ selector s, Ensures (L.atom selector s) fun r => ∃ ts, ts ≠ [] ∧ s.Takes ts r.2
  ends : ∀ {α : Type} {read : State → Except Failure (Option (α × State))} (loop : L.Loop read) s n,
    s.remaining < n →
      roundsWithin (collectRound read) n ([], s) = some (collect read loop.advances s)

end Level

theorem levels_progress (e : Ending) (survey : Survey) (n : Nat) :
  (levels e survey n).Progresses
  where
  statement := statement_takes
  atom := atom_takes
  ends := fun loop _ _ => roundsWithin_collectRound loop.advances

/-! ### Texts -/

namespace TokenStream

/-- Reading goes forward and comes to an end: from every cursor, at every level, and in every survey
of a statement that parsing asks for.  How deep groups may be nested does not matter as soon as it
is no less than the number of tokens. -/
theorem progress_of_parse (s : TokenStream) :
  (∀ c : Cursor, c.Progresses) ∧
    (∀ survey n, (levels s.ending survey n).Progresses) ∧
    (∀ call, s.Surveys call → call.Progresses s) ∧
    ∀ survey n m around a, a.remaining ≤ n → a.remaining ≤ m →
      (levels s.ending survey n).sequence around a = (levels s.ending survey m).sequence around a
  := by
  refine ⟨Cursor.progresses, levels_progress s.ending, ?_, ?_⟩
  · exact fun call surveys => surveys.sound.progresses
  · exact fun survey n m around a => sequence_levels around

/-- A statement in a group, whose survey comes to a group that the survey of the outer statement has
remembered: it ends behind the token at which it is looked up. -/
theorem progress_of_parse_remembered :
  ∃ s : TokenStream, ∃ call a, s.Surveys call ∧ call.index = 1 ∧ call.Reaches s.ending a ∧
    a.index = 2 ∧ a.memory[a.index]? = some (some 4) ∧ call.index ≤ 4 ∧ a.index < 4 ∧
    (levels s.ending Statement.survey 7).sequence .top s.initial
      = (levels s.ending Statement.survey maxNesting).sequence .top s.initial
  := by
  let s : TokenStream := (Lexer.ofString "(a(b)c)").stream
  obtain ⟨memory, known, surveys⟩ := surveys_inner
  have length : s.tokens.length = 7 := by decide +kernel
  have first : s.tokens.tail.head?.map Token.mark? = some none := by decide +kernel
  obtain ⟨u, next, mark⟩ := Option.map_eq_some_iff.mp first
  obtain ⟨ts, tokens⟩ := List.head?_eq_some_iff.mp next
  let call : Survey.Call := ⟨.entries, 1, memory, s.tokens.tail⟩
  let a : Statement.Stage := { call.stage with index := 2, first := false, tokens := ts }
  have reaches : call.Reaches s.ending a := by
    apply Survey.Call.Reaches.round .start
    simp [Statement.Stage.round, Survey.Call.stage, call, a, tokens, Statement.openerLength,
      Statement.turn, mark, bind, Except.bind, pure, Except.pure]
  obtain ⟨le, lt, _⟩ := ((progress_of_parse s).2.2.1 call surveys).lt_of_known a 4 reaches known
  refine ⟨s, call, a, surveys, rfl, reaches, rfl, known, le, lt, ?_⟩
  apply (progress_of_parse s).2.2.2
  · exact Nat.le_of_eq length
  · exact Nat.le_trans (Nat.le_of_eq length) (by decide)

end TokenStream

end LosslessScss
