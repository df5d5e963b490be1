import LosslessScss.Proofs.Grammar.Completeness
import LosslessScss.Proofs.Remembering

/-!
# The grammar of a whole stylesheet

The tree of a stylesheet consists of the nodes that the rules derive from all of its tokens, and
it has one whenever they derive any (`TokenStream.stylesheet_iff_derives`).  The parser remembers
the groups that it has gone through, while the rules know of no memory.
-/

namespace LosslessScss

namespace TokenStream

variable {s : TokenStream} {n : Node}

/-- The children of a stylesheet are the nodes of a sequence at the top. -/
theorem children_stylesheet (s : TokenStream) :
  s.stylesheet.map Node.children
    = ((levels s.ending Survey.plain maxNesting).sequence .top s.initial).map Prod.fst
  := by
  rw [s.stylesheet_eq_plainStylesheet, plainStylesheet, stylesheetWith]
  cases (levels s.ending Survey.plain maxNesting).sequence .top s.initial with
  | error => rfl
  | ok => rfl

/-- What a stylesheet consists of is derived from its tokens. -/
theorem derives_of_stylesheet (parsed : s.stylesheet = .ok n) :
  ∃ ns, n = .spanning .stylesheet ns .origin ∧
    Derives s.ending maxNesting (.sequence .top) s.tokens ns []
  := by
  rw [s.stylesheet_eq_plainStylesheet, plainStylesheet, stylesheetWith] at parsed
  have sound := (levels_sound s.ending maxNesting).sequence .top s.initial
  cases read : (levels s.ending Survey.plain maxNesting).sequence .top s.initial with
  | error => rw [read] at parsed; cases parsed
  | ok r =>
    rw [read] at parsed
    cases parsed
    have derives := sound.of_eq r read
    rw [levels_ending] at derives
    rw [derives.top_end.1] at derives
    exact ⟨r.1, rfl, derives⟩

/-- What is derived from all tokens makes up a stylesheet. -/
theorem stylesheet_of_derives {ns : List Node}
    (derives : Derives s.ending maxNesting (.sequence .top) s.tokens ns []) :
  s.stylesheet = .ok (.spanning .stylesheet ns .origin)
  := by
  obtain ⟨r, read, nodes, _⟩ := derives.reads s.initial rfl
  rw [s.stylesheet_eq_plainStylesheet, plainStylesheet, stylesheetWith, read, ← nodes]
  rfl

/-- A stylesheet is what the rules derive from all tokens. -/
theorem stylesheet_iff_derives :
  s.stylesheet = .ok n ↔ ∃ ns, n = .spanning .stylesheet ns .origin ∧
    Derives s.ending maxNesting (.sequence .top) s.tokens ns []
  := by
  constructor
  · exact derives_of_stylesheet
  · rintro ⟨ns, rfl, derives⟩
    exact stylesheet_of_derives derives

/-- The text of a stylesheet comes to an end. -/
theorem finished_of_stylesheet (parsed : s.stylesheet = .ok n) :
  ∃ p, s.ending = .finished p
  := by
  obtain ⟨_, _, derives⟩ := derives_of_stylesheet parsed
  exact derives.top_end.2

end TokenStream

end LosslessScss
