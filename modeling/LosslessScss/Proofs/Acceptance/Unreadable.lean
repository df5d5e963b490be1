import LosslessScss.Proofs.Reading
import LosslessScss.Proofs.Acceptance

/-!
# Texts that cannot be read

Of a text whose tokens cannot all be read no tree is made.  The parser looks ahead by as much as a
statement needs, and so it may come to the place that cannot be read before it comes to a bracket
that is wrong, or the other way round.  It tells one of the two and nothing else: what cannot be
read, or the first bracket that is wrong among the tokens before (`parse_of_unreadable`).  A group
that is left open is never blamed.
-/

namespace LosslessScss

namespace TokenStream

variable {s : TokenStream} {f g : Failure}

/-- A stream that is broken off makes up no stylesheet. -/
theorem stylesheet_ne_ok (broken : s.ending = .broken f) (n : Node) :
  s.stylesheet ≠ .ok n
  := by
  intro parsed
  obtain ⟨_, finished⟩ := finished_of_stylesheet parsed
  rw [broken] at finished
  cases finished

/-- A stream that is broken off fails with what breaks it off, or at the first bracket that is
wrong. -/
theorem failure_of_broken (broken : s.ending = .broken f) (failed : s.stylesheet = .error g) :
  g = f ∨ openBehind [] s.tokens = .error g
  := by
  have blames := s.fails_stylesheet.of_eq g failed
  rw [broken] at blames
  obtain walks | past := blames
  · have walks : walk (.error f) [] s.tokens = .error g := walks
    rw [walk_eq] at walks
    cases behind : openBehind [] s.tokens with
    | ok =>
      rw [behind] at walks
      exact .inl (Except.error.inj walks).symm
    | error =>
      rw [behind] at walks
      exact .inr (congrArg _ (Except.error.inj walks))
  · exact .inl (Except.error.inj past).symm

end TokenStream

/-- A text that cannot all be read is handed out as tokens up to a failure. -/
theorem Lexer.stream_of_failed {source : String} {f : Failure}
    (failed : tokenize source = .error f) :
  (ofString source).stream = ⟨(ofString source).drain.1, .broken f⟩
  := by
  have failure : (ofString source).cursor.readAll.failure = some f :=
    tokenize_eq_error_iff.mp failed
  unfold stream Stretch.stream drain
  simp only [failure]

/-- A text whose tokens cannot all be read is never parsed.  If no bracket is wrong among the tokens
before the failure then parsing fails as reading does, and otherwise in this way or at the first
bracket that is wrong, which it tells. -/
theorem parse_of_unreadable (source : String) (f : Failure) (failed : tokenize source = .error f) :
  (∀ n, parse source ≠ .ok n) ∧
    ((∃ left, openBehind [] (Lexer.ofString source).drain.1 = .ok left) →
      parse source = .error f) ∧
    ∀ g, openBehind [] (Lexer.ofString source).drain.1 = .error g →
      g.TellsWrong (Lexer.ofString source).drain.1 ∧
        (parse source = .error f ∨ parse source = .error g)
  := by
  have stream := Lexer.stream_of_failed failed
  have broken : (Lexer.ofString source).stream.ending = .broken f := by rw [stream]
  have tokens : (Lexer.ofString source).stream.tokens = (Lexer.ofString source).drain.1 := by
    rw [stream]
  have noTree : ∀ n, parse source ≠ .ok n := TokenStream.stylesheet_ne_ok broken
  obtain ⟨h, parsed⟩ : ∃ h, parse source = .error h := by
    cases parsed : parse source with
    | ok n => exact absurd parsed (noTree n)
    | error h => exact ⟨h, rfl⟩
  have blamed := TokenStream.failure_of_broken broken parsed
  rw [tokens] at blamed
  rw [parsed]
  refine ⟨nofun, ?_, ?_⟩
  · rintro ⟨left, behind⟩
    obtain rfl | wrong := blamed
    · rfl
    · rw [behind] at wrong
      cases wrong
  · intro g wrong
    refine ⟨(fails_openBehind _ (List.suffix_refl _)).of_eq g wrong, ?_⟩
    obtain rfl | wrong' := blamed
    · exact .inl rfl
    · rw [wrong] at wrong'
      cases wrong'
      exact .inr rfl

/-- Two groups that are left open in front of a quote that is never closed, and in front of another
one a bracket that closes nothing. -/
theorem parse_of_unreadable_open :
  tokenize "a\x7b(\x22" = .error ⟨.expected "\x22", ⟨3, 1, 3, 3⟩⟩ ∧
    parse "a\x7b(\x22" = .error ⟨.expected "\x22", ⟨3, 1, 3, 3⟩⟩ ∧
    Failure.TellsWrong (Lexer.ofString "a)\x22").drain.1 ⟨.unexpected ')', ⟨1, 1, 1, 1⟩⟩
  := by
  have failed : tokenize "a\x7b(\x22" = .error ⟨.expected "\x22", ⟨3, 1, 3, 3⟩⟩ := by decide +kernel
  have failed' : tokenize "a)\x22" = .error ⟨.expected "\x22", ⟨2, 1, 2, 2⟩⟩ := by decide +kernel
  have open_ : openBehind [] (Lexer.ofString "a\x7b(\x22").drain.1
      = .ok [⟨')', ⟨2, 1, 2, 2⟩⟩, ⟨'\x7d', ⟨1, 1, 1, 1⟩⟩] := by
    decide +kernel
  have wrong : openBehind [] (Lexer.ofString "a)\x22").drain.1
      = .error ⟨.unexpected ')', ⟨1, 1, 1, 1⟩⟩ := by
    decide +kernel
  refine ⟨failed, (parse_of_unreadable _ _ failed).2.1 ⟨_, open_⟩, ?_⟩
  exact ((parse_of_unreadable _ _ failed').2.2 _ wrong).1

-- A wrong bracket is told if the parser comes to it first, and not if it looks past it.
example : parse "a)\x22" = .error ⟨.unexpected ')', ⟨1, 1, 1, 1⟩⟩ := by decide +kernel
example : parse "([)\x22" = .error ⟨.expected "\x22", ⟨3, 1, 3, 3⟩⟩ := by decide +kernel

end LosslessScss
