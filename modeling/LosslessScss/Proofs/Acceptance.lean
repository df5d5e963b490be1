import LosslessScss.Proofs.Acceptance.Failure
import LosslessScss.Proofs.Grammar.Stylesheet

/-!
# Acceptance

A text whose tokens can all be read makes up a stylesheet if its brackets are balanced and
nested no deeper than allowed, and for no other reason it does not.  The failure tells the first
bracket that is wrong or, if none is, the innermost one that is left open (`parse_walk`).
-/

namespace LosslessScss

/-! ### What is told of a bracket -/

/-- A failure tells that one of the tokens `ts` is a wrong bracket, and stands there: it opens a
group too deep, or does not close the innermost group. -/
inductive Failure.TellsWrong (ts : List Token) (f : Failure) : Prop where
  | deep {t us g} (mem : t ∈ ts) (opens : Group.openedBy? t us = some g)
      (place : f.position = t.start) (cause : f.cause = .nestedTooDeep)
      (text : f.cause.message = "Nesting too deep")
  | unexpected {t c} (mem : t ∈ ts) (mark : t.mark? = some c) (closes : isCloser c = true)
      (place : f.position = t.start) (cause : f.cause = .unexpected c)
      (text : f.cause.message = "Unexpected \"" ++ c.toString ++ "\"")

/-- A failure tells that the bracket is missing which closes the group that one of the tokens `ts`
opens, and stands there. -/
inductive Failure.TellsOpen (ts : List Token) (f : Failure) : Prop where
  | missing {t us g} (mem : t ∈ ts) (opens : Group.openedBy? t us = some g)
      (place : f.position = t.start) (cause : f.cause = .expected g.closer.toString)
      (text : f.cause.message = "Expected \"" ++ g.closer.toString ++ "\"")

/-- A group that one of the tokens `ts` opens. -/
def Opener.OpenedIn (ts : List Token) (o : Opener) : Prop :=
  ∃ t ∈ ts, ∃ us g, Group.openedBy? t us = some g ∧ o = ⟨g.closer, t.start⟩

section

variable {ts all : List Token} {f : Failure}

/-- A walk up to the first wrong bracket fails there. -/
theorem fails_openBehind (opened : List Opener) (part : ts <:+ all) :
  Fails (openBehind opened ts) (Failure.TellsWrong all)
  := by
  fun_induction openBehind opened ts with
  | case1 => exact Fails.ok
  | case2 _ _ ts _ _ _ ih =>
    exact ih ((List.drop_suffix _ ts).trans ((List.suffix_cons _ ts).trans part))
  | case3 _ _ _ _ opens => exact Fails.error (.deep (part.mem List.mem_cons_self) opens rfl rfl rfl)
  | case4 _ _ ts _ _ ih => exact ih ((List.suffix_cons _ ts).trans part)
  | case5 _ _ ts _ _ _ _ ih => exact ih ((List.suffix_cons _ ts).trans part)
  | case6 _ _ _ _ _ closer =>
    obtain ⟨mark, closes⟩ := Option.filter_eq_some_iff.mp closer
    exact Fails.error (.unexpected (part.mem List.mem_cons_self) mark closes rfl rfl rfl)

/-- The groups that are open are opened by tokens met before. -/
theorem ensures_openBehind {opened : List Opener} (part : ts <:+ all)
    (before : ∀ o ∈ opened, o.OpenedIn all) :
  Ensures (openBehind opened ts) fun left => ∀ o ∈ left, o.OpenedIn all
  := by
  fun_induction openBehind opened ts with
  | case1 => exact Ensures.ok before
  | case2 _ _ ts _ opens _ ih =>
    apply ih ((List.drop_suffix _ ts).trans ((List.suffix_cons _ ts).trans part))
    exact List.forall_mem_cons.mpr ⟨⟨_, part.mem List.mem_cons_self, _, _, opens, rfl⟩, before⟩
  | case3 => exact Ensures.error
  | case4 _ _ ts _ _ ih => exact ih ((List.suffix_cons _ ts).trans part) before
  | case5 _ _ ts _ _ _ _ ih =>
    exact ih ((List.suffix_cons _ ts).trans part) fun o mem => before o (List.mem_of_mem_tail mem)
  | case6 => exact Ensures.error

/-- A walk up to the end of a text fails at a bracket. -/
theorem fails_walk (ts : List Token) :
  Fails (walk (.ok ()) [] ts) fun f => f.TellsWrong ts ∨ f.TellsOpen ts
  := by
  rw [walk_eq]
  apply ((fails_openBehind [] (List.suffix_refl ts)).mono fun _ => .inl).bind
  intro left behind
  cases left with
  | nil => exact Fails.ok
  | cons o left =>
    have opened :=
      (ensures_openBehind (List.suffix_refl ts) (List.forall_mem_nil _)).of_eq _ behind
    obtain ⟨t, mem, us, g, opens, rfl⟩ := opened o List.mem_cons_self
    exact Fails.error (.inr (.missing mem opens rfl rfl rfl))

/-- Neither a colon is ever missed nor any token. -/
theorem message_ne (tells : f.TellsWrong ts ∨ f.TellsOpen ts) :
  f.cause.message ≠ "Expected \":\"" ∧ f.cause.message ≠ "Unexpected end of input"
  := by
  obtain (⟨_, _, _, _, text⟩ | ⟨_, _, closes, _, _, text⟩) | @⟨_, _, g, _, _, _, _, text⟩ := tells
  · rw [text]
    decide
  · rw [text]
    obtain rfl | rfl | rfl := by simpa [isCloser, or_assoc] using closes
    all_goals decide
  · rw [text]
    cases g <;> decide

end

namespace TokenStream

variable {s : TokenStream} {p : Position}

/-- A stylesheet fails where a walk through its brackets does, or with what stands past the last
token. -/
theorem fails_stylesheet (s : TokenStream) :
  Fails s.stylesheet (Blames s.ending [] s.tokens)
  := by
  have depth : ([] : List Opener).length + maxNesting = maxNesting := Nat.zero_add _
  have fails := (levels_strict s.ending maxNesting).sequence depth .top rfl s.initial
  rw [levels_ending] at fails
  rw [s.stylesheet_eq_plainStylesheet, plainStylesheet, stylesheetWith]
  exact fails.bind fun _ _ => Fails.ok

/-- Balanced tokens in front of a failure fail with it. -/
theorem stylesheet_of_broken {f : Failure} (broken : s.ending = .broken f)
    (balanced : Balanced maxNesting s.tokens []) :
  s.stylesheet = .error f
  := by
  have depth : ([] : List Opener).length + maxNesting = maxNesting := Nat.zero_add _
  cases parsed : s.stylesheet with
  | ok n =>
    obtain ⟨_, finished⟩ := finished_of_stylesheet parsed
    rw [broken] at finished
    cases finished
  | error g =>
    obtain walks | past := s.fails_stylesheet.of_eq g parsed
    · rw [walk_balanced balanced depth, walk, broken] at walks
      cases walks
      rfl
    · rw [broken] at past
      cases past
      rfl

/-- The tokens of a text make up a stylesheet if a walk through the brackets comes to the end, and
otherwise fail where the walk does. -/
theorem stylesheet_walk (finished : s.ending = .finished p) :
  s.stylesheet.map (fun _ => ()) = walk (.ok ()) [] s.tokens
  := by
  have depth : ([] : List Opener).length + maxNesting = maxNesting := Nat.zero_add _
  cases parsed : s.stylesheet with
  | error f =>
    have blames := s.fails_stylesheet.of_eq f parsed
    rw [finished] at blames
    obtain walks | past := blames
    · exact walks.symm
    · cases past
  | ok n =>
    obtain ⟨_, _, derives⟩ := derives_of_stylesheet parsed
    have walks : walk (.ok ()) [] s.tokens = walk (.ok ()) [] [] :=
      walk_balanced derives.balanced depth
    rw [walks, walk]
    rfl

/-- A stylesheet is a balanced text. -/
theorem stylesheet_iff_balanced (finished : s.ending = .finished p) :
  (∃ n, s.stylesheet = .ok n) ↔ Balanced maxNesting s.tokens []
  := by
  constructor
  · rintro ⟨n, parsed⟩
    obtain ⟨_, _, derives⟩ := derives_of_stylesheet parsed
    exact derives.balanced
  · intro balanced
    have walks := s.stylesheet_walk finished
    have depth : ([] : List Opener).length + maxNesting = maxNesting := Nat.zero_add _
    rw [walk_balanced balanced depth, walk] at walks
    cases parsed : s.stylesheet with
    | error => rw [parsed] at walks; cases walks
    | ok n => exact ⟨n, rfl⟩

end TokenStream

/-- A text whose tokens can all be read is parsed if a walk through its brackets comes to the end,
and otherwise fails where the walk does: at a bracket that is wrong or left open, and with the text
that tells so.  No colon and no token is ever missing. -/
theorem parse_walk (source : String) (ts : List Token) (tokens : tokenize source = .ok ts) :
  ((∃ n, parse source = .ok n) ↔ walk (.ok ()) [] ts = .ok ()) ∧
    (∀ f, parse source = .error f ↔ walk (.ok ()) [] ts = .error f) ∧
    ∀ f, parse source = .error f → (f.TellsWrong ts ∨ f.TellsOpen ts) ∧
      f.cause.message ≠ "Expected \":\"" ∧ f.cause.message ≠ "Unexpected end of input"
  := by
  obtain ⟨rfl, p, finished⟩ := Lexer.stream_of_all tokens
  have walks := TokenStream.stylesheet_walk finished
  change (parse source).map (fun _ => ()) = _ at walks
  rw [← walks]
  refine ⟨?_, ?_, ?_⟩
  · cases parse source with
    | error => exact ⟨nofun, nofun⟩
    | ok n => exact ⟨fun _ => rfl, fun _ => ⟨n, rfl⟩⟩
  · intro f
    cases parse source with
    | error g => exact ⟨fun eq => congrArg _ eq, fun eq => by cases eq; rfl⟩
    | ok => exact ⟨nofun, nofun⟩
  · intro f parsed
    rw [parsed] at walks
    have tells := (fails_walk _).of_eq f walks.symm
    exact ⟨tells, message_ne tells⟩

/-- Two brackets are left open, of which the inner one is missed. -/
theorem parse_walk_open :
  ∃ f, parse "a\x7b(" = .error f ∧ f.cause.message = "Expected \")\"" ∧ f.position = ⟨2, 1, 2, 2⟩
  := by
  have tokens : tokenize "a\x7b(" = .ok
      [⟨.identifier, "a", ⟨0, 1, 0, 0⟩, ⟨1, 1, 1, 1⟩⟩,
        ⟨.punctuation, "\x7b", ⟨1, 1, 1, 1⟩, ⟨2, 1, 2, 2⟩⟩,
        ⟨.punctuation, "(", ⟨2, 1, 2, 2⟩, ⟨3, 1, 3, 3⟩⟩] := by
    decide +kernel
  refine ⟨⟨.expected ")", ⟨2, 1, 2, 2⟩⟩, ?_, rfl, rfl⟩
  apply ((parse_walk _ _ tokens).2.1 _).mpr
  decide +kernel

end LosslessScss
