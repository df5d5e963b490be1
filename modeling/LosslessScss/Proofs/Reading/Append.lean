import LosslessScss.Proofs.Reading
import LosslessScss.Group
import Mathlib.Data.List.TakeWhile

/-!
# Texts one behind the other

What follows a text may change how the text is read: a number or an identifier goes on, and a
`#` becomes a colour.  Nothing does so behind a barrier, which is a semicolon or a mark that
closes a group: where the last token of a text is one, the tokens of the text are read as if
nothing followed (`Cursor.readAll_append`).
-/

namespace LosslessScss

/-! ### Lists that end with something -/

/-- The last one of a list has the property `p`. -/
def EndsWith {α : Type} (p : α → Bool) (s : List α) : Prop := ∃ t a, s = t ++ [a] ∧ p a = true

namespace EndsWith

variable {α : Type} {p : α → Bool} {a : α} {s t : List α}

theorem ne_nil (ends : EndsWith p s) :
  s ≠ []
  := by
  obtain ⟨t, a, rfl, _⟩ := ends
  exact List.concat_ne_nil a t

theorem append (s : List α) (ends : EndsWith p t) :
  EndsWith p (s ++ t)
  := by
  obtain ⟨t, a, rfl, holds⟩ := ends
  exact ⟨s ++ t, a, (List.append_assoc _ _ _).symm, holds⟩

/-- A list ends as what is left of it does. -/
theorem extend (ends : EndsWith p t) (suffix : t <:+ s) :
  EndsWith p s
  := by
  obtain ⟨s, rfl⟩ := suffix
  exact ends.append s

/-- What is left of a list ends as the list does. -/
theorem of_suffix (ends : EndsWith p s) (suffix : t <:+ s) (some : t ≠ []) :
  EndsWith p t
  := by
  obtain ⟨s, a, rfl, holds⟩ := ends
  obtain none | ⟨t, rfl, _⟩ := List.suffix_concat_iff.mp suffix
  · exact absurd none some
  · exact ⟨t, a, rfl, holds⟩

/-- The only one is the last one. -/
theorem of_singleton (ends : EndsWith p [a]) :
  p a = true
  := by
  obtain ⟨t, b, same, holds⟩ := ends
  have same : [] ++ [a] = t ++ [b] := same
  rwa [List.singleton_inj.mp (List.append_inj' same rfl).2]

/-- Behind the first one without the property there are others. -/
theorem tail (ends : EndsWith p (a :: s)) (other : p a = false) :
  EndsWith p s
  := by
  apply ends.of_suffix (List.suffix_cons a s)
  rintro rfl
  rw [ends.of_singleton] at other
  cases other

/-- A run without the property ends before the list does. -/
theorem dropWhile_ne_nil {q : α → Bool} (ends : EndsWith p s)
    (other : ∀ a, p a = true → q a = false) :
  s.dropWhile q ≠ []
  := by
  intro all
  obtain ⟨t, a, rfl, holds⟩ := ends
  have passed := List.dropWhile_eq_nil_iff.mp all a (by simp)
  rw [other a holds] at passed
  cases passed

theorem dropWhile {q : α → Bool} (ends : EndsWith p s) (other : ∀ a, p a = true → q a = false) :
  EndsWith p (s.dropWhile q)
  := ends.of_suffix (List.dropWhile_suffix q) (ends.dropWhile_ne_nil other)

end EndsWith

/-- A run that ends before the list does is the same in front of others. -/
theorem takeWhile_append {α : Type} {q : α → Bool} {s : List α} (ends : s.dropWhile q ≠ [])
    (w : List α) :
  (s ++ w).takeWhile q = s.takeWhile q ∧ (s ++ w).dropWhile q = s.dropWhile q ++ w
  := by
  constructor
  · rw [List.takeWhile_append, if_neg]
    intro all
    apply ends
    have whole := congrArg List.length (List.takeWhile_append_dropWhile (p := q) (l := s))
    rw [List.length_append, all] at whole
    exact List.length_eq_zero_iff.mp (by omega)
  · rw [List.dropWhile_append, if_neg]
    rwa [List.isEmpty_iff]

/-! ### Parts of a text -/

/-- Whether a mark is one behind which a text can go on in any way. -/
def isBarrier (c : Char) : Bool := c == ';' || isCloser c

theorem eq_of_isBarrier {c : Char} (barrier : isBarrier c = true) :
  c = ';' ∨ c = ')' ∨ c = ']' ∨ c = '\x7d'
  := by
  simpa [isBarrier, isCloser, or_assoc] using barrier

theorem Text.splitQuoted_extend {quote : Char} {s body rest : List Char}
    (h : Text.splitQuoted quote s = some (body, rest)) (w : List Char) :
  Text.splitQuoted quote (s ++ w) = some (body, rest ++ w)
  := by
  fun_induction Text.splitQuoted quote s generalizing body with
  | case1 => cases h
  | case2 =>
    cases h
    rw [List.cons_append, Text.splitQuoted.eq_def]
    exact if_pos rfl
  | case3 => cases h
  | case4 d s noQuote ih =>
    obtain ⟨⟨body', rest'⟩, found, pair⟩ := Option.map_eq_some_iff.mp h
    cases pair
    rw [List.cons_append, List.cons_append, Text.splitQuoted.eq_def]
    simp only [if_neg noQuote, if_true, ih found, Option.map_some]
  | case5 c s noQuote noBackslash ih =>
    obtain ⟨⟨body', rest'⟩, found, pair⟩ := Option.map_eq_some_iff.mp h
    cases pair
    rw [List.cons_append, Text.splitQuoted.eq_def]
    simp only [if_neg noQuote, if_neg noBackslash, ih found, Option.map_some]

namespace Reading

variable {s : List Char}

theorem splitComment_extend {body rest : List Char} (h : splitComment s = some (body, rest))
    (w : List Char) :
  splitComment (s ++ w) = some (body, rest ++ w)
  := by
  induction s generalizing body with
  | nil => cases h
  | cons c s ih =>
    cases s with
    | nil => simp [splitComment] at h
    | cons d s =>
      rw [splitComment] at h
      rw [List.cons_append, splitComment]
      by_cases close : c = '*' ∧ d = '/'
      · obtain ⟨rfl, rfl⟩ := close
        cases h
        rfl
      · simp only [List.cons_append, List.head?_cons, Option.some.injEq, if_neg close] at h ih ⊢
        obtain ⟨⟨body', rest'⟩, found, pair⟩ := Option.map_eq_some_iff.mp h
        cases pair
        rw [ih found]
        rfl

/-- A text that is not empty starts with the same character in front of another one. -/
theorem head_append (some : s ≠ []) (w : List Char) :
  (s ++ w).head? = s.head?
  := by
  obtain ⟨c, s, rfl⟩ := List.exists_cons_of_ne_nil some
  rfl

theorem splitNumber_extend (ends : EndsWith isBarrier s) (w : List Char) :
  splitNumber (s ++ w) = ((splitNumber s).1, (splitNumber s).2 ++ w)
  := by
  have noDigit (c : Char) (barrier : isBarrier c = true) : c.isDigit = false := by
    obtain rfl | rfl | rfl | rfl := eq_of_isBarrier barrier <;> rfl
  unfold splitNumber
  rw [head_append ends.ne_nil]
  split
  case isTrue point =>
    obtain ⟨s, rfl⟩ := List.head?_eq_some_iff.mp point
    obtain ⟨run, rest⟩ := takeWhile_append ((ends.tail rfl).dropWhile_ne_nil noDigit) w
    simp [run, rest]
  case isFalse =>
    obtain ⟨run, rest⟩ := takeWhile_append (ends.dropWhile_ne_nil noDigit) w
    have ends := ends.dropWhile noDigit
    rw [run, rest]
    generalize s.dropWhile Char.isDigit = r at ends
    by_cases point : r.head? = some '.'
    · obtain ⟨r, rfl⟩ := List.head?_eq_some_iff.mp point
      have ends := ends.tail rfl
      obtain ⟨d, r, rfl⟩ := List.exists_cons_of_ne_nil ends.ne_nil
      simp only [List.cons_append]
      split
      case isTrue digit =>
        have noBarrier : isBarrier d = false := by
          by_contra barrier
          rw [noDigit d (Bool.not_eq_false _ ▸ barrier)] at digit
          cases digit
        obtain ⟨run, rest⟩ := takeWhile_append ((ends.tail noBarrier).dropWhile_ne_nil noDigit) w
        rw [run, rest]
      case isFalse => rfl
    · have point' : (r ++ w).head? ≠ some '.' := by rwa [head_append ends.ne_nil]
      split
      case h_1 same => exact absurd (by rw [same]; rfl) point'
      case h_2 =>
        split
        case h_1 => exact absurd rfl point
        case h_2 => rfl

theorem splitIdentifier_extend (ends : EndsWith isBarrier s) (more : (splitIdentifier s).2 ≠ [])
    (w : List Char) :
  splitIdentifier (s ++ w) = ((splitIdentifier s).1, (splitIdentifier s).2 ++ w)
  := by
  have some {s text rest : List Char} (split : splitIdentifier s = (text, rest))
      (more : rest ≠ []) :
      s ≠ [] := by
    rintro rfl
    cases split
    exact more rfl
  fun_induction splitIdentifier s with
  | case1 => exact absurd rfl more
  | case2 => exact absurd rfl (ends.tail rfl).ne_nil
  | case3 =>
    rw [List.cons_append, List.cons_append, splitIdentifier, if_pos rfl, if_pos rfl]
  | case4 d s real text rest split ih =>
    have ends := ends.of_suffix ⟨['\\', d], rfl⟩ (some split more)
    rw [split] at ih
    rw [List.cons_append, List.cons_append, splitIdentifier, if_pos rfl, if_neg real, ih ends more]
  | case5 c s noBackslash continues text rest split ih =>
    have ends := ends.of_suffix ⟨[c], rfl⟩ (some split more)
    rw [split] at ih
    rw [List.cons_append, splitIdentifier.eq_def]
    simp only [if_neg noBackslash, if_pos continues, ih ends more]
  | case6 c s noBackslash stops =>
    rw [List.cons_append, splitIdentifier.eq_def]
    simp only [if_neg noBackslash, if_neg stops]

theorem startsEscape_extend (c : Char) (some : s ≠ []) (w : List Char) :
  startsEscape (c :: (s ++ w)) = startsEscape (c :: s)
  := by
  obtain ⟨d, s, rfl⟩ := List.exists_cons_of_ne_nil some
  by_cases backslash : c = '\\'
  · subst backslash
    rfl
  · simp [startsEscape, backslash]

theorem colourLength_extend (ends : EndsWith isBarrier s) (w : List Char) :
  colourLength (s ++ w) = colourLength s
  := by
  have noDigit (c : Char) (barrier : isBarrier c = true) : Character.isHexDigit c = false := by
    obtain rfl | rfl | rfl | rfl := eq_of_isBarrier barrier <;> rfl
  unfold colourLength
  rw [List.take_append]
  by_cases long : 6 ≤ s.length
  · rw [Nat.sub_eq_zero_of_le long, List.take_zero, List.append_nil]
  · have whole : s.take 6 = s := List.take_of_length_le (by omega)
    rw [whole, (takeWhile_append (ends.dropWhile_ne_nil noDigit) _).1]

/-! ### Lexemes -/

/-- Where a lexeme is read of a text and the text does not end with it, it is read as well when
`w` follows. -/
def Extends (w : List Char) (r r' : Reading) : Prop :=
  ∀ l rest, r = .lexeme l rest → rest ≠ [] → r' = .lexeme l (rest ++ w)

namespace Extends

variable {w : List Char}

theorem ite {c : Prop} [Decidable c] {r₁ r₂ r₁' r₂' : Reading} (yes : Extends w r₁ r₁')
    (no : Extends w r₂ r₂') :
  Extends w (if c then r₁ else r₂) (if c then r₁' else r₂')
  := by
  split
  · exact yes
  · exact no

theorem run (kind : Kind) (p : Char → Bool) (s : List Char) :
  Extends w (run kind p s) (run kind p (s ++ w))
  := by
  rintro _ _ ⟨⟩ more
  obtain ⟨text, rest⟩ := takeWhile_append more w
  rw [Reading.run, text, rest]

theorem closed (kind : Kind) {found found' : Option (List Char × List Char)}
    (same : ∀ body rest, found = some (body, rest) → found' = some (body, rest ++ w)) :
  Extends w (closed kind found) (closed kind found')
  := by
  intro l rest h _
  obtain ⟨rfl, found⟩ := closed_eq_lexeme h
  rw [same _ _ found]
  rfl

theorem lexeme {l : Lexeme} {rest rest' : List Char} (h : rest ≠ [] → rest' = rest ++ w) :
  Extends w (.lexeme l rest) (.lexeme l rest')
  := by
  rintro _ _ ⟨⟩ more
  rw [h more]

end Extends

/-- The lexeme at the beginning of a text that ends with a barrier does not depend on what
follows. -/
theorem ofText_extends (c : Char) (ends : EndsWith isBarrier s) (w : List Char) :
  Extends w (ofText c s) (ofText c (s ++ w))
  := by
  have next : (s ++ w).headD endMark = s.headD endMark := by
    rw [List.headD_eq_head?_getD, List.headD_eq_head?_getD, head_append ends.ne_nil]
  have behind : (s ++ w).tail = s.tail ++ w := List.tail_append_of_ne_nil ends.ne_nil
  have whole : EndsWith isBarrier (c :: s) := ends.append [c]
  unfold ofText
  simp only [next, behind, startsEscape_extend c ends.ne_nil w, colourLength_extend ends w]
  apply Extends.ite (.run _ _ (c :: s))
  apply Extends.ite (.run _ _ s.tail)
  apply Extends.ite (.closed _ fun _ _ found => splitComment_extend found w)
  apply Extends.ite (.closed _ fun _ _ found => Text.splitQuoted_extend found w)
  apply Extends.ite (.closed _ fun _ _ found => Text.splitQuoted_extend found w)
  apply Extends.ite (.run _ _ s)
  apply Extends.ite (.run _ _ s)
  apply Extends.ite
  · rintro _ _ ⟨⟩ more
    have short : colourLength s ≤ s.length :=
      Nat.le_of_lt (Nat.lt_of_not_le fun long => more (List.drop_of_length_le long))
    rw [List.take_append_of_le_length short, List.drop_append_of_le_length short]
  apply Extends.ite
  · rw [← List.cons_append, splitNumber_extend whole]
    exact .lexeme fun _ => rfl
  apply Extends.ite
  · rintro _ _ ⟨⟩ more
    rw [← List.cons_append, splitIdentifier_extend whole more]
  apply Extends.ite (.lexeme fun _ => rfl)
  apply Extends.ite (.run _ _ (c :: s))
  apply Extends.ite (.lexeme fun _ => rfl)
  exact nofun

theorem ofText_barrier {c : Char} (barrier : isBarrier c = true) (s : List Char) :
  ofText c s = .lexeme ⟨.punctuation, [c]⟩ s
  := by
  obtain rfl | rfl | rfl | rfl := eq_of_isBarrier barrier
  all_goals rfl

end Reading

/-! ### Tokens -/

/-- Whether a token is a mark behind which a text can go on in any way. -/
def Token.bars (t : Token) : Bool := t.mark?.any isBarrier

/-- Tokens that follow each other behind those of another stretch. -/
def Stretch.behind (ts : List Token) (s : Stretch) : Stretch := { s with tokens := ts ++ s.tokens }

namespace Cursor

variable {c d : Cursor} {t : Token}

theorem read_extend (h : c.read = (.ok (some t), d)) (ends : EndsWith isBarrier c.rest)
    (more : d.rest ≠ []) (w : List Char) :
  read ⟨c.rest ++ w, c.position⟩ = (.ok (some t), ⟨d.rest ++ w, d.position⟩)
  := by
  unfold read at h
  split at h
  · cases h
  next x s text =>
    split at h
    next l rest found =>
      cases h
      have some : s ≠ [] := by
        rintro rfl
        have shorter := Reading.ofText_length_lt found
        exact more (List.length_eq_zero_iff.mp (Nat.lt_one_iff.mp shorter))
      rw [text] at ends
      have ends := ends.of_suffix (List.suffix_cons x s) some
      rw [read, text]
      simp only [List.cons_append, Reading.ofText_extends x ends w l rest found more]
    · cases h
    · cases h

/-- The last token of a text is read as well when `w` follows, if it is a barrier. -/
theorem read_extend_last (h : c.read = (.ok (some t), d)) (bars : t.bars = true)
    (last : d.rest = []) (w : List Char) :
  read ⟨c.rest ++ w, c.position⟩ = (.ok (some t), ⟨w, d.position⟩)
  := by
  unfold read at h
  split at h
  · cases h
  next x s text =>
    split at h
    next l rest found =>
      cases h
      obtain rfl : rest = [] := last
      have kind : l.kind = .punctuation := by
        by_contra other
        rw [Token.bars, Token.mark?, Token.ofLexeme, if_neg other] at bars
        cases bars
      have single := Reading.ofText_punctuation found kind
      have barrier : isBarrier x = true := by
        rw [Token.bars, Token.mark?, Token.ofLexeme, if_pos kind, single] at bars
        simpa using bars
      rw [Reading.ofText_barrier barrier] at found
      cases found
      rw [read, text]
      simp only [List.cons_append, Reading.ofText_barrier barrier, List.nil_append]
    · cases h
    · cases h

/-- The text of tokens ends with a barrier if the last one of them is one. -/
theorem endsWith_spelling {ts : List Token} (proper : ∀ t ∈ ts, t.Proper)
    (ends : EndsWith Token.bars ts) :
  EndsWith isBarrier (spelling ts)
  := by
  obtain ⟨ts, t, rfl, bars⟩ := ends
  obtain ⟨x, mark, barrier⟩ := (Option.any_eq_true _ _).mp bars
  refine ⟨spelling ts, x, ?_, barrier⟩
  rw [spelling_append, spelling_cons, (proper t (by simp)).lexeme mark]
  rfl

/-- The tokens of a text whose last one is a barrier are read in front of those of the text that
follows. -/
theorem readAll_append (c : Cursor) (w : List Char) (h : c.readAll.failure = none)
    (ends : EndsWith Token.bars c.readAll.tokens) :
  readAll ⟨c.rest ++ w, c.position⟩
    = (readAll ⟨w, c.readAll.cursor.position⟩).behind c.readAll.tokens
  := by
  fun_induction readAll c with
  | case1 => cases h
  | case2 => exact absurd rfl ends.ne_nil
  | case3 c t d read ih =>
    have first := Passes.of_read read
    obtain ⟨passes, last⟩ := passes_readAll d h
    have text : d.rest = spelling d.readAll.tokens := by rw [passes.text, last, List.append_nil]
    have place := passes.place
    by_cases others : d.readAll.tokens = []
    · have bars : t.bars = true := by
        rw [Stretch.cons, others] at ends
        exact ends.of_singleton
      rw [others, spelling_nil] at text place
      rw [readAll_of_some (read_extend_last read bars text w)]
      simp only [Stretch.cons, Stretch.behind, others, place]
      rfl
    · have ends : EndsWith Token.bars d.readAll.tokens :=
        ends.of_suffix (List.suffix_cons _ _) others
      have behind : EndsWith isBarrier d.rest := text ▸ endsWith_spelling passes.proper ends
      have whole : EndsWith isBarrier c.rest := first.text ▸ behind.append _
      rw [readAll_of_some (read_extend read whole behind.ne_nil w), ih h ends]
      rfl

end Cursor

end LosslessScss
