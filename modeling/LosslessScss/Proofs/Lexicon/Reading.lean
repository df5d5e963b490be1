import LosslessScss.Proofs.Lexicon
import Mathlib.Tactic.IntervalCases

/-!
# Lexemes are read by the rules

A lexeme is read at the beginning of a text if and only if it makes up the text together with
what is left, in front of which it fits (`Reading.ofText_eq_lexeme_iff`).  So a text starts with
at most one lexeme that fits.
-/

namespace LosslessScss

open Character

/-! ### Runs -/

theorem Stops.dropWhile (p : Char → Bool) (s : List Char) :
  Stops p (s.dropWhile p)
  := by
  intro c first
  have stops := List.head?_dropWhile_not p s
  rw [first] at stops
  exact stops

/-- What a character is not that is looked at does not come first. -/
theorem Stops.of_headD {p : Char → Bool} {s : List Char} (other : ¬p (s.headD endMark) = true) :
  Stops p s
  := by
  cases s with
  | nil => exact nofun
  | cons c s =>
    rintro _ ⟨⟩
    exact Bool.eq_false_iff.mpr other

theorem Stops.headD {p : Char → Bool} {s : List Char} (stops : Stops p s)
    (noEnd : p endMark = false) :
  p (s.headD endMark) = false
  := by
  cases s with
  | nil => exact noEnd
  | cons c s => exact stops c rfl

/-- A run ends where its characters are followed by none of them. -/
theorem takeWhile_of_stops {p : Char → Bool} {s r : List Char} (all : ∀ c ∈ s, p c = true)
    (stops : Stops p r) :
  (s ++ r).takeWhile p = s ∧ (s ++ r).dropWhile p = r
  := by
  rw [List.takeWhile_append_of_pos all, List.dropWhile_append_of_pos all]
  cases r with
  | nil => exact ⟨List.append_nil s, rfl⟩
  | cons c r =>
    have other : p c = false := stops c rfl
    simp [other]

theorem forall_mem_takeWhile (p : Char → Bool) (s : List Char) :
  ∀ c ∈ s.takeWhile p, p c = true
  := fun _ => List.mem_takeWhile_imp

namespace Reading

theorem run_of_stops (kind : Kind) {p : Char → Bool} {s r : List Char}
    (all : ∀ c ∈ s, p c = true) (stops : Stops p r) :
  run kind p (s ++ r) = .lexeme ⟨kind, s⟩ r
  := by
  obtain ⟨text, rest⟩ := takeWhile_of_stops all stops
  rw [run, text, rest]

/-! ### Comments and quoted texts -/

theorem splitComment_of_text {s : List Char} (noEnd : ¬['*', '/'] <:+: s) (r : List Char) :
  splitComment (s ++ '*' :: '/' :: r) = some (s, r)
  := by
  induction s with
  | nil => rfl
  | cons c s ih =>
    have others : ¬['*', '/'] <:+: s :=
      fun inside => noEnd (inside.trans (List.suffix_cons c s).isInfix)
    have goesOn : ¬(c = '*' ∧ (s ++ '*' :: '/' :: r).head? = some '/') := by
      rintro ⟨rfl, slash⟩
      cases s with
      | nil => cases slash
      | cons d s =>
        cases slash
        exact noEnd (List.IsPrefix.isInfix ⟨s, rfl⟩)
    rw [List.cons_append, splitComment, if_neg goesOn, ih others]
    rfl

theorem text_of_splitComment {s body r : List Char} (h : splitComment s = some (body, r)) :
  ¬['*', '/'] <:+: body
  := by
  induction s generalizing body with
  | nil => cases h
  | cons c s ih =>
    rw [splitComment] at h
    split at h
    case isTrue =>
      cases h
      intro inside
      cases List.eq_nil_of_infix_nil inside
    case isFalse goesOn =>
      obtain ⟨⟨body', rest⟩, found, pair⟩ := Option.map_eq_some_iff.mp h
      cases pair
      intro inside
      obtain first | others := List.infix_cons_iff.mp inside
      · obtain ⟨rfl, first⟩ := List.cons_prefix_cons.mp first
        obtain ⟨t, text⟩ := first
        rw [splitComment_append found, ← (List.cons.inj text).2] at goesOn
        exact goesOn ⟨rfl, rfl⟩
      · exact ih found others

theorem splitQuoted_of_text {quote : Char} (noBackslash : quote ≠ '\\') {s : List Char}
    (text : QuotedText quote s) (r : List Char) :
  Text.splitQuoted quote (s ++ quote :: r) = some (s, r)
  := by
  induction text with
  | nil =>
    rw [List.nil_append, Text.splitQuoted.eq_def]
    exact if_pos rfl
  | plain noQuote noBackslash _ ih =>
    rw [List.cons_append, Text.splitQuoted.eq_def]
    simp only [if_neg noQuote, if_neg noBackslash, ih, Option.map_some]
  | escape _ ih =>
    rw [List.cons_append, List.cons_append, Text.splitQuoted.eq_def]
    simp only [if_neg noBackslash.symm, if_true, ih, Option.map_some]

theorem text_of_splitQuoted {quote : Char} {s body r : List Char}
    (h : Text.splitQuoted quote s = some (body, r)) :
  QuotedText quote body
  := by
  fun_induction Text.splitQuoted quote s generalizing body with
  | case1 => cases h
  | case2 => cases h; exact .nil
  | case3 => cases h
  | case4 d s _ ih =>
    obtain ⟨⟨body', rest⟩, found, pair⟩ := Option.map_eq_some_iff.mp h
    cases pair
    exact .escape (ih found)
  | case5 c s noQuote noBackslash ih =>
    obtain ⟨⟨body', rest⟩, found, pair⟩ := Option.map_eq_some_iff.mp h
    cases pair
    exact .plain noQuote noBackslash (ih found)

/-! ### Numbers -/

theorem splitNumber_digits {s r : List Char} (some : s ≠ []) (digits : ∀ c ∈ s, c.isDigit = true)
    (noDigit : Stops Char.isDigit r) (noPoint : ∀ d t, r = '.' :: d :: t → d.isDigit = false) :
  splitNumber (s ++ r) = (s, r)
  := by
  obtain ⟨run, rest⟩ := takeWhile_of_stops digits noDigit
  have point : (s ++ r).head? ≠ Option.some '.' := by
    obtain ⟨d, t, rfl⟩ := List.exists_cons_of_ne_nil some
    rintro ⟨⟩
    exact absurd (digits '.' List.mem_cons_self) (by decide)
  rw [splitNumber, if_neg point, run, rest]
  split
  case h_1 d t =>
    rw [noPoint d t rfl]
    rfl
  case h_2 => rfl

theorem splitNumber_point {ds fs r : List Char} (digits : ∀ c ∈ ds, c.isDigit = true)
    (some : fs ≠ []) (digits' : ∀ c ∈ fs, c.isDigit = true) (noDigit : Stops Char.isDigit r) :
  splitNumber (ds ++ '.' :: fs ++ r) = (ds ++ '.' :: fs, r)
  := by
  obtain ⟨run, rest⟩ := takeWhile_of_stops digits' noDigit
  cases ds with
  | nil =>
    have point : ('.' :: (fs ++ r)).head? = Option.some '.' := rfl
    rw [List.nil_append, List.cons_append, splitNumber, if_pos point, List.tail_cons, run, rest]
  | cons d ds =>
    obtain ⟨f, fs, rfl⟩ := List.exists_cons_of_ne_nil some
    have digit := digits d List.mem_cons_self
    have digit' := digits' f List.mem_cons_self
    have point : (d :: ds ++ '.' :: f :: fs ++ r).head? ≠ Option.some '.' := by
      rintro ⟨⟩
      exact absurd digit (by decide)
    have noDigit' : Stops Char.isDigit ('.' :: f :: fs ++ r) := by
      rintro _ ⟨⟩
      rfl
    obtain ⟨run', rest'⟩ := takeWhile_of_stops digits noDigit'
    rw [splitNumber, if_neg point, List.append_assoc, run', rest']
    simp only [List.cons_append, digit', if_true, List.takeWhile_cons, List.dropWhile_cons]
      at run rest ⊢
    rw [(List.cons.inj run).2, rest]

theorem splitNumber_of_text {s r : List Char} (text : NumberText s) (stops : NumberStops s r) :
  splitNumber (s ++ r) = (s, r)
  := by
  obtain ⟨noDigit, noPoint⟩ := stops
  obtain ⟨some, digits⟩ | ⟨ds, fs, rfl, digits, some, digits'⟩ := text
  · apply splitNumber_digits some digits noDigit
    exact noPoint.resolve_left fun mem => absurd (digits '.' mem) (by decide)
  · exact splitNumber_point digits some digits' noDigit

theorem text_of_splitNumber {c : Char} {s : List Char}
    (start : c.isDigit = true ∨ c = '.' ∧ (s.headD endMark).isDigit = true) :
  NumberText (splitNumber (c :: s)).1 ∧
    NumberStops (splitNumber (c :: s)).1 (splitNumber (c :: s)).2
  := by
  have digits := forall_mem_takeWhile Char.isDigit
  obtain digit | ⟨rfl, digit⟩ := start
  · have point : (c :: s).head? ≠ some '.' := by
      rintro ⟨⟩
      exact absurd digit (by decide)
    have first : (c :: s).takeWhile Char.isDigit ≠ [] := by simp [digit]
    have stops := Stops.dropWhile Char.isDigit (c :: s)
    rw [splitNumber, if_neg point]
    split
    case h_1 d t rest =>
      split
      case isTrue digit' =>
        refine ⟨.inr ⟨_, d :: t.takeWhile Char.isDigit, rfl, digits _, List.cons_ne_nil _ _, ?_⟩,
          Stops.dropWhile _ t, .inl (by simp)⟩
        intro f mem
        obtain rfl | mem := List.mem_cons.mp mem
        · exact digit'
        · exact digits t f mem
      case isFalse noDigit =>
        refine ⟨.inl ⟨first, digits _⟩, rest ▸ stops, .inr ?_⟩
        rintro _ _ ⟨⟩
        exact Bool.eq_false_iff.mpr noDigit
    case h_2 noPoint =>
      refine ⟨.inl ⟨first, digits _⟩, stops, .inr ?_⟩
      intro d t rest
      exact absurd rest (noPoint d t)
  · have point : ('.' :: s).head? = some '.' := rfl
    rw [splitNumber, if_pos point, List.tail_cons]
    refine ⟨.inr ⟨[], s.takeWhile Char.isDigit, rfl, nofun, ?_, digits s⟩, Stops.dropWhile _ s,
      .inl List.mem_cons_self⟩
    cases s with
    | nil => cases digit
    | cons d s =>
      have digit : d.isDigit = true := digit
      simp [digit]

/-! ### Names -/

theorem text_of_name {s : List Char} (start : startsName (s.headD endMark) = true) :
  NameText (s.takeWhile continuesName)
  := by
  refine ⟨?_, forall_mem_takeWhile continuesName s⟩
  cases s with
  | nil => exact absurd start (by decide)
  | cons c s =>
    have continues : continuesName c = true := by
      rw [continuesName, Bool.or_eq_true]
      exact .inl start
    rw [List.takeWhile_cons, if_pos continues]
    exact ⟨c, rfl, start⟩

theorem splitIdentifier_of_text {s r : List Char} (text : IdentifierText s)
    (stops : Stops continuesIdentifier r) (noEscape : ∀ d t, r = '\\' :: d :: t → d = endMark) :
  splitIdentifier (s ++ r) = (s, r)
  := by
  induction text with
  | nil =>
    cases r with
    | nil => rfl
    | cons c r =>
      have other : continuesIdentifier c = false := stops c rfl
      rw [List.nil_append, splitIdentifier.eq_def]
      by_cases backslash : c = '\\'
      · subst backslash
        cases r with
        | nil => rfl
        | cons d r => simp [noEscape d r rfl]
      · simp [backslash, other]
  | @plain c s continues _ ih =>
    have noBackslash : c ≠ '\\' := by
      rintro rfl
      exact absurd continues (by decide)
    rw [List.cons_append, splitIdentifier.eq_def]
    simp only [if_neg noBackslash, if_pos continues, ih]
  | @escape c s real _ ih =>
    rw [List.cons_append, List.cons_append, splitIdentifier.eq_def]
    simp only [if_true, if_neg real, ih]

theorem text_of_splitIdentifier (s : List Char) :
  IdentifierText (splitIdentifier s).1 ∧ Stops continuesIdentifier (splitIdentifier s).2 ∧
    ∀ d t, (splitIdentifier s).2 = '\\' :: d :: t → d = endMark
  := by
  fun_induction splitIdentifier s with
  | case1 =>
    refine ⟨.nil, ?_, ?_⟩
    · rintro _ ⟨⟩
    · rintro _ _ ⟨⟩
  | case2 =>
    refine ⟨.nil, ?_, ?_⟩
    · rintro _ ⟨⟩
      decide
    · rintro _ _ ⟨⟩
  | case3 =>
    refine ⟨.nil, ?_, ?_⟩
    · rintro _ ⟨⟩
      decide
    · rintro _ _ ⟨⟩
      rfl
  | case4 d s real text rest split ih =>
    rw [split] at ih
    exact ⟨.escape real ih.1, ih.2⟩
  | case5 c s _ continues text rest split ih =>
    rw [split] at ih
    exact ⟨.plain continues ih.1, ih.2⟩
  | case6 c s noBackslash stops =>
    refine ⟨.nil, ?_, ?_⟩
    · rintro _ ⟨⟩
      exact Bool.eq_false_iff.mpr stops
    · rintro _ _ ⟨⟩
      exact absurd rfl noBackslash

/-- An identifier starts with the first character of the text. -/
theorem head?_splitIdentifier {c : Char} {s : List Char}
    (start : startsIdentifier c = true ∨ startsEscape (c :: s) = true) :
  (splitIdentifier (c :: s)).1.head? = some c
  := by
  have text := splitIdentifier_append (c :: s)
  obtain ⟨d, t, some⟩ := List.exists_cons_of_ne_nil (splitIdentifier_ne_nil start)
  rw [some] at text ⊢
  rw [(List.cons.inj text).1]
  rfl

theorem startsEscape_eq_true {c : Char} {s : List Char} (escape : startsEscape (c :: s) = true) :
  c = '\\'
  := by
  unfold startsEscape at escape
  split at escape
  · next pair => exact (List.cons.inj pair).1
  · cases escape

/-! ### Colours -/

theorem colourLength_eq (s : List Char) :
  colourLength s = if hexDigits s < 3 then 0 else if hexDigits s < 6 then 3 else 6
  := by
  unfold colourLength hexDigits
  rw [← List.take_takeWhile, List.length_take]
  generalize (s.takeWhile isHexDigit).length = n
  by_cases long : 6 ≤ n
  · rw [Nat.min_eq_left long, if_neg (by omega), if_neg (by omega)]
    rfl
  · have short : n < 6 := Nat.lt_of_not_le long
    rw [Nat.min_eq_right (Nat.le_of_lt short)]
    interval_cases n
    all_goals rfl

/-- The digits that a text starts with. -/
theorem take_of_le_hexDigits {s : List Char} {n : Nat} (le : n ≤ hexDigits s) :
  (s.take n).length = n ∧ ∀ c ∈ s.take n, isHexDigit c = true
  := by
  have pre : s.take n = (s.takeWhile isHexDigit).take n := by
    have whole := List.takeWhile_append_dropWhile (p := isHexDigit) (l := s)
    conv => lhs; rw [← whole]
    exact List.take_append_of_le_length le
  rw [pre]
  constructor
  · rw [List.length_take]
    exact Nat.min_eq_left le
  · intro c mem
    exact List.mem_takeWhile_imp (List.mem_of_mem_take mem)

/-! ### What is read fits -/

/-- A run up to a character ends with the text, or before that character. -/
theorem head?_of_stops {d : Char} {r : List Char} (stops : Stops (· != d) r) :
  r = [] ∨ r.head? = some d
  := by
  cases r with
  | nil => exact .inl rfl
  | cons c r =>
    have same : (c != d) = false := stops c rfl
    exact .inr (by simpa using same)

/-- A lexeme that is read fits in front of what is left. -/
theorem fits_of_ofText {c : Char} {s r : List Char} {l : Lexeme} (h : ofText c s = .lexeme l r) :
  l.Fits r
  := by
  revert h
  fun_cases ofText c s with
  | case1 blank =>
    rintro ⟨⟩
    refine ⟨?_, forall_mem_takeWhile isBlank _, Stops.dropWhile isBlank _⟩
    simp [blank]
  | case2 =>
    rintro ⟨⟩
    refine ⟨?_, head?_of_stops (Stops.dropWhile _ s.tail)⟩
    intro mem
    cases List.mem_takeWhile_imp mem
  | case3 =>
    intro h
    obtain ⟨kind, found⟩ := closed_eq_lexeme h
    rw [Lexeme.Fits, kind]
    exact text_of_splitComment found
  | case4 | case5 =>
    intro h
    obtain ⟨kind, found⟩ := closed_eq_lexeme h
    rw [Lexeme.Fits, kind]
    exact text_of_splitQuoted found
  | case6 _ _ _ _ _ _ sigil =>
    rintro ⟨⟩
    exact ⟨text_of_name sigil.2, Stops.dropWhile continuesName s⟩
  | case7 _ _ _ _ _ _ _ sigil =>
    rintro ⟨⟩
    exact ⟨text_of_name sigil.2, Stops.dropWhile continuesName s⟩
  | case8 _ _ _ _ _ _ _ _ sigil =>
    rintro ⟨⟩
    have count := sigil.2
    have le : colourLength s ≤ hexDigits s := by
      rw [colourLength_eq]
      split_ifs <;> omega
    obtain ⟨length, digits⟩ := take_of_le_hexDigits le
    refine ⟨digits, ?_⟩
    change (s.take (colourLength s)).length = 6 ∨ (s.take (colourLength s)).length = 3 ∧
      hexDigits (s.take (colourLength s) ++ s.drop (colourLength s)) < 6
    rw [length, List.take_append_drop]
    rw [colourLength_eq] at count ⊢
    split_ifs at count ⊢ <;> omega
  | case9 _ _ _ _ _ _ _ _ _ start =>
    rintro ⟨⟩
    exact text_of_splitNumber start
  | case10 _ _ _ _ _ _ _ _ _ _ start =>
    rintro ⟨⟩
    refine ⟨⟨c, head?_splitIdentifier start, ?_⟩, text_of_splitIdentifier (c :: s)⟩
    exact start.imp_right startsEscape_eq_true
  | case11 _ _ _ _ _ _ _ _ noColour noNumber _ mark =>
    rintro ⟨⟩
    refine ⟨c, rfl, mark, ?_, ?_⟩
    · rintro rfl
      by_contra digits
      apply noColour
      refine ⟨rfl, ?_⟩
      rw [colourLength_eq, if_neg digits]
      split_ifs <;> decide
    · rintro rfl
      exact .of_headD fun digit => noNumber (.inr ⟨rfl, digit⟩)
  | case12 _ _ _ _ _ _ _ _ _ _ _ _ repeatable =>
    rintro ⟨⟩
    left
    have same : ∀ d ∈ s.takeWhile (· == c), d = c := fun d mem => by
      simpa using List.mem_takeWhile_imp mem
    refine ⟨c, (s.takeWhile (· == c)).length, ?_, repeatable, Stops.dropWhile _ (c :: s)⟩
    rw [List.replicate_succ, ← List.eq_replicate_of_mem same]
    simp
  | case13 _ _ noLine noBlock _ _ _ noName _ _ _ _ single operator =>
    rintro ⟨⟩
    right
    refine ⟨c, rfl, operator, Bool.eq_false_iff.mpr single, ?_, ?_⟩
    · rintro rfl
      apply Stops.of_headD
      rw [Bool.or_eq_true, beq_iff_eq, beq_iff_eq]
      exact fun next => next.elim (fun slash => noLine ⟨rfl, slash⟩) fun star => noBlock ⟨rfl, star⟩
    · rintro rfl
      exact .of_headD fun start => noName ⟨rfl, start⟩
  | case14 => rintro ⟨⟩

/-! ### What fits is read -/

/-- The characters with which comments, quoted texts, names with a sigil, colours and white space
start. -/
def sigils : List Char := [' ', '\t', '\n', '\r', '\x0c', '/', '"', '\'', '@', '$', '#']

/-- A lexeme that starts with none of these characters is a number, an identifier, a mark or an
operator. -/
theorem ofText_of_notMem {c : Char} (other : c ∉ sigils) (s : List Char) :
  ofText c s =
    if c.isDigit ∨ (c = '.' ∧ (s.headD endMark).isDigit) then
      .lexeme ⟨.number, (splitNumber (c :: s)).1⟩ (splitNumber (c :: s)).2
    else if startsIdentifier c ∨ startsEscape (c :: s) then
      .lexeme ⟨.identifier, (splitIdentifier (c :: s)).1⟩ (splitIdentifier (c :: s)).2
    else if isPunctuation c then .lexeme ⟨.punctuation, [c]⟩ s
    else if isRepeatableOperator c then run .operator (· == c) (c :: s)
    else if isOperator c then .lexeme ⟨.operator, [c]⟩ s
    else .unclassifiable c
  := by
  simp only [sigils, List.mem_cons, List.not_mem_nil, or_false, not_or] at other
  simp [ofText, isBlank, other]

theorem notMem_of_class {p : Char → Bool} {c : Char} {cs : List Char} (holds : p c = true)
    (none : cs.all (! p ·) = true) :
  c ∉ cs
  := by
  intro mem
  have no := List.all_eq_true.mp none c mem
  rw [holds] at no
  cases no

/-- No digit is a letter. -/
theorem startsIdentifier_of_isDigit {c : Char} (digit : c.isDigit = true) :
  startsIdentifier c = false
  := by
  have noUnderscore : c ≠ '_' := by
    rintro rfl
    exact absurd digit (by decide)
  simp only [Char.isDigit, Bool.and_eq_true, decide_eq_true_eq, ge_iff_le, UInt32.le_iff_toNat_le]
    at digit
  have ascii : c.toNat < 0x80 := Nat.lt_of_le_of_lt digit.2 (by decide)
  have noLetter : c.isAlpha = false := by
    delta Char.isAlpha Char.isUpper Char.isLower
    simp only [Bool.or_eq_false_iff, Bool.and_eq_false_iff, decide_eq_false_iff_not, ge_iff_le,
      UInt32.le_iff_toNat_le]
    simp at digit ⊢
    omega
  simp [startsIdentifier, isAlphabetic_of_lt ascii, noLetter, noUnderscore]

theorem ofText_digit {c : Char} (digit : c.isDigit = true) (s : List Char) :
  ofText c s = .lexeme ⟨.number, (splitNumber (c :: s)).1⟩ (splitNumber (c :: s)).2
  := by
  rw [ofText_of_notMem (notMem_of_class digit (by decide)), if_pos (.inl digit)]

theorem ofText_point {s : List Char} (digit : (s.headD endMark).isDigit = true) :
  ofText '.' s = .lexeme ⟨.number, (splitNumber ('.' :: s)).1⟩ (splitNumber ('.' :: s)).2
  := by
  rw [ofText_of_notMem (by decide), if_pos (.inr ⟨rfl, digit⟩)]

theorem ofText_identifier {c : Char} {s : List Char}
    (start : startsIdentifier c = true ∨ startsEscape (c :: s) = true) :
  ofText c s = .lexeme ⟨.identifier, (splitIdentifier (c :: s)).1⟩ (splitIdentifier (c :: s)).2
  := by
  have other : c ∉ sigils ∧ c ≠ '.' ∧ ¬c.isDigit = true := by
    obtain start | escape := start
    · refine ⟨notMem_of_class start (by decide), ?_, ?_⟩
      · rintro rfl
        exact absurd start (by decide)
      · intro digit
        rw [startsIdentifier_of_isDigit digit] at start
        cases start
    · rw [startsEscape_eq_true escape]
      decide
  rw [ofText_of_notMem other.1, if_neg (by simp [other.2]), if_pos start]

theorem ofText_mark {c : Char} {s : List Char} (mark : isPunctuation c = true)
    (noColour : c = '#' → hexDigits s < 3) (noNumber : c = '.' → Stops Char.isDigit s) :
  ofText c s = .lexeme ⟨.punctuation, [c]⟩ s
  := by
  simp only [isPunctuation, List.contains_eq_mem, List.mem_cons, List.not_mem_nil, or_false,
    decide_eq_true_eq] at mark
  obtain rfl | rfl | rfl | rfl | rfl | rfl | rfl | rfl | rfl | rfl | rfl := mark
  case inr.inr.inr.inr.inr.inr.inr.inr.inr.inl =>
    have none : colourLength s = 0 := by rw [colourLength_eq, if_pos (noColour rfl)]
    unfold ofText
    rw [none]
    rfl
  case inr.inr.inr.inr.inr.inr.inr.inr.inr.inr =>
    have noDigit := (noNumber rfl).headD rfl
    rw [ofText_of_notMem (by decide), noDigit]
    rfl
  all_goals rfl

theorem ofText_repeatable {c : Char} (repeatable : isRepeatableOperator c = true)
    (s : List Char) :
  ofText c s = run .operator (· == c) (c :: s)
  := by
  simp only [isRepeatableOperator, List.contains_eq_mem, List.mem_cons, List.not_mem_nil, or_false,
    decide_eq_true_eq] at repeatable
  obtain rfl | rfl | rfl | rfl | rfl := repeatable
  all_goals rfl

theorem ofText_operator {c : Char} {s : List Char} (operator : isOperator c = true)
    (single : isRepeatableOperator c = false)
    (noComment : c = '/' → Stops (fun d => d == '/' || d == '*') s)
    (noName : c = '$' → Stops startsName s) :
  ofText c s = .lexeme ⟨.operator, [c]⟩ s
  := by
  by_cases slash : c = '/'
  · subst slash
    have other := (noComment rfl).headD rfl
    rw [Bool.or_eq_false_iff, beq_eq_false_iff_ne, beq_eq_false_iff_ne] at other
    unfold ofText
    simp only [other]
    rfl
  · by_cases dollar : c = '$'
    · subst dollar
      have other := (noName rfl).headD (by decide)
      unfold ofText
      simp only [other]
      rfl
    · simp only [isOperator, List.contains_eq_mem, List.mem_cons, List.not_mem_nil, or_false,
        decide_eq_true_eq] at operator
      obtain rfl | rfl | rfl | rfl | rfl | rfl | rfl | rfl | rfl | rfl | rfl | rfl | rfl | rfl :=
        operator
      all_goals first
        | exact absurd rfl slash
        | exact absurd rfl dollar
        | rfl
        | exact absurd single (by decide)

theorem ofText_space {c : Char} (blank : isBlank c = true) (s : List Char) :
  ofText c s = run .space isBlank (c :: s)
  := if_pos blank

theorem ofText_atKeyword {s : List Char} (start : startsName (s.headD endMark) = true) :
  ofText '@' s = run .atKeyword continuesName s
  := by
  unfold ofText
  simp only [start]
  rfl

theorem ofText_variableName {s : List Char} (start : startsName (s.headD endMark) = true) :
  ofText '$' s = run .variableName continuesName s
  := by
  unfold ofText
  simp only [start]
  rfl

theorem ofText_colour {s : List Char} (some : 0 < colourLength s) :
  ofText '#' s = .lexeme ⟨.colour, s.take (colourLength s)⟩ (s.drop (colourLength s))
  := by
  unfold ofText
  simp only [some]
  rfl

theorem hexDigits_append_of_all {s : List Char} (digits : ∀ c ∈ s, isHexDigit c = true)
    (r : List Char) :
  hexDigits (s ++ r) = s.length + hexDigits r
  := by
  rw [hexDigits, List.takeWhile_append_of_pos digits, List.length_append, hexDigits]

theorem colourLength_of_text {s r : List Char} (digits : ∀ c ∈ s, isHexDigit c = true)
    (length : s.length = 6 ∨ s.length = 3 ∧ hexDigits (s ++ r) < 6) :
  colourLength (s ++ r) = s.length
  := by
  rw [colourLength_eq]
  rw [hexDigits_append_of_all digits] at length ⊢
  split_ifs <;> omega

theorem headD_of_nameText {s r : List Char} (text : NameText s) :
  startsName ((s ++ r).headD endMark) = true
  := by
  obtain ⟨⟨c, first, start⟩, _⟩ := text
  obtain ⟨t, rfl⟩ := List.head?_eq_some_iff.mp first
  exact start

theorem start_of_numberText {body r s : List Char} {c : Char} (number : NumberText body)
    (text : body ++ r = c :: s) :
  c.isDigit = true ∨ c = '.' ∧ (s.headD endMark).isDigit = true
  := by
  obtain ⟨some, digits⟩ | ⟨ds, fs, rfl, digits, some, digits'⟩ := number
  · obtain ⟨d, body, rfl⟩ := List.exists_cons_of_ne_nil some
    cases text
    exact .inl (digits c List.mem_cons_self)
  · cases ds with
    | nil =>
      obtain ⟨f, fs, rfl⟩ := List.exists_cons_of_ne_nil some
      cases text
      exact .inr ⟨rfl, digits' f List.mem_cons_self⟩
    | cons d ds =>
      cases text
      exact .inl (digits c List.mem_cons_self)

theorem start_of_identifierText {body r s : List Char} {c : Char}
    (start : ∃ d ∈ body.head?, startsIdentifier d = true ∨ d = '\\') (inner : IdentifierText body)
    (text : body ++ r = c :: s) :
  startsIdentifier c = true ∨ startsEscape (c :: s) = true
  := by
  obtain ⟨d, first, start⟩ := start
  cases inner with
  | nil => cases first
  | plain continues others =>
    cases text
    cases first
    obtain letter | rfl := start
    · exact .inl letter
    · exact absurd continues (by decide)
  | escape real others =>
    cases text
    exact .inr (bne_iff_ne.mpr real)

/-- What a lexeme that fits makes up with the text behind it is read as that lexeme. -/
theorem ofText_of_fits {l : Lexeme} {c : Char} {s r : List Char} (fits : l.Fits r)
    (text : l.written ++ r = c :: s) :
  ofText c s = .lexeme l r
  := by
  obtain ⟨kind, body⟩ := l
  rw [Lexeme.written, List.append_assoc, List.append_assoc] at text
  cases kind with
  | space =>
    obtain ⟨some, blank, stops⟩ := fits
    obtain ⟨d, body, rfl⟩ := List.exists_cons_of_ne_nil some
    have text : d :: body ++ r = c :: s := by simpa [Kind.opening, Kind.closing] using text
    cases text
    rw [ofText_space (blank c List.mem_cons_self)]
    exact run_of_stops .space blank stops
  | lineComment =>
    obtain ⟨noBreak, stops⟩ := fits
    have text : '/' :: '/' :: (body ++ r) = c :: s := by
      simpa [Kind.opening, Kind.closing] using text
    cases text
    have others : ∀ c ∈ body, (c != '\n') = true := by
      intro c mem
      rw [bne_iff_ne]
      rintro rfl
      exact noBreak mem
    apply run_of_stops .lineComment others
    rintro c first
    obtain rfl | break_ := stops
    · cases first
    · rw [break_] at first
      cases first
      rfl
  | blockComment =>
    have text : '/' :: '*' :: (body ++ '*' :: '/' :: r) = c :: s := by
      simpa [Kind.opening, Kind.closing] using text
    cases text
    change closed .blockComment (splitComment (body ++ '*' :: '/' :: r)) = _
    rw [splitComment_of_text fits]
    rfl
  | doubleQuoted =>
    have text : '"' :: (body ++ '"' :: r) = c :: s := by
      simpa [Kind.opening, Kind.closing] using text
    cases text
    change closed .doubleQuoted (Text.splitQuoted '"' (body ++ '"' :: r)) = _
    rw [splitQuoted_of_text (by decide) fits]
    rfl
  | singleQuoted =>
    have text : '\'' :: (body ++ '\'' :: r) = c :: s := by
      simpa [Kind.opening, Kind.closing] using text
    cases text
    change closed .singleQuoted (Text.splitQuoted '\'' (body ++ '\'' :: r)) = _
    rw [splitQuoted_of_text (by decide) fits]
    rfl
  | atKeyword =>
    obtain ⟨name, stops⟩ := fits
    have text : '@' :: (body ++ r) = c :: s := by simpa [Kind.opening, Kind.closing] using text
    cases text
    rw [ofText_atKeyword (headD_of_nameText name), run_of_stops _ name.2 stops]
  | variableName =>
    obtain ⟨name, stops⟩ := fits
    have text : '$' :: (body ++ r) = c :: s := by simpa [Kind.opening, Kind.closing] using text
    cases text
    rw [ofText_variableName (headD_of_nameText name), run_of_stops _ name.2 stops]
  | colour =>
    obtain ⟨digits, length⟩ := fits
    have text : '#' :: (body ++ r) = c :: s := by simpa [Kind.opening, Kind.closing] using text
    cases text
    have count : colourLength (body ++ r) = body.length := colourLength_of_text digits length
    have some : 0 < colourLength (body ++ r) := by
      rw [count]
      obtain six | ⟨three, _⟩ : body.length = 6 ∨ body.length = 3 ∧ _ := length
      all_goals omega
    rw [ofText_colour some, count, List.take_left, List.drop_left]
  | number =>
    obtain ⟨number, stops⟩ := fits
    have text : body ++ r = c :: s := by simpa [Kind.opening, Kind.closing] using text
    have split := splitNumber_of_text number stops
    rw [text] at split
    obtain digit | ⟨rfl, digit⟩ := start_of_numberText number text
    · rw [ofText_digit digit, split]
    · rw [ofText_point digit, split]
  | identifier =>
    obtain ⟨start, inner, stops, noEscape⟩ := fits
    have text : body ++ r = c :: s := by simpa [Kind.opening, Kind.closing] using text
    have split := splitIdentifier_of_text inner stops noEscape
    rw [text] at split
    rw [ofText_identifier (start_of_identifierText start inner text), split]
  | punctuation =>
    obtain ⟨d, rfl, mark, noColour, noNumber⟩ := fits
    cases text
    exact ofText_mark mark noColour noNumber
  | operator =>
    obtain ⟨d, n, rfl, repeatable, stops⟩ | ⟨d, rfl, operator, single, noComment, noName⟩ := fits
    · cases text
      rw [ofText_repeatable repeatable]
      have same : ∀ d ∈ List.replicate (n + 1) c, (d == c) = true := by
        intro d mem
        rw [beq_iff_eq]
        exact List.eq_of_mem_replicate mem
      exact run_of_stops .operator same stops
    · cases text
      exact ofText_operator operator single noComment noName
  | _ => exact fits.elim

/-- A lexeme is read at the beginning of a text if and only if it makes up the text with what is
left, and fits in front of it. -/
theorem ofText_eq_lexeme_iff {l : Lexeme} {c : Char} {s r : List Char} :
  ofText c s = .lexeme l r ↔ l.written ++ r = c :: s ∧ l.Fits r
  := by
  constructor
  · intro h
    exact ⟨(ofText_append h).symm, fits_of_ofText h⟩
  · rintro ⟨text, fits⟩
    exact ofText_of_fits fits text

end Reading

end LosslessScss
