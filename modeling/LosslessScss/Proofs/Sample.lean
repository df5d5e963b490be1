import LosslessScss.Proofs.Concatenation
import LosslessScss.Proofs.Lexicon.Tokens
import LosslessScss.Proofs.Skeleton
import LosslessScss.Sample

/-!
# The sample stylesheet

A part of the sample is read as the first one is, but for the names with its number in them: whether
a lexeme fits depends on the next three characters only (`Lexeme.Fits.of_take`), and these do not
depend on the number.  To the parser all names are the same, and the parts are read one behind the
other.  So the sample of any length is a stylesheet, and its statements repeat
(`Sample.parse_stylesheet`).
-/

namespace LosslessScss

/-! ### The next characters -/

open Character

/-- Two texts with the same first three characters are the same, or go on behind them. -/
theorem eq_or_of_take {r r' : List Char} (same : r'.take 3 = r.take 3) :
  r' = r ∨ ∃ a b c s s', r = a :: b :: c :: s ∧ r' = a :: b :: c :: s'
  := by
  obtain long | short := Nat.lt_or_ge 2 r.length
  · match r, r' with
    | a :: b :: c :: s, a' :: b' :: c' :: s' =>
      simp only [List.take_succ_cons, List.take_zero, List.cons.injEq, and_true] at same
      obtain ⟨rfl, rfl, rfl⟩ := same
      exact .inr ⟨_, _, _, s, s', rfl, rfl⟩
  · left
    have whole : r.take 3 = r := List.take_of_length_le (by omega)
    have length := congrArg List.length (same.trans whole)
    rw [List.length_take] at length
    rw [← whole, ← same, List.take_of_length_le (by omega)]

theorem hexDigits_lt_iff (a b c : Char) (s : List Char) :
  hexDigits (a :: b :: c :: s) < 3
    ↔ (isHexDigit a && isHexDigit b && isHexDigit c) = false
  := by
  cases first : isHexDigit a <;> cases second : isHexDigit b <;> cases third : isHexDigit c <;>
    simp [hexDigits, first, second, third]

/-- Whether a lexeme fits depends on the next three characters only. -/
theorem Lexeme.Fits.of_take {l : Lexeme} {r r' : List Char} (fits : l.Fits r)
    (same : r'.take 3 = r.take 3) :
  l.Fits r'
  := by
  obtain rfl | ⟨a, b, c, s, s', rfl, rfl⟩ := eq_or_of_take same
  · exact fits
  obtain ⟨kind, text⟩ := l
  cases kind with
  | lineComment =>
    obtain ⟨noFeed, none | feed⟩ := fits
    · cases none
    · exact ⟨noFeed, .inr feed⟩
  | colour =>
    obtain ⟨digits, six | ⟨three, few⟩⟩ := fits
    · exact ⟨digits, .inl six⟩
    · refine ⟨digits, .inr ⟨three, ?_⟩⟩
      rw [Reading.hexDigits_append_of_all digits] at few ⊢
      have few' := (hexDigits_lt_iff a b c s).mp (by omega)
      have fewer := (hexDigits_lt_iff a b c s').mpr few'
      omega
  | number =>
    obtain ⟨number, noDigit, noPoint⟩ := fits
    refine ⟨number, noDigit, noPoint.imp_right fun noPoint d t point => ?_⟩
    cases point
    exact noPoint _ _ rfl
  | identifier =>
    obtain ⟨start, inner, stops, noEscape⟩ := fits
    refine ⟨start, inner, stops, fun d t escape => ?_⟩
    cases escape
    exact noEscape _ _ rfl
  | punctuation =>
    obtain ⟨x, text, mark, noColour, noNumber⟩ := fits
    refine ⟨x, text, mark, fun hash => ?_, noNumber⟩
    rw [hexDigits_lt_iff, ← hexDigits_lt_iff a b c s]
    exact noColour hash
  | _ => exact fits

/-! ### Numbers in names -/

namespace Sample

/-- The names that end in the number of a part, without it. -/
def names : List (Kind × String) :=
  [(.variableName, "accent-"), (.identifier, "respond-"), (.identifier, "card-")]

/-- The name that a lexeme is, without the number 0 that it ends in. -/
def name? (l : Lexeme) : Option (Kind × String) :=
  names.find? fun (k, name) => l = ⟨k, (name ++ "0").toList⟩

/-- A lexeme, with the number `i` in place of 0 if it is one of the names. -/
def renumber (i : Nat) (l : Lexeme) : Lexeme :=
  match name? l with
  | some (k, name) => ⟨k, (name ++ toString i).toList⟩
  | none => l

theorem renumber_eq (i : Nat) (l : Lexeme) :
  renumber i l = l ∨ ∃ k name, (k, name) ∈ names ∧ l = ⟨k, (name ++ "0").toList⟩ ∧
    renumber i l = ⟨k, (name ++ toString i).toList⟩
  := by
  unfold renumber
  split
  next k name found =>
    have same := List.find?_some found
    exact .inr ⟨k, name, List.mem_of_find?_eq_some found, of_decide_eq_true same, rfl⟩
  next => exact .inl rfl

theorem isDigit_toString {i : Nat} {c : Char} (mem : c ∈ (toString i).toList) :
  c.isDigit = true
  := by
  rw [Nat.toString_eq_repr, Nat.toList_repr] at mem
  exact Nat.isDigit_of_mem_toDigits (by decide) (by decide) mem

theorem isNumeric_of_isDigit {c : Char} (digit : c.isDigit = true) :
  isNumeric c = true
  := by
  have ascii : c.toNat < 0x80 := by
    simp only [Char.isDigit, Bool.and_eq_true, decide_eq_true_eq, UInt32.le_iff_toNat_le] at digit
    exact Nat.lt_of_le_of_lt digit.2 (by decide)
  rw [isNumeric, if_pos ascii, digit]

/-- What the rules of both kinds of names ask for of a name without its number. -/
structure IsName (k : Kind) (name : List Char) : Prop where
  kind : k = .variableName ∨ k = .identifier
  long : 3 ≤ name.length
  starts : ∃ c ∈ name.head?, startsIdentifier c = true
  continues : (name.all fun c => continuesName c && continuesIdentifier c) = true

theorem isName {k : Kind} {name : String} (mem : (k, name) ∈ names) :
  IsName k name.toList
  := by
  simp only [names, List.mem_cons, List.not_mem_nil, or_false, Prod.mk.injEq] at mem
  obtain ⟨rfl, rfl⟩ | ⟨rfl, rfl⟩ | ⟨rfl, rfl⟩ := mem
  all_goals
    constructor
    · decide
    · decide +kernel
    · exact ⟨_, rfl, by decide +kernel⟩
    · decide +kernel

/-- A name with any number behind it is made up as its first and its second rule ask for. -/
theorem IsName.append {k : Kind} {name : List Char} (isName : IsName k name) (i : Nat) :
  NameText (name ++ (toString i).toList) ∧
    (∃ c ∈ (name ++ (toString i).toList).head?, startsIdentifier c = true ∨ c = '\\') ∧
    IdentifierText (name ++ (toString i).toList)
  := by
  obtain ⟨c, first, starts⟩ := isName.starts
  obtain ⟨name, rfl⟩ := List.head?_eq_some_iff.mp first
  have continues : ∀ d ∈ c :: name ++ (toString i).toList,
      continuesName d = true ∧ continuesIdentifier d = true := by
    intro d mem
    obtain mem | mem := List.mem_append.mp mem
    · exact Bool.and_eq_true_iff.mp (List.all_eq_true.mp isName.continues d mem)
    · have digit := isDigit_toString mem
      simp [continuesName, continuesIdentifier, isAlphanumeric, isNumeric_of_isDigit digit, digit]
  refine ⟨⟨⟨c, rfl, ?_⟩, fun d mem => (continues d mem).1⟩, ⟨c, rfl, .inl starts⟩, ?_⟩
  · rw [startsName, Bool.or_eq_true]
    exact .inl starts
  · generalize c :: name ++ (toString i).toList = s at continues
    induction s with
    | nil => exact .nil
    | cons d s ih =>
      obtain ⟨⟨_, first⟩, others⟩ := List.forall_mem_cons.mp continues
      exact .plain first (ih others)

/-- A name with another number fits where the next characters are the same. -/
theorem fits_renumber (i : Nat) {l : Lexeme} {r r' : List Char} (fits : l.Fits r)
    (same : r'.take 3 = r.take 3) :
  (renumber i l).Fits r'
  := by
  have fits' := fits.of_take same
  obtain unchanged | ⟨k, name, mem, rfl, changed⟩ := renumber_eq i l
  · rw [unchanged]
    exact fits'
  obtain ⟨text, start, inner⟩ := (isName mem).append i
  rw [changed, String.toList_append]
  obtain rfl | rfl := (isName mem).kind
  · exact ⟨text, fits'.2⟩
  · exact ⟨start, inner, fits'.2.2⟩

/-- A name is written with its number at the end. -/
theorem written_name {k : Kind} {name : String} (mem : (k, name) ∈ names) (digits : String) :
  (⟨k, (name ++ digits).toList⟩ : Lexeme).written = (k.opening ++ name).toList ++ digits.toList
  := by
  have closing : k.closing = "" := by
    obtain rfl | rfl := (isName mem).kind <;> rfl
  rw [Lexeme.written, closing, String.toList_append, String.toList_append, String.toList_empty,
    List.append_nil, List.append_assoc]

/-- The next characters do not depend on the number. -/
theorem take_renumber (i : Nat) (ls : List Lexeme) :
  ((ls.map (renumber i)).flatMap Lexeme.written).take 3 = (ls.flatMap Lexeme.written).take 3
  := by
  induction ls with
  | nil => rfl
  | cons l ls ih =>
    rw [List.map_cons, List.flatMap_cons, List.flatMap_cons]
    obtain unchanged | ⟨k, name, mem, rfl, changed⟩ := renumber_eq i l
    · rw [unchanged, List.take_append, List.take_append]
      have fewer (r : List Char) : r.take (3 - l.written.length)
          = (r.take 3).take (3 - l.written.length) := by
        rw [List.take_take, Nat.min_eq_left (Nat.sub_le _ _)]
      rw [fewer, ih, ← fewer]
    · have long : 3 ≤ (k.opening ++ name).toList.length := by
        have long := (isName mem).long
        rw [String.toList_append, List.length_append]
        omega
      rw [changed, written_name mem, written_name mem, List.append_assoc, List.append_assoc,
        List.take_append_of_le_length long, List.take_append_of_le_length long]

/-- Lexemes that fit do so with another number. -/
theorem lexical_renumber (i : Nat) {ls : List Lexeme} (lexical : Lexical ls) :
  Lexical (ls.map (renumber i))
  := by
  induction ls with
  | nil => trivial
  | cons l ls ih =>
    obtain ⟨fits, others⟩ := lexical
    exact ⟨fits_renumber i fits (take_renumber i ls), ih others⟩

/-! ### The parts of a text between the numbers -/

/-- What stands between the numbers of names in the text of lexemes that `r` follows. -/
def between (r : List Char) : List Lexeme → List (List Char)
  | [] => [r]
  | l :: ls =>
    match name? l with
    | some (k, name) => (k.opening ++ name).toList :: between r ls
    | none => (between r ls).modifyHead (l.written ++ ·)

theorem between_ne_nil (r : List Char) (ls : List Lexeme) :
  between r ls ≠ []
  := by
  induction ls with
  | nil => exact List.cons_ne_nil r []
  | cons l ls ih =>
    rw [between]
    split
    · exact List.cons_ne_nil _ _
    · simpa using ih

/-- The text of lexemes with another number. -/
theorem written_renumber (i : Nat) (r : List Char) (ls : List Lexeme) :
  (ls.map (renumber i)).flatMap Lexeme.written ++ r
    = (toString i).toList.intercalate (between r ls)
  := by
  induction ls with
  | nil => exact (List.append_nil r).symm
  | cons l ls ih =>
    rw [List.map_cons, List.flatMap_cons, List.append_assoc, ih, between, renumber]
    cases found : name? l with
    | some name =>
      have written := written_name (List.mem_of_find?_eq_some found) (toString i)
      simp only [written, List.intercalate_cons_of_ne_nil (between_ne_nil r ls), List.append_assoc]
    | none =>
      obtain ⟨s, others, some⟩ := List.exists_cons_of_ne_nil (between_ne_nil r ls)
      rw [some]
      cases others with
      | nil => simp
      | cons s' others => simp [List.intercalate_cons_cons]

/-! ### The first part -/

/-- Tokens of the given lexemes, at no matter which places. -/
def streamOf (ls : List Lexeme) : TokenStream :=
  ⟨ls.map (Token.ofLexeme · .origin), .finished .origin⟩

/-- What the part with the number 0 consists of: the lexemes between the line feeds at its beginning
and at its end, and the nodes that they make up. -/
structure FirstPart where
  lexemes : List Lexeme
  nodes : List Node
  lexical : Lexical (⟨.space, ['\n']⟩ :: lexemes)
  between_eq : between ['\n'] (⟨.space, ['\n']⟩ :: lexemes) = pieces.map String.toList
  children : (streamOf lexemes).stylesheet.map Node.children = .ok nodes
  kinds : nodes.map Node.kind = [.declaration, .space, .atRule, .space, .rule]

theorem exists_firstPart :
  Nonempty FirstPart
  := by
  -- The part up to its last line feed is read, and what is read behind the first one is parsed.
  have evaluated :
      let s := Cursor.readAll ⟨(['0'].intercalate (pieces.map String.toList)).dropLast, .origin⟩
      let ls := s.tokens.map Token.lexeme
      s.failure = none ∧ ls.head? = some ⟨.space, ['\n']⟩ ∧
        between ['\n'] ls = pieces.map String.toList ∧
        (streamOf ls.tail).stylesheet.map (fun t => t.children.map Node.kind)
          = .ok [.declaration, .space, .atRule, .space, .rule] := by
    simp only [pieces, List.map_cons, List.map_nil, String.toList_append, String.reduceToList]
    decide +kernel
  obtain ⟨success, head, between_eq, kinds⟩ := evaluated
  have lexical := Cursor.lexical_readAll _ success
  generalize List.map Token.lexeme _ = ls at head between_eq kinds lexical
  obtain ⟨ls, rfl⟩ := List.head?_eq_some_iff.mp head
  cases parsed : (streamOf ls).stylesheet with
  | error => rw [List.tail_cons, parsed] at kinds; cases kinds
  | ok t =>
    rw [List.tail_cons, parsed] at kinds
    exact ⟨ls, t.children, lexical, between_eq, by rw [parsed]; rfl, Except.ok.inj kinds⟩

/-! ### Any part -/

/-- The second one of two tokens is the first one with another number. -/
def Renumbered (i : Nat) (t u : Token) : Prop := u.lexeme = renumber i t.lexeme

/-- The parser sees no difference between two numbers. -/
theorem skeleton_of_renumbered {i : Nat} {t u : Token} (same : Renumbered i t u) :
  t.skeleton = u.skeleton
  := by
  obtain unchanged | ⟨k, name, mem, before, after⟩ := renumber_eq i t.lexeme
  · obtain ⟨kind, text⟩ := Token.kind_and_text_of_lexeme (same.trans unchanged)
    rw [Token.skeleton, Token.skeleton, kind, text]
  · have kind : t.kind = k := congrArg Lexeme.kind before
    have kind' : u.kind = k := congrArg Lexeme.kind (same.trans after)
    obtain rfl | rfl := (isName mem).kind
    all_goals simp [Token.skeleton, kind, kind']

/-- The nodes behind white space do not change with it. -/
theorem stylesheet_of_space {t : Token} {ts : List Token} {e : Ending} {n : Node}
    (space : t.kind = .space) (parsed : TokenStream.stylesheet ⟨ts, e⟩ = .ok n) :
  ∃ n', TokenStream.stylesheet ⟨t :: ts, e⟩ = .ok n' ∧ n'.children = .leaf t :: n.children
  := by
  obtain ⟨ns, rfl, derives⟩ := TokenStream.derives_of_stylesheet parsed
  have noMark : t.mark? = none := if_neg (by rw [space]; decide)
  have alone (scope : Scope) : Level.standsAlone scope t = true := by
    rw [Level.standsAlone, space]
    rfl
  have whole : Derives e maxNesting (.sequence .top) (t :: ts) ([.leaf t] ++ ns) [] :=
    .sequenceCons (by rw [noMark]; rfl) (.statementToken (alone _)) derives
  exact ⟨_, TokenStream.stylesheet_of_derives (s := ⟨t :: ts, e⟩) whole, rfl⟩

namespace FirstPart

variable (P : FirstPart)

/-- The text of the part with the number `i` between the line feeds at its beginning and at its
end. -/
def body (i : Nat) : String := String.ofList ((P.lexemes.map (renumber i)).flatMap Lexeme.written)

theorem toList_body (i : Nat) :
  (P.body i).toList = (P.lexemes.map (renumber i)).flatMap Lexeme.written
  := String.toList_ofList

theorem block_eq (i : Nat) :
  block i = "\n" ++ P.body i ++ "\n"
  := by
  have noName : name? ⟨.space, ['\n']⟩ = none := by decide
  have written := written_renumber i ['\n'] (⟨.space, ['\n']⟩ :: P.lexemes)
  rw [P.between_eq, List.map_cons, List.flatMap_cons, renumber, noName] at written
  apply String.toList_injective
  rw [block, String.toList_intercalate, ← written, String.toList_append, String.toList_append,
    toList_body]
  rfl

/-- White space in front of a part is read together with the line feed of the part. -/
theorem stream_gap (i : Nat) {gap : String} (blank : ∀ c ∈ gap.toList, isBlank c = true) :
  ∃ t ts p, (Lexer.ofString (gap ++ "\n" ++ P.body i)).stream = ⟨t :: ts, .finished p⟩ ∧
    t.kind = .space ∧ ts.map Token.lexeme = P.lexemes.map (renumber i)
  := by
  obtain ⟨_, others⟩ := P.lexical
  have lexical : Lexical (⟨.space, gap.toList ++ ['\n']⟩ :: P.lexemes.map (renumber i)) := by
    refine ⟨⟨by simp, ?_, ?_⟩, lexical_renumber i others⟩
    · intro c mem
      obtain mem | mem := List.mem_append.mp mem
      · exact blank c mem
      · rw [List.mem_singleton.mp mem]
        rfl
    · have gap : (⟨.space, ['\n']⟩ : Lexeme).Fits (P.lexemes.flatMap Lexeme.written) := P.lexical.1
      exact (gap.of_take (take_renumber i P.lexemes)).2.2
  have text : (gap ++ "\n" ++ P.body i).toList
      = (⟨.space, gap.toList ++ ['\n']⟩ :: P.lexemes.map (renumber i)).flatMap Lexeme.written := by
    rw [String.toList_append, String.toList_append, toList_body]
    simp [Lexeme.written, Kind.opening, Kind.closing]
  obtain ⟨lexemes, reached⟩ := Lexer.stream_of_lexical text lexical
  generalize (Lexer.ofString (gap ++ "\n" ++ P.body i)).stream = s at lexemes reached
  obtain ⟨ts, e⟩ := s
  obtain ⟨p, rfl⟩ := Ending.eq_finished_of_reach reached
  obtain ⟨t, ts, rfl, first, others⟩ := List.map_eq_cons_iff.mp lexemes
  exact ⟨t, ts, p, rfl, congrArg Lexeme.kind first, others⟩

/-- The tokens of the first part with another number make up nodes that correspond to its own. -/
theorem stylesheet_renumber (i : Nat) {ts : List Token} (p : Position)
    (lexemes : ts.map Token.lexeme = P.lexemes.map (renumber i)) :
  ∃ n, TokenStream.stylesheet ⟨ts, .finished p⟩ = .ok n ∧
    List.Forall₂ (Node.Corresponds (Renumbered i)) P.nodes n.children
  := by
  let R := Likeness.skeleton (Renumbered i) skeleton_of_renumbered
  have endings : R.Endings (streamOf P.lexemes).ending (.finished p) := .finished trivial
  have alike : List.Forall₂ (Renumbered i) (streamOf P.lexemes).tokens ts := by
    have tokens := lexemes.symm
    rw [← List.forall₂_eq_eq_eq, List.forall₂_map_left_iff, List.forall₂_map_right_iff] at tokens
    rw [streamOf, List.forall₂_map_left_iff]
    apply tokens.imp
    intro l t same
    rw [Renumbered, Token.lexeme_ofLexeme, same]
  have agree := Likeness.stylesheet (s := streamOf P.lexemes) (u := ⟨ts, .finished p⟩) endings alike
  have children := P.children
  cases parsed : (streamOf P.lexemes).stylesheet with
  | error => rw [parsed] at children; cases children
  | ok m =>
    rw [parsed] at agree children
    generalize TokenStream.stylesheet ⟨ts, .finished p⟩ = r at agree
    cases agree with
    | @ok _ n nodes =>
      obtain ⟨ms, ns, rfl, rfl, nodes⟩ := nodes
      obtain rfl : ms = P.nodes := Except.ok.inj children
      exact ⟨_, rfl, nodes⟩

/-- A part in front of which white space stands is a stylesheet. -/
theorem parse_gap (i : Nat) {gap : String} (blank : ∀ c ∈ gap.toList, isBlank c = true) :
  ∃ m t ns, parse (gap ++ "\n" ++ P.body i) = .ok m ∧ m.children = .leaf t :: ns ∧
    t.kind = .space ∧ List.Forall₂ (Node.Corresponds (Renumbered i)) P.nodes ns
  := by
  obtain ⟨t, ts, p, stream, space, lexemes⟩ := P.stream_gap i blank
  obtain ⟨n, parsed, nodes⟩ := P.stylesheet_renumber i p lexemes
  obtain ⟨m, parsed, children⟩ := stylesheet_of_space space parsed
  refine ⟨m, t, n.children, ?_, children, space, nodes⟩
  rw [← stream] at parsed
  exact parsed

end FirstPart

/-! ### Parts one behind the other -/

/-- The nodes other than white space. -/
def solid (ns : List Node) : List Node := ns.filter fun n => n.kind ≠ .space

theorem solid_append (ms ns : List Node) :
  solid (ms ++ ns) = solid ms ++ solid ns
  := List.filter_append ms ns

theorem shiftList_eq_map (p : Position) (ns : List Node) :
  Node.shiftList p ns = ns.map (Node.shift p)
  := by
  induction ns with
  | nil => rfl
  | cons n ns ih => rw [Node.shiftList, ih, List.map_cons]

theorem solid_shiftList (p : Position) (ns : List Node) :
  solid (Node.shiftList p ns) = Node.shiftList p (solid ns)
  := by
  rw [shiftList_eq_map, shiftList_eq_map, solid, List.filter_map]
  congr 2
  funext n
  exact congrArg (fun k => decide (k ≠ Kind.space)) (n.kind_shift p)

mutual

/-- The place of a node does not bear on what it corresponds to. -/
theorem corresponds_shift {i : Nat} (p : Position) (m n : Node)
    (same : m.Corresponds (Renumbered i) n) :
  m.Corresponds (Renumbered i) (n.shift p)
  := by
  cases same with
  | leaf token => exact .leaf token
  | @branch k ms ns _ _ _ _ children => exact .branch (corresponds_shiftList p ms ns children)

theorem corresponds_shiftList {i : Nat} (p : Position) (ms ns : List Node)
    (same : List.Forall₂ (Node.Corresponds (Renumbered i)) ms ns) :
  List.Forall₂ (Node.Corresponds (Renumbered i)) ms (Node.shiftList p ns)
  := by
  cases same with
  | nil => exact .nil
  | @cons m n ms ns first others =>
    exact .cons (corresponds_shift p m n first) (corresponds_shiftList p ms ns others)

end

/-- The nodes `ns` are those of the parts with the numbers `is` one behind the other. -/
inductive Repeats (P : FirstPart) : List Nat → List Node → Prop where
  | nil : Repeats P [] []
  | cons {i is ms ns}
      (part : List.Forall₂ (Node.Corresponds (Renumbered i)) (solid P.nodes) ms)
      (others : Repeats P is ns) : Repeats P (i :: is) (ms ++ ns)

theorem Repeats.shift {P : FirstPart} {is : List Nat} {ns : List Node} (repeats : Repeats P is ns)
    (p : Position) :
  Repeats P is (Node.shiftList p ns)
  := by
  induction repeats with
  | nil => exact .nil
  | @cons i is ms ns part others ih =>
    rw [shiftList_eq_map, List.map_append, ← shiftList_eq_map, ← shiftList_eq_map]
    exact .cons (corresponds_shiftList p _ _ part) ih

/-- A text whose last statement is finished and one that is parsed are parsed one behind the
other. -/
theorem parse_behind {a b : String} {m n t : Node} (parsed : parse a = .ok m)
    (last : m.children.getLast? = some n) (finished : n.isFinished = true)
    (parsed' : parse b = .ok t) :
  ∃ t', parse (a ++ b) = .ok t' ∧
    t'.children = m.children ++ Node.shiftList (Position.origin.after a.toList) t.children
  := by
  obtain ⟨ns, rfl, derives⟩ := TokenStream.derives_of_stylesheet parsed
  obtain ⟨q, ending⟩ := TokenStream.finished_of_stylesheet parsed
  have proper := ((Lexer.stands_ofCursor (.ofString a)).stream ending).2
  have ends := (derives.continues proper last (.inl finished)).1
  have stream := Lexer.stream_append a b ending ends
  have nodes := TokenStream.children_behind (u := (Lexer.ofString b).stream)
    (p := Position.origin.after a.toList) derives proper last (.inl finished) (.inl finished)
  rw [← stream] at nodes
  change (parse (a ++ b)).map _ = ((parse b).map _).mapError _ at nodes
  rw [parsed'] at nodes
  cases joined : parse (a ++ b) with
  | error => rw [joined] at nodes; cases nodes
  | ok t' =>
    rw [joined] at nodes
    exact ⟨t', rfl, Except.ok.inj nodes⟩

section Correspondence

variable {i : Nat} {ms ns : List Node}

theorem kind_eq_of_renumbered {m n : Node} (same : m.Corresponds (Renumbered i) n) :
  m.kind = n.kind
  := same.kind_eq fun token => Token.kind_eq_of_skeleton (skeleton_of_renumbered token)

theorem kinds_eq_of_renumbered (same : List.Forall₂ (Node.Corresponds (Renumbered i)) ms ns) :
  ns.map Node.kind = ms.map Node.kind
  := by
  induction same with
  | nil => rfl
  | cons first _ ih => rw [List.map_cons, List.map_cons, ih, kind_eq_of_renumbered first]

theorem solid_of_renumbered (same : List.Forall₂ (Node.Corresponds (Renumbered i)) ms ns) :
  List.Forall₂ (Node.Corresponds (Renumbered i)) (solid ms) (solid ns)
  := by
  apply List.rel_filter _ same
  intro m n first
  simp only [kind_eq_of_renumbered first]

end Correspondence

/-- The parts with any numbers are parsed one behind the other. -/
theorem parse_parts (P : FirstPart) (is : List Nat) {gap : String} (feed : gap = "" ∨ gap = "\n") :
  ∃ t, parse (gap ++ String.join (is.map block)) = .ok t ∧ Repeats P is (solid t.children)
  := by
  induction is generalizing gap with
  | nil =>
    have empty : (parse gap).map (fun t => solid t.children) = .ok [] := by
      obtain rfl | rfl := feed <;> decide +kernel
    rw [List.map_nil, String.join_nil, String.append_empty]
    cases parsed : parse gap with
    | error => rw [parsed] at empty; cases empty
    | ok t =>
      rw [parsed] at empty
      have none : solid t.children = [] := Except.ok.inj empty
      exact ⟨t, rfl, none ▸ .nil⟩
  | cons i is ih =>
    have blank : ∀ c ∈ gap.toList, isBlank c = true := by
      obtain rfl | rfl := feed <;> simp [isBlank]
    obtain ⟨m, s, ns, parsed, children, space, nodes⟩ := P.parse_gap i blank
    obtain ⟨u, parsed', repeats⟩ := ih (.inr rfl)
    -- A part ends with a rule.
    have kinds : (ns.map Node.kind).getLast? = some .rule := by
      rw [kinds_eq_of_renumbered nodes, P.kinds]
      rfl
    rw [List.getLast?_map] at kinds
    obtain ⟨n, last, rule⟩ := Option.map_eq_some_iff.mp kinds
    have last' : m.children.getLast? = some n := by rw [children, List.getLast?_cons, last]; rfl
    have finished : n.isFinished = true := by rw [Node.isFinished, rule]
    obtain ⟨t, joined, whole⟩ := parse_behind parsed last' finished parsed'
    have text : gap ++ String.join ((i :: is).map block)
        = gap ++ "\n" ++ P.body i ++ ("\n" ++ String.join (is.map block)) := by
      simp only [List.map_cons, String.join_cons, P.block_eq i, String.append_assoc]
    have statements : solid (.leaf s :: ns) = solid ns :=
      List.filter_cons_of_neg (by simp [Node.kind, space])
    refine ⟨t, by rw [text, joined], ?_⟩
    rw [whole, children, solid_append, statements, solid_shiftList]
    exact .cons (solid_of_renumbered nodes) (repeats.shift _)

/-! ### Shapes -/

mutual

/-- A node with other lexemes at its leaves. -/
def mapLexemes (f : Lexeme → Lexeme) : Node → Node
  | .leaf t => .leaf (.ofLexeme (f t.lexeme) t.start)
  | .branch k ns p q => .branch k (mapLexemesList f ns) p q

/-- Nodes with other lexemes at their leaves. -/
def mapLexemesList (f : Lexeme → Lexeme) : List Node → List Node
  | [] => []
  | n :: ns => mapLexemes f n :: mapLexemesList f ns

end

theorem renumber_zero (l : Lexeme) :
  renumber 0 l = l
  := by
  obtain unchanged | ⟨k, name, _, before, after⟩ := renumber_eq 0 l
  · exact unchanged
  · rw [after, before]
    rfl

mutual

/-- A node of a part has the shape of the one of the first part, but for the number. -/
theorem shape_of_renumbered {i : Nat} (s m n : Node) (first : s.Corresponds (Renumbered 0) m)
    (same : s.Corresponds (Renumbered i) n) :
  n.shape = (mapLexemes (renumber i) m).shape
  := by
  cases first with
  | @leaf t u token =>
    cases same with
    | @leaf _ v token' =>
      apply Token.shape_eq_of_lexeme
      rw [Token.lexeme_ofLexeme, token', token, renumber_zero]
  | @branch k ss ms _ _ _ _ children =>
    cases same with
    | @branch _ _ ns _ _ _ _ children' =>
      rw [mapLexemes, Node.shape, Node.shape, shapes_of_renumbered ss ms ns children children']

theorem shapes_of_renumbered {i : Nat} (ss ms ns : List Node)
    (first : List.Forall₂ (Node.Corresponds (Renumbered 0)) ss ms)
    (same : List.Forall₂ (Node.Corresponds (Renumbered i)) ss ns) :
  Node.shapes ns = Node.shapes (mapLexemesList (renumber i) ms)
  := by
  cases first with
  | nil =>
    cases same
    rfl
  | @cons s m ss ms one others =>
    cases same with
    | @cons _ n _ ns one' others' =>
      rw [mapLexemesList, Node.shapes, Node.shapes, shape_of_renumbered s m n one one',
        shapes_of_renumbered ss ms ns others others']

end

/-- The nodes of a part have the shapes of those of the first part, but for the number. -/
theorem map_shape_of_renumbered {i : Nat} {ss ms ns : List Node}
    (first : List.Forall₂ (Node.Corresponds (Renumbered 0)) ss ms)
    (same : List.Forall₂ (Node.Corresponds (Renumbered i)) ss ns) :
  ns.map Node.shape = ms.map fun m => (mapLexemes (renumber i) m).shape
  := by
  induction first generalizing ns with
  | nil =>
    cases same
    rfl
  | cons one _ ih =>
    cases same with
    | cons one' others =>
      rw [List.map_cons, List.map_cons, ih others, shape_of_renumbered _ _ _ one one']

namespace Repeats

variable {P : FirstPart} {is : List Nat} {ms ns : List Node}

theorem kinds (repeats : Repeats P is ns) :
  ns.map Node.kind = (is.map fun _ => [Kind.declaration, .atRule, .rule]).flatten
  := by
  have solid_kinds : (solid P.nodes).map Node.kind = [.declaration, .atRule, .rule] := by
    have all := congrArg (List.filter (· ≠ Kind.space)) P.kinds
    rw [List.filter_map] at all
    exact all
  induction repeats with
  | nil => rfl
  | cons part _ ih =>
    rw [List.map_append, ih, kinds_eq_of_renumbered part, solid_kinds]
    rfl

theorem shapes (repeats : Repeats P is ns)
    (first : List.Forall₂ (Node.Corresponds (Renumbered 0)) (solid P.nodes) ms) :
  ns.map Node.shape = is.flatMap fun i => ms.map fun m => (mapLexemes (renumber i) m).shape
  := by
  induction repeats with
  | nil => rfl
  | cons part _ ih =>
    rw [List.map_append, ih, map_shape_of_renumbered first part, List.flatMap_cons]

/-- The nodes of a part are three. -/
theorem take_append {i : Nat}
    (part : List.Forall₂ (Node.Corresponds (Renumbered i)) (solid P.nodes) ms) :
  (ms ++ ns).take 3 = ms
  := by
  have kinds := (Repeats.cons part .nil).kinds
  have length : ms.length = 3 := by simpa using congrArg List.length kinds
  rw [← length, List.take_left]

end Repeats

/-- The sample of any length is a stylesheet.  Its statements other than white space are a
declaration, an at-rule and a rule again and again, and those of the `i`-th repetition have the
shapes of the first three, but for the number in names. -/
theorem parse_stylesheet (n : Nat) :
  ∃ t, parse (stylesheet n) = .ok t ∧
    (solid t.children).map Node.kind
      = (List.replicate n [Kind.declaration, .atRule, .rule]).flatten ∧
    (solid t.children).map Node.shape
      = (List.range n).flatMap fun i =>
        ((solid t.children).take 3).map fun m => (mapLexemes (renumber i) m).shape
  := by
  obtain ⟨P⟩ := exists_firstPart
  obtain ⟨t, parsed, repeats⟩ := parse_parts P (List.range n) (.inl rfl)
  rw [String.empty_append] at parsed
  refine ⟨t, parsed, ?_, ?_⟩
  · rw [repeats.kinds, List.map_const', List.length_range]
  · generalize solid t.children = cs at repeats
    cases n with
    | zero =>
      cases repeats
      rfl
    | succ n =>
      have whole := repeats
      rw [List.range_succ_eq_map] at repeats
      cases repeats with
      | cons part =>
        rw [Repeats.take_append part]
        exact whole.shapes part

end Sample

end LosslessScss
