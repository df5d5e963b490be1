import LosslessScss.Json.Reader
import LosslessScss.Proofs.Json.Layout
import LosslessScss.Proofs.Lexicon.Reading

/-!
# Texts of JSON values

The text of a value without decimals tells the value, on one line as well as over several lines
(`Json.compact_injective`, `Json.pretty_injective`).  It even tells where it ends, unless a number
goes on with what follows (`Json.Layout.text_tells`); so a text with several values in a row tells
each of them.
-/

namespace LosslessScss.Json

/-! ### Strings -/

theorem hexValue?_hexDigit :
  ∀ n < 16, hexValue? (hexDigit n) = some n
  := by
  decide

theorem hexDigit_plain :
  ∀ n < 16, hexDigit n ≠ '"' ∧ hexDigit n ≠ '\\'
  := by
  decide

/-- A character that is escaped by a letter, one that is escaped by its number, and one that is not
escaped at all. -/
inductive Escapes (c : Char) : List Char → Prop where
  | letter {d} (other : d ≠ 'u') (letter : escaped? d = some c) : Escapes c ['\\', d]
  | number {m n} (low : m < 16) (low' : n < 16) (control : c.toNat < 0x20)
      (number : 0x10 * m + n = c.toNat) :
      Escapes c ['\\', 'u', '0', '0', hexDigit m, hexDigit n]
  | plain (noQuote : c ≠ '"') (noBackslash : c ≠ '\\') (noControl : ¬c.toNat < 0x20) :
      Escapes c [c]

theorem escapes_escape (c : Char) :
  Escapes c (escape c)
  := by
  unfold escape
  repeat' split
  all_goals
    next is =>
      first
      | subst is; exact .letter (by decide) rfl
      | exact .number (by omega) (by omega) is (by omega)
      | exact .plain ‹_› ‹_› is

/-- What is read of a character that has been escaped is the character. -/
theorem unescape?_escape (c : Char) (s : List Char) :
  unescape? (escape c ++ s) = (unescape? s).map (c :: ·)
  := by
  have escapes := escapes_escape c
  generalize escape c = e at escapes ⊢
  cases escapes with
  | letter other letter =>
    rw [List.cons_append, List.cons_append, List.nil_append, unescape?.eq_def]
    simp only [if_true]
    split
    case h_1 number => exact absurd (List.cons.inj number).1 other
    case h_2 same =>
      obtain ⟨rfl, rfl⟩ := List.cons.inj same
      rw [letter]
    case h_3 none => cases none
  | @number m n low low' control number =>
    have value : hexValues? '0' '0' (hexDigit m) (hexDigit n) = some c.toNat := by
      rw [hexValues?, hexValue?_hexDigit m low, hexValue?_hexDigit n low', ← number,
        show hexValue? '0' = some 0 by rfl]
      simp only [Option.bind_eq_bind, Option.bind_some, Option.pure_def, Option.some.injEq]
      omega
    have noSurrogate : ¬(0xD800 ≤ c.toNat ∧ c.toNat < 0xDC00) := by omega
    have noSurrogate' : ¬(0xDC00 ≤ c.toNat ∧ c.toNat < 0xE000) := by omega
    simp only [List.cons_append, List.nil_append]
    rw [unescape?.eq_def]
    simp only [if_true, value, noSurrogate, noSurrogate', if_false, Char.ofNat_toNat]
  | plain noQuote noBackslash noControl =>
    rw [List.singleton_append, unescape?.eq_def]
    simp only [noBackslash, noControl, if_false]

theorem quotedText_escape (c : Char) {s : List Char} (text : QuotedText '"' s) :
  QuotedText '"' (escape c ++ s)
  := by
  have escapes := escapes_escape c
  generalize escape c = e at escapes ⊢
  cases escapes with
  | letter => exact .escape text
  | number low low' =>
    have first := hexDigit_plain _ low
    have second := hexDigit_plain _ low'
    exact .escape (.plain (by decide) (by decide) (.plain (by decide) (by decide)
      (.plain first.1 first.2 (.plain second.1 second.2 text))))
  | plain noQuote noBackslash => exact .plain noQuote noBackslash text

theorem unescape?_flatMap_escape (s : List Char) :
  unescape? (s.flatMap escape) = some s
  := by
  induction s with
  | nil => rfl
  | cons c s ih => rw [List.flatMap_cons, unescape?_escape, ih, Option.map_some]

theorem quotedText_flatMap_escape (s : List Char) :
  QuotedText '"' (s.flatMap escape)
  := by
  induction s with
  | nil => exact .nil
  | cons c s ih =>
    rw [List.flatMap_cons]
    exact quotedText_escape c ih

/-- A text with a string in front tells the string and what follows it. -/
theorem quote_tells {s t : String} {r r' : List Char}
    (same : (quote s).toList ++ r = (quote t).toList ++ r') :
  s = t ∧ r = r'
  := by
  have split (s : String) (r : List Char) : Text.splitQuoted '"' ((quote s).toList ++ r).tail =
      some (s.toList.flatMap escape, r) := by
    rw [quote, String.toList_ofList, List.append_assoc]
    exact Reading.splitQuoted_of_text (by decide) (quotedText_flatMap_escape _) r
  have bodies := split s r
  rw [same, split t r', Option.some.injEq, Prod.mk.injEq] at bodies
  obtain ⟨body, rest⟩ := bodies
  have read := unescape?_flatMap_escape s.toList
  rw [← body, unescape?_flatMap_escape, Option.some.injEq] at read
  exact ⟨String.toList_injective read.symm, rest.symm⟩

/-! ### Natural numbers -/

theorem toList_toString_natCast (n : Nat) :
  (toString (n : Int)).toList = Nat.toDigits 10 n
  := by
  rw [Int.toString_eq_repr, Int.repr_eq_if, if_pos (Int.natCast_nonneg n), Int.toNat_natCast,
    Nat.toList_repr]

theorem inNumber_of_mem_toDigits {n : Nat} {c : Char} (mem : c ∈ Nat.toDigits 10 n) :
  inNumber c = true
  := by
  have digit := Nat.isDigit_of_mem_toDigits (by decide) (by decide) mem
  simp [inNumber, digit]

/-- A text with a natural number in front tells the number and what follows it, unless a number goes
on with that. -/
theorem natural_tells {m n : Nat} {r r' : List Char} (stops : Stops inNumber r)
    (stops' : Stops inNumber r') (same : Nat.toDigits 10 m ++ r = Nat.toDigits 10 n ++ r') :
  m = n ∧ r = r'
  := by
  obtain ⟨first, rest⟩ := takeWhile_of_stops (fun _ => inNumber_of_mem_toDigits) stops
  obtain ⟨first', rest'⟩ := takeWhile_of_stops (fun _ => inNumber_of_mem_toDigits) stops'
  rw [same] at first rest
  have value := congrArg (Nat.ofDigitChars 10 · 0) (first.symm.trans first')
  simp only [Nat.ofDigitChars_ten_toDigits] at value
  exact ⟨value, rest.symm.trans rest'⟩

/-! ### What a text tells -/

/-- A value that consists of texts, truth values and natural numbers. -/
inductive Plain : Json → Prop where
  | null : Plain .null
  | bool (b : Bool) : Plain (.bool b)
  | natural (n : Nat) : Plain (.integer n)
  | string (s : String) : Plain (.string s)
  | array {vs : List Json} (items : ∀ v ∈ vs, Plain v) : Plain (.array vs)
  | object {ms : List (String × Json)} (members : ∀ m ∈ ms, Plain m.2) : Plain (.object ms)

/-- A text with that of `a` in front tells `a`, of all that satisfies `P`, and what follows, unless
a number goes on with that. -/
def Tells {α : Type} (P : α → Prop) (text : α → List Char) (a : α) : Prop :=
  ∀ b r r', P b → Stops inNumber r → Stops inNumber r' → text a ++ r = text b ++ r' → a = b ∧ r = r'

/-- The sorts of values. -/
inductive Sorting where
  | null
  | bool
  | number
  | string
  | array
  | object
  deriving DecidableEq

/-- The sort of a value. -/
def sorting : Json → Sorting
  | .null => .null
  | .bool _ => .bool
  | .integer _ | .decimal _ => .number
  | .string _ => .string
  | .array _ => .array
  | .object _ => .object

/-- The sort of the values whose texts start with a character. -/
def sortingOf? (c : Char) : Option Sorting :=
  match c with
  | 'n' => some .null
  | 't' | 'f' => some .bool
  | '"' => some .string
  | '[' => some .array
  | '\x7b' => some .object
  | c => if c.isDigit then some .number else none

theorem sortingOf?_digit {c : Char} (digit : c.isDigit = true) :
  sortingOf? c = some .number
  := by
  unfold sortingOf?
  split
  case h_7 => exact if_pos digit
  all_goals cases digit

namespace Layout

variable (L : Layout) {α : Type} {P : α → Prop} {text : α → List Char} {as bs : List α}
  {level : Nat} {opener closer : Char} {r r' : List Char}

/-- The first character of a text tells the sort of the value. -/
theorem sortingOf?_text {v : Json} (plain : Plain v) (level : Nat) :
  ∃ c s, L.text level v = c :: s ∧ sortingOf? c = some v.sorting
  := by
  cases plain with
  | null => exact ⟨_, _, rfl, rfl⟩
  | bool b => cases b <;> exact ⟨_, _, rfl, rfl⟩
  | natural n =>
    obtain ⟨c, s, digits⟩ := List.exists_cons_of_ne_nil (Nat.toDigits_ne_nil (n := n) (b := 10))
    have digit : c.isDigit = true := by
      apply Nat.isDigit_of_mem_toDigits (b := 10) (n := n) (by decide) (by decide)
      rw [digits]
      exact List.mem_cons_self
    refine ⟨c, s, ?_, ?_⟩
    · rw [Layout.text, toList_toString_natCast, digits]
    · exact sortingOf?_digit digit
  | string s =>
    refine ⟨'"', s.toList.flatMap escape ++ ['"'], ?_, rfl⟩
    rw [Layout.text, quote, String.toList_ofList]
    rfl
  | @array vs => cases vs <;> exact ⟨_, _, rfl, rfl⟩
  | @object ms => cases ms <;> exact ⟨_, _, rfl, rfl⟩

section Containers

variable (closes : closer = ']' ∨ closer = '\x7d')
include closes

/-- The line break before a bracket, if there is any, and the bracket start with no comma and with
no part of a number. -/
theorem head_break (level : Nat) (c : Char) (s : List Char)
    (text : L.lineBreak level ++ closer :: r = c :: s) :
  c ≠ ',' ∧ inNumber c = false
  := by
  have blank := L.blank level
  cases lineBreak : L.lineBreak level with
  | nil =>
    rw [lineBreak] at text
    obtain ⟨rfl, _⟩ := List.cons.inj text
    obtain rfl | rfl := closes <;> decide
  | cons d ds =>
    rw [lineBreak] at text blank
    obtain ⟨rfl, _⟩ := List.cons.inj text
    obtain rfl | rfl := blank d List.mem_cons_self <;> decide

/-- No number goes on with what stands behind an entry. -/
theorem stops_behind (level : Nat) (es : List (List Char)) (r : List Char) :
  Stops inNumber (L.behind level closer es ++ r)
  := by
  intro c first
  obtain ⟨s, text⟩ := List.head?_eq_some_iff.mp first
  cases es with
  | nil =>
    rw [behind, List.append_assoc] at text
    exact (L.head_break closes level c s text).2
  | cons e es =>
    obtain ⟨rfl, _⟩ := List.cons.inj text
    decide

/-- What stands behind the first entry of a container tells the other entries. -/
theorem behind_tells (tells : ∀ a ∈ as, Tells P text a) (all : ∀ b ∈ bs, P b)
    (same : L.behind level closer (as.map text) ++ r = L.behind level closer (bs.map text) ++ r') :
  as = bs ∧ r = r'
  := by
  induction as generalizing bs with
  | nil =>
    cases bs with
    | nil => exact ⟨rfl, List.append_cancel_left same⟩
    | cons b bs =>
      rw [List.map_nil, List.map_cons, behind_cons_append, behind, List.append_assoc] at same
      exact absurd rfl (L.head_break closes level _ _ same).1
  | cons a as ih =>
    cases bs with
    | nil =>
      rw [List.map_nil, List.map_cons, behind_cons_append, behind, List.append_assoc] at same
      exact absurd rfl (L.head_break closes level _ _ same.symm).1
    | cons b bs =>
      obtain ⟨first, others⟩ := List.forall_mem_cons.mp all
      rw [List.map_cons, List.map_cons, behind_cons_append, behind_cons_append] at same
      have entries := List.append_cancel_left (List.cons.inj same).2
      obtain ⟨rfl, rest⟩ := tells a List.mem_cons_self b _ _ first (L.stops_behind closes level _ r)
        (L.stops_behind closes level _ r') entries
      obtain ⟨rfl, rest'⟩ := ih (fun a mem => tells a (List.mem_cons_of_mem _ mem)) others rest
      exact ⟨rfl, rest'⟩

/-- The closing bracket of a container without entries is told from the first entry of another. -/
theorem closer_ne_entry {e : List Char} (starts : e.head?.any (· != closer) = true) (level : Nat)
    (s : List Char) :
  closer :: r ≠ L.lineBreak level ++ (e ++ s)
  := by
  intro same
  have blank := L.blank level
  cases lineBreak : L.lineBreak level with
  | nil =>
    obtain ⟨c, first, other⟩ := (Option.any_eq_true _ _).mp starts
    obtain ⟨_, rfl⟩ := List.head?_eq_some_iff.mp first
    rw [lineBreak] at same
    rw [(List.cons.inj same).1] at other
    simp at other
  | cons d ds =>
    rw [lineBreak] at same blank
    obtain ⟨rfl, _⟩ := List.cons.inj same
    obtain rfl | rfl := closes <;> exact absurd (blank _ List.mem_cons_self) (by decide)

/-- The text of a container tells its entries, none of which starts like the closing bracket. -/
theorem enclosed_tells (tells : ∀ a ∈ as, Tells P text a) (all : ∀ b ∈ bs, P b)
    (starts : ∀ a ∈ as ++ bs, (text a).head?.any (· != closer) = true)
    (same : L.enclosed level opener closer (as.map text) ++ r
      = L.enclosed level opener closer (bs.map text) ++ r') :
  as = bs ∧ r = r'
  := by
  cases as with
  | nil =>
    cases bs with
    | nil => exact ⟨rfl, List.append_cancel_left same⟩
    | cons b bs =>
      rw [List.map_nil, List.map_cons, enclosed_cons_append] at same
      exact absurd (List.cons.inj same).2 (L.closer_ne_entry closes (starts b (by simp)) _ _)
  | cons a as =>
    cases bs with
    | nil =>
      rw [List.map_nil, List.map_cons, enclosed_cons_append] at same
      have same := (List.cons.inj same).2.symm
      exact absurd same (L.closer_ne_entry closes (starts a (by simp)) _ _)
    | cons b bs =>
      obtain ⟨first, others⟩ := List.forall_mem_cons.mp all
      rw [List.map_cons, List.map_cons, enclosed_cons_append, enclosed_cons_append] at same
      have entries := List.append_cancel_left (List.cons.inj same).2
      obtain ⟨rfl, rest⟩ := tells a List.mem_cons_self b _ _ first (L.stops_behind closes level _ r)
        (L.stops_behind closes level _ r') entries
      obtain ⟨rfl, rest'⟩ := L.behind_tells closes
        (fun a mem => tells a (List.mem_cons_of_mem _ mem)) others rest
      exact ⟨rfl, rest'⟩

end Containers

/-- The text of a member of an object tells the key, and the value as far as its text does. -/
theorem member_tells {m : String × Json} (tells : Tells Plain (L.text level) m.2) :
  Tells (fun m => Plain m.2) (L.member level) m
  := by
  rintro ⟨k, w⟩ r r' plain stops stops' same
  obtain ⟨k', v⟩ := m
  rw [member, member, List.append_assoc, List.append_assoc, List.append_assoc,
    List.append_assoc] at same
  obtain ⟨rfl, rest⟩ := quote_tells same
  obtain ⟨rfl, rest'⟩ := tells w r r' plain stops stops' (List.append_cancel_left rest)
  exact ⟨rfl, rest'⟩

/-- No text of a value starts like the closing bracket of an array. -/
theorem text_starts {v : Json} (plain : Plain v) (level : Nat) :
  (L.text level v).head?.any (· != ']') = true
  := by
  obtain ⟨c, s, text, sort⟩ := L.sortingOf?_text plain level
  rw [text, List.head?_cons, Option.any_some, bne_iff_ne]
  rintro rfl
  cases sort

/-- No text of a member starts like the closing bracket of an object. -/
theorem member_starts (m : String × Json) (level : Nat) :
  (L.member level m).head?.any (· != '\x7d') = true
  := by
  rw [member, quote, String.toList_ofList]
  rfl

theorem sorting_eq_of_text {v w : Json} (plain : Plain v) (plain' : Plain w)
    (same : L.text level v ++ r = L.text level w ++ r') :
  v.sorting = w.sorting
  := by
  obtain ⟨c, s, text, sort⟩ := L.sortingOf?_text plain level
  obtain ⟨c', s', text', sort'⟩ := L.sortingOf?_text plain' level
  rw [text, text'] at same
  rw [(List.cons.inj same).1, sort'] at sort
  exact (Option.some.inj sort).symm

/-- The text of a value tells the value, and where it ends. -/
theorem text_tells {v : Json} (plain : Plain v) (level : Nat) :
  Tells Plain (L.text level) v
  := by
  induction plain generalizing level with
  | null =>
    intro w r r' plain' stops stops' same
    have sort := L.sorting_eq_of_text .null plain' same
    cases plain' with
    | null => exact ⟨rfl, List.append_cancel_left same⟩
    | _ => cases sort
  | bool b =>
    intro w r r' plain' stops stops' same
    have sort := L.sorting_eq_of_text (.bool b) plain' same
    cases plain' with
    | bool b' =>
      have heads := congrArg List.head? same
      cases b <;> cases b'
      case false.false | true.true => exact ⟨rfl, List.append_cancel_left same⟩
      all_goals cases heads
    | _ => cases sort
  | natural n =>
    intro w r r' plain' stops stops' same
    have sort := L.sorting_eq_of_text (.natural n) plain' same
    cases plain' with
    | natural m =>
      rw [Layout.text, Layout.text, toList_toString_natCast, toList_toString_natCast] at same
      obtain ⟨rfl, rest⟩ := natural_tells stops stops' same
      exact ⟨rfl, rest⟩
    | _ => cases sort
  | string s =>
    intro w r r' plain' stops stops' same
    have sort := L.sorting_eq_of_text (.string s) plain' same
    cases plain' with
    | string t =>
      rw [Layout.text, Layout.text] at same
      obtain ⟨rfl, rest⟩ := quote_tells same
      exact ⟨rfl, rest⟩
    | _ => cases sort
  | @array vs items ih =>
    intro w r r' plain' stops stops' same
    have sort := L.sorting_eq_of_text (.array items) plain' same
    cases plain' with
    | @array ws items' =>
      rw [Layout.text, Layout.text, items_eq_map, items_eq_map] at same
      have starts : ∀ v ∈ vs ++ ws, (L.text (level + 1) v).head?.any (· != ']') = true :=
        List.forall_mem_append.mpr ⟨fun v mem => L.text_starts (items v mem) _,
          fun w mem => L.text_starts (items' w mem) _⟩
      obtain ⟨rfl, rest⟩ := L.enclosed_tells (.inl rfl) (fun v mem => ih v mem _) items' starts same
      exact ⟨rfl, rest⟩
    | _ => cases sort
  | @object ms members ih =>
    intro w r r' plain' stops stops' same
    have sort := L.sorting_eq_of_text (.object members) plain' same
    cases plain' with
    | @object ms' members' =>
      rw [Layout.text, Layout.text, members_eq_map, members_eq_map] at same
      obtain ⟨rfl, rest⟩ := L.enclosed_tells (.inr rfl) (fun m mem => L.member_tells (ih m mem _))
        members' (fun m _ => L.member_starts m _) same
      exact ⟨rfl, rest⟩
    | _ => cases sort

end Layout

/-- A value is told by its text on one line. -/
theorem compact_injective {v w : Json} (plain : Plain v) (plain' : Plain w)
    (same : v.compact = w.compact) :
  v = w
  := by
  have texts := congrArg String.toList same
  rw [Layout.toList_compact 0, Layout.toList_compact 0] at texts
  have tells := Layout.onOneLine.text_tells plain 0 w [] [] plain' nofun nofun
  exact (tells (congrArg (· ++ []) texts)).1

/-- A value is told by its text over several lines. -/
theorem pretty_injective {v w : Json} (plain : Plain v) (plain' : Plain w)
    (same : v.pretty = w.pretty) :
  v = w
  := by
  have texts := congrArg String.toList same
  rw [pretty, pretty, Layout.toList_prettyAt, Layout.toList_prettyAt] at texts
  have tells := Layout.onLines.text_tells plain 0 w [] [] plain' nofun nofun
  exact (tells (congrArg (· ++ []) texts)).1

end LosslessScss.Json
