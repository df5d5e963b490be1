/-!
# Quoted texts

A quoted text ends at the first closing quote that no backslash precedes; a backslash
takes the character after it along, whatever it is.  `Text.splitQuoted` separates the text
between the quotes, with its backslashes, from what follows the closing quote.
-/

namespace LosslessScss.Text

/-- The text up to the closing `quote`, and what follows the quote, if the text is closed
at all. -/
def splitQuoted (quote : Char) : List Char → Option (List Char × List Char)
  | [] => none
  | c :: s =>
    if c = quote then some ([], s)
    else if c = '\\' then
      match s with
      | [] => none
      | d :: s => (splitQuoted quote s).map fun (body, rest) => (c :: d :: body, rest)
    else (splitQuoted quote s).map fun (body, rest) => (c :: body, rest)

theorem splitQuoted_append {quote : Char} {s body rest : List Char}
    (h : splitQuoted quote s = some (body, rest)) :
  s = body ++ quote :: rest
  := by
  fun_induction splitQuoted quote s generalizing body rest with
  | case1 => cases h
  | case2 => cases h; rfl
  | case3 => cases h
  | case4 d s _ ih =>
    obtain ⟨⟨body', rest'⟩, found, pair⟩ := Option.map_eq_some_iff.mp h
    cases pair
    simp [ih found]
  | case5 c s _ _ ih =>
    obtain ⟨⟨body', rest'⟩, found, pair⟩ := Option.map_eq_some_iff.mp h
    cases pair
    simp [ih found]

end LosslessScss.Text
