import LosslessScss.Token

/-!
# Lexers

A `Lexer` hands out the tokens of a text one after another.  It may read ahead: the tokens
that it has read and not handed out yet are kept in order.  When reading fails, the tokens
read before the failure stay, and the cursor is where the failure left it.

A `TokenStream` is everything that a lexer will ever hand out, together with the way it
ends: the text is used up, or a failure stands in the way.
-/

namespace LosslessScss

/-! ### Reading many tokens -/

/-- Tokens that follow each other, the failure that kept more from being read, if any, and
the cursor after all that. -/
structure Stretch where
  tokens : List Token
  failure : Option Failure
  cursor : Cursor
  deriving DecidableEq, Repr

/-- The stretch with one more token before the others. -/
def Stretch.cons (t : Token) (s : Stretch) : Stretch := { s with tokens := t :: s.tokens }

namespace Cursor

/-- At most `n` tokens from a cursor on. -/
def readUpTo : Nat → Cursor → Stretch
  | 0, c => ⟨[], none, c⟩
  | n + 1, c =>
    match c.read with
    | (.error f, d) => ⟨[], some f, d⟩
    | (.ok none, d) => ⟨[], none, d⟩
    | (.ok (some t), d) => (readUpTo n d).cons t

/-- Every token from a cursor on. -/
def readAll (c : Cursor) : Stretch :=
  match _h : c.read with
  | (.error f, d) => ⟨[], some f, d⟩
  | (.ok none, d) => ⟨[], none, d⟩
  | (.ok (some t), d) => (readAll d).cons t
termination_by c.rest.length
decreasing_by exact length_rest_lt_of_read _h

end Cursor

/-! ### Lexers -/

/-- A cursor, and the tokens read before it that have not been handed out. -/
structure Lexer where
  cursor : Cursor
  ahead : List Token
  deriving DecidableEq, Repr

/-- How far to look ahead, a machine word. -/
abbrev Distance := BitVec 64

namespace Lexer

/-- The lexer that starts at a cursor. -/
def ofCursor (c : Cursor) : Lexer := ⟨c, []⟩

/-- The lexer at the beginning of a text. -/
def ofString (source : String) : Lexer := ofCursor (.ofString source)

/-- Whether nothing is left: no token that was read ahead and no character. -/
def atEnd (l : Lexer) : Bool := l.ahead.isEmpty && l.cursor.atEnd

/-- Reads on until `count` tokens are ahead, the text ends or reading fails. -/
def fill (l : Lexer) (count : Nat) : Option Failure × Lexer :=
  let s := l.cursor.readUpTo (count - l.ahead.length)
  (s.failure, ⟨s.cursor, l.ahead ++ s.tokens⟩)

/-- The token `n` places ahead, which stays where it is, or none when the text ends
before.  The number of tokens that are needed is a machine word as well: for the greatest
distance it comes to zero, and nothing is read. -/
def peek (l : Lexer) (n : Distance) : Except Failure (Option Token) × Lexer :=
  match l.fill (n + 1).toNat with
  | (some f, l) => (.error f, l)
  | (none, l) => (.ok l.ahead[n.toNat]?, l)

/-- Hands out the next token, or none at the end of the text. -/
def next (l : Lexer) : Except Failure (Option Token) × Lexer :=
  match l.fill 1 with
  | (some f, l) => (.error f, l)
  | (none, l) => (.ok l.ahead.head?, { l with ahead := l.ahead.tail })

/-- Hands out the next `n` tokens, fewer if the text ends or reading fails before. -/
def take (l : Lexer) (n : Nat) : List Token × Option Failure × Lexer :=
  match l.fill n with
  | (failure, l) => (l.ahead.take n, failure, { l with ahead := l.ahead.drop n })

/-- Hands out every token up to the end of the text or to the first failure. -/
def drain (l : Lexer) : List Token × Option Failure × Lexer :=
  let s := l.cursor.readAll
  (l.ahead ++ s.tokens, s.failure, ⟨s.cursor, []⟩)

/-- Every token up to the end of the text.  A failure loses the tokens before it. -/
def all (l : Lexer) : Except Failure (List Token) × Lexer :=
  match l.drain with
  | (_, some f, l) => (.error f, l)
  | (tokens, none, l) => (.ok tokens, l)

/-- The place of the next token if it has been read ahead, and the cursor otherwise. -/
def position (l : Lexer) : Position :=
  match l.ahead with
  | t :: _ => t.start
  | [] => l.cursor.position

/-- A failure at the place of the next token. -/
def fail (l : Lexer) (message : String) : Failure := ⟨.remark message, l.position⟩

/-- A lexer that is asked for one token after another, and whether it has failed. -/
structure Iterator where
  lexer : Lexer
  failed : Bool
  deriving DecidableEq, Repr

/-- The iterator over the tokens that a lexer has left. -/
def tokens (l : Lexer) : Iterator := ⟨l, false⟩

/-- The next token or failure, or none at the end of the text and after a failure. -/
def Iterator.next (i : Iterator) : Option (Except Failure Token) × Iterator :=
  if i.failed then (none, i)
  else
    match i.lexer.next with
    | (.ok t?, l) => (t?.map .ok, { i with lexer := l })
    | (.error f, l) => (some (.error f), ⟨l, true⟩)

end Lexer

/-- The tokens of a text. -/
def tokenize (source : String) : Except Failure (List Token) := (Lexer.ofString source).all.1

/-! ### Token streams -/

/-- What follows the last token: the end of the text, or a failure. -/
inductive Ending where
  | finished (position : Position)
  | broken (failure : Failure)
  deriving DecidableEq, Repr

/-- What is seen when looking past the last token. -/
def Ending.reach : Ending → Except Failure Unit
  | finished _ => .ok ()
  | broken f => .error f

theorem Ending.eq_finished_of_reach {e : Ending} (reached : e.reach = .ok ()) :
  ∃ p, e = .finished p
  := by
  cases e with
  | finished p => exact ⟨p, rfl⟩
  | broken => cases reached

/-- The failure when one more token is needed. -/
def Ending.failure : Ending → Failure
  | finished p => ⟨.endOfInput, p⟩
  | broken f => f

/-- The failure when the given text is needed. -/
def Ending.lacking (wanted : String) : Ending → Failure
  | finished p => ⟨.expected wanted, p⟩
  | broken f => f

/-- Tokens that follow each other, and what follows the last one. -/
structure TokenStream where
  tokens : List Token
  ending : Ending
  deriving DecidableEq, Repr

/-- The tokens of a stretch and the way it ends. -/
def Stretch.stream (s : Stretch) : TokenStream where
  tokens := s.tokens
  ending :=
    match s.failure with
    | none => .finished s.cursor.position
    | some f => .broken f

/-- Everything that a lexer will hand out. -/
def Lexer.stream (l : Lexer) : TokenStream :=
  let s := l.cursor.readAll.stream
  { s with tokens := l.ahead ++ s.tokens }

/-- Where all tokens can be handed out they are followed by the end of the text. -/
theorem Lexer.stream_of_all {l : Lexer} {ts : List Token} (all : l.all.1 = .ok ts) :
  l.stream.tokens = ts ∧ ∃ p, l.stream.ending = .finished p
  := by
  unfold Lexer.all drain at all
  unfold stream Stretch.stream
  cases failure : l.cursor.readAll.failure with
  | some f => simp only [failure] at all; cases all
  | none =>
    simp only [failure] at all
    cases all
    exact ⟨rfl, _, rfl⟩

end LosslessScss
