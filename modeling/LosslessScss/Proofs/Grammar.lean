import LosslessScss.Stylesheet

/-!
# The grammar of stylesheets

The rules by which the parser makes nodes of tokens.  `Derives e n p ts ns us` says that the
phrase `p` at the beginning of the tokens `ts` makes up the nodes `ns` and leaves the tokens
`us`, where `e` follows the last token and at most `n` more groups are nested.  Every rule
says which tokens it takes and what it sees of those behind them.

A parser that remembers no groups succeeds exactly by these rules: by `Level.levels_sound` what
it reads is derived, and by `Derives.reads` what is derived it reads.
-/

namespace LosslessScss

/-! ### Phrases -/

/-- A loop over atoms: up to the end of a run, up to the block of a rule, or up to the colon of a
declaration. -/
inductive Loop where
  | run (scope : Scope) (selector : Bool)
  | selector
  | property
  deriving DecidableEq, Repr

namespace Loop

/-- Whether a token ends a loop, which leaves it where it is. -/
def stops : Loop → Token → Bool
  | run scope _ => Level.endsRun scope
  | selector => fun t => t.mark? = some '{'
  | property => fun t => t.mark? = some ':'

/-- Whether the end of the text ends a loop as well. -/
def stopsAtEnd : Loop → Bool
  | run _ _ => true
  | _ => false

/-- Whether the atoms of a loop are those of a selector. -/
def inSelector : Loop → Bool
  | run _ inSelector => inSelector
  | selector => true
  | property => false

end Loop

namespace Level

/-- The next atom of a loop, unless the loop ends. -/
def loopAtom (L : Level) : Loop → State → Except Failure (Option (Node × State))
  | .run scope selector => L.runAtom scope selector
  | .selector => L.selectorAtom
  | .property => L.propertyAtom

theorem loopAtom_advances (L : Level) (loop : Loop) :
  AdvancesIfSome (L.loopAtom loop)
  := by
  cases loop with
  | run scope selector => exact L.runAtom_advances scope selector
  | selector => exact L.selectorAtom_advances
  | property => exact L.propertyAtom_advances

/-- The atoms of a loop. -/
def loop (L : Level) (loop : Loop) (s : State) : Except Failure (List Node × State) :=
  collect (L.loopAtom loop) (L.loopAtom_advances loop) s

theorem loopAtom_cons (L : Level) (loop : Loop) {s : State} {t : Token} {ts : List Token}
    (tokens : s.tokens = t :: ts) :
  L.loopAtom loop s = if loop.stops t then .ok none else found (L.atom loop.inSelector) s
  := by
  cases loop with
  | run scope selector =>
    rw [loopAtom, runAtom, tokens]
    rfl
  | selector =>
    rw [loopAtom, selectorAtom, tokens]
    rfl
  | property =>
    rw [loopAtom, propertyAtom, tokens]
    simp only [Loop.stops, decide_eq_true_eq]
    rfl

/-- Without a token a loop ends, unless something is still to come. -/
theorem loopAtom_nil (L : Level) (loop : Loop) {s : State} (none : s.tokens = []) :
  (loop.stopsAtEnd = true ∧ L.loopAtom loop s = (do L.ending.reach; return .none)) ∨
    (loop.stopsAtEnd = false ∧ ∃ f, L.loopAtom loop s = .error f)
  := by
  cases loop with
  | run scope selector =>
    left
    rw [loopAtom, runAtom, none]
    exact ⟨rfl, rfl⟩
  | selector =>
    right
    refine ⟨rfl, L.ending.failure, ?_⟩
    rw [loopAtom, selectorAtom, none, found, L.atom_nil true none]
    cases L.ending <;> rfl
  | property =>
    right
    refine ⟨rfl, L.ending.lacking ":", ?_⟩
    rw [loopAtom, propertyAtom, none]

end Level

/-- What the parser reads at a level of nesting. -/
inductive Phrase where
  | group (g : Group)
  | call (caller : Node)
  | segment (first : Bool)
  | segments (first : Bool)
  | target
  | atom (selector : Bool)
  | atoms (loop : Loop)
  | head
  | statement (scope : Scope)
  | sequence (around : Surroundings)

/-! ### Conditions -/

/-- Tokens whose marks make up a delimiter. -/
def Marks (ts : List Token) (delimiter : String) : Prop :=
  ts.map Token.mark? = delimiter.toList.map some

theorem Marks.length {ts : List Token} {delimiter : String} (marks : Marks ts delimiter) :
  ts.length = delimiter.toList.length
  := by
  rw [← List.length_map, marks, List.length_map]

theorem Marks.head {t : Token} {ts : List Token} {delimiter : String} {c : Char} {cs : List Char}
    (marks : Marks (t :: ts) delimiter) (characters : delimiter.toList = c :: cs) :
  t.mark? = some c
  := by
  rw [Marks, characters] at marks
  exact (List.cons.inj marks).1

/-- The token `t` before `ts` is an atom by itself: it opens no group and starts no name of a
class or an id, nor a pseudo class or a pseudo element of a selector. -/
def Ending.Lone (e : Ending) (selector : Bool) (t : Token) (ts : List Token) : Prop :=
  match t.mark? with
  | some '#' => e.atMark '{' ts = .ok false ∧ e.atName ts = .ok false
  | some '.' => e.atName ts = .ok false
  | some '(' | some '[' | some '{' => False
  | some ':' =>
    selector = true →
      e.atMark ':' ts = .ok true ∧ e.atName ts.tail = .ok false ∨
        e.atMark ':' ts = .ok false ∧ e.atName ts = .ok false
  | some c => isCloser c = false
  | none => True

/-- The name of a class or an id does not go on with the tokens `ts`. -/
def Ending.NameEnds (e : Ending) (first : Bool) (ts : List Token) : Prop :=
  e.atInterpolation ts = .ok false ∧ ∀ t ∈ ts.head?, Level.continuesName first t = false

/-- The terminator of a statement, one of the given marks, or none of them. -/
inductive Terminator (e : Ending) (marks : List Char) :
    List Token → List Node → List Token → Prop where
  | mark {t ts c} (mem : c ∈ marks) (mark : t.mark? = some c) :
      Terminator e marks (t :: ts) [.leaf t] ts
  | none {ts} (absent : ∀ c ∈ marks, e.atMark c ts = .ok false) : Terminator e marks ts [] ts

/-- The marks that end a declaration without a block. -/
def Scope.terminators : Scope → List Char
  | statements => [';']
  | entries => [';', ',']

/-- A token with which neither a statement of one token nor an at-rule starts. -/
def Surveyed (scope : Scope) (t : Token) : Prop :=
  Level.standsAlone scope t = false ∧ t.kind ≠ .atKeyword

/-! ### Rules -/

/-- The rules by which phrases make up nodes. -/
inductive Derives (e : Ending) :
    Nat → Phrase → List Token → List Node → List Token → Prop where
  /-- A group is a sequence between its opening marks and its closing one. -/
  | group {n g o os ts ns c us} (opening : Marks (o :: os) g.kind.opening)
      (inside : Derives e n (.sequence (.inside g o.start)) ts ns (c :: us))
      (closing : c.mark? = some g.closer) :
      Derives e (n + 1) (.group g) (o :: os ++ ts) [.branch g.kind ns o.start c.stop] us
  | callNone {n m ts} (absent : e.atMark '(' ts = .ok false) : Derives e n (.call m) ts [m] ts
  /-- Arguments directly after a name make it a function call. -/
  | callArguments {n m a ts us} (arguments : Derives e n (.group .arguments) ts [a] us) :
      Derives e n (.call m) ts [.spanning .functionCall [m, a] m.start] us
  | segmentToken {n first t ts} (continues : Level.continuesName first t = true) :
      Derives e n (.segment first) (t :: ts) [.leaf t] ts
  | segmentInterpolation {n first m ts us}
      (interpolation : Derives e n (.group .interpolation) ts [m] us) :
      Derives e n (.segment first) ts [m] us
  | segmentsEnd {n first ts} (ends : e.NameEnds first ts) :
      Derives e n (.segments first) ts [] ts
  | segmentsCons {n first m ts us ns vs} (one : Derives e n (.segment first) ts [m] us)
      (others : Derives e n (.segments false) us ns vs) :
      Derives e n (.segments first) ts (m :: ns) vs
  | targetName {n t ts} (name : t.kind = .identifier) : Derives e n .target (t :: ts) [.leaf t] ts
  | targetInterpolation {n m ts us}
      (interpolation : Derives e n (.group .interpolation) ts [m] us) :
      Derives e n .target ts [m] us
  | atomToken {n selector t ts} (noName : t.kind ≠ .identifier) (lone : e.Lone selector t ts) :
      Derives e n (.atom selector) (t :: ts) [.leaf t] ts
  | atomName {n selector t ts m us} (name : t.kind = .identifier)
      (call : Derives e n (.call (.leaf t)) ts [m] us) :
      Derives e n (.atom selector) (t :: ts) [m] us
  | atomGroup {n selector g m ts us} (kind : g = .parentheses ∨ g = .brackets ∨ g = .block)
      (group : Derives e n (.group g) ts [m] us) :
      Derives e n (.atom selector) ts [m] us
  | atomInterpolation {n selector m ts us m' vs}
      (interpolation : Derives e n (.group .interpolation) ts [m] us)
      (call : Derives e n (.call m) us [m'] vs) :
      Derives e n (.atom selector) ts [m'] vs
  /-- A class or an id: a mark in front of a name. -/
  | atomCompound {n selector kind t ts ns us} (which : kind = .className ∨ kind = .idName)
      (sigil : Marks [t] kind.opening) (noGroup : kind = .idName → e.atMark '{' ts = .ok false)
      (named : e.atName ts = .ok true) (segments : Derives e n (.segments true) ts ns us) :
      Derives e n (.atom selector) (t :: ts)
        [.branch kind ns t.start ((ns.getLast?.map Node.stop).getD t.stop)] us
  /-- A pseudo class or a pseudo element: one or two colons in front of a name. -/
  | atomPseudo {n kind c cs ts m us m' vs} (which : kind = .pseudoClass ∨ kind = .pseudoElement)
      (colons : Marks (c :: cs) kind.opening) (named : e.atName ts = .ok true)
      (target : Derives e n .target ts [m] us) (call : Derives e n (.call m) us [m'] vs) :
      Derives e n (.atom true) (c :: cs ++ ts) [.branch kind [m'] c.start m'.stop] vs
  | atomsStop {n loop t ts} (stops : loop.stops t = true) :
      Derives e n (.atoms loop) (t :: ts) [] (t :: ts)
  | atomsEnd {n loop} (mayEnd : loop.stopsAtEnd = true) (reached : e.reach = .ok ()) :
      Derives e n (.atoms loop) [] [] []
  | atomsCons {n loop t ts m us ms vs} (goesOn : loop.stops t = false)
      (first : Derives e n (.atom loop.inSelector) (t :: ts) [m] us)
      (others : Derives e n (.atoms loop) us ms vs) :
      Derives e n (.atoms loop) (t :: ts) (m :: ms) vs
  | headNone {n ts} (absent : e.atCall (ts.dropWhile (·.kind = .space)) = .ok false) :
      Derives e n .head ts [] ts
  /-- The name and the arguments after the keyword of an at-rule. -/
  | headCall {n blanks t ts a us} (blank : ∀ b ∈ blanks, b.kind = .space)
      (name : t.kind = .identifier) (arguments : Derives e n (.group .arguments) ts [a] us) :
      Derives e n .head (blanks ++ t :: ts) (blanks.map .leaf ++ [.leaf t, a]) us
  | statementToken {n scope t ts} (alone : Level.standsAlone scope t = true) :
      Derives e n (.statement scope) (t :: ts) [.leaf t] ts
  /-- An at-rule that ends with a block. -/
  | atRuleBlock {n scope k ts hs us ps vs b ws} (keyword : k.kind = .atKeyword)
      (head : Derives e n .head ts hs us)
      (prelude : Derives e n (.atoms (.run scope true)) us ps vs)
      (block : Derives e n (.group .block) vs [b] ws) :
      Derives e n (.statement scope) (k :: ts)
        [.spanning .atRule (.leaf k :: (hs ++ ps ++ [b])) k.start] ws
  /-- An at-rule that ends with a semicolon, or just ends. -/
  | atRule {n scope k ts hs us ps vs fs ws} (keyword : k.kind = .atKeyword)
      (head : Derives e n .head ts hs us)
      (prelude : Derives e n (.atoms (.run scope true)) us ps vs)
      (noBlock : e.atMark '{' vs = .ok false) (final : Terminator e [';'] vs fs ws) :
      Derives e n (.statement scope) (k :: ts)
        [.spanning .atRule (.leaf k :: (hs ++ ps ++ fs)) k.start] ws
  | rule {n scope t ts ms us b vs} (start : Surveyed scope t)
      (survey : Statement.plainSurvey e scope (t :: ts) = .ok .rule)
      (selector : Derives e n (.atoms .selector) (t :: ts) ms us)
      (block : Derives e n (.group .block) us [b] vs) :
      Derives e n (.statement scope) (t :: ts)
        [.spanning .rule [.spanning .selector ms t.start, b] t.start] vs
  /-- A declaration whose value ends in a block. -/
  | declarationBlock {n scope t ts ps c us ms vs b ws fs xs} (start : Surveyed scope t)
      (survey : Statement.plainSurvey e scope (t :: ts) = .ok .declaration)
      (property : Derives e n (.atoms .property) (t :: ts) ps (c :: us))
      (value : Derives e n (.atoms (.run scope false)) us ms vs)
      (block : Derives e n (.group .block) vs [b] ws) (final : Terminator e [';'] ws fs xs) :
      Derives e n (.statement scope) (t :: ts)
        [.spanning .declaration ([.spanning .property ps t.start, .leaf c,
          .spanning .value (ms ++ [b]) c.stop] ++ fs) t.start] xs
  | declaration {n scope t ts ps c us ms vs fs ws} (start : Surveyed scope t)
      (survey : Statement.plainSurvey e scope (t :: ts) = .ok .declaration)
      (property : Derives e n (.atoms .property) (t :: ts) ps (c :: us))
      (value : Derives e n (.atoms (.run scope false)) us ms vs)
      (noBlock : e.atMark '{' vs = .ok false) (final : Terminator e scope.terminators vs fs ws) :
      Derives e n (.statement scope) (t :: ts)
        [.spanning .declaration ([.spanning .property ps t.start, .leaf c,
          .spanning .value ms c.stop] ++ fs) t.start] ws
  /-- A block that stands by itself. -/
  | looseBlock {n scope t ts m us} (start : Surveyed scope t)
      (survey : Statement.plainSurvey e scope (t :: ts) = .ok .loose)
      (first : Derives e n (.atom false) (t :: ts) [m] us) (block : m.kind = .block) :
      Derives e n (.statement scope) (t :: ts) [m] us
  | loose {n scope t ts m us ms vs} (start : Surveyed scope t)
      (survey : Statement.plainSurvey e scope (t :: ts) = .ok .loose)
      (first : Derives e n (.atom false) (t :: ts) [m] us) (noBlock : m.kind ≠ .block)
      (others : Derives e n (.atoms (.run scope false)) us ms vs) :
      Derives e n (.statement scope) (t :: ts) (m :: ms) vs
  | sequenceEnd {n} (reached : e.reach = .ok ()) : Derives e n (.sequence .top) [] [] []
  | sequenceCloser {n around t ts c} (closer : around.closer? = some c)
      (mark : t.mark? = some c) :
      Derives e n (.sequence around) (t :: ts) [] (t :: ts)
  | sequenceCons {n around t ts ms us ns vs} (goesOn : t.mark?.all (! isCloser ·) = true)
      (first : Derives e n (.statement around.scope) (t :: ts) ms us)
      (others : Derives e n (.sequence around) us ns vs) :
      Derives e n (.sequence around) (t :: ts) (ms ++ ns) vs

/-! ### What is left -/

theorem Terminator.suffix {e : Ending} {marks : List Char} {ts us : List Token} {ns : List Node}
    (terminator : Terminator e marks ts ns us) :
  us <:+ ts
  := by
  cases terminator with
  | mark => exact List.suffix_cons _ _
  | none => exact List.suffix_refl _

/-- What a phrase leaves is the end of the tokens that it is read from. -/
theorem Derives.suffix {e : Ending} {n : Nat} {p : Phrase} {ts us : List Token} {ns : List Node}
    (derives : Derives e n p ts ns us) :
  us <:+ ts
  := by
  induction derives with
  | group _ _ _ ih => exact (List.suffix_cons _ _).trans (ih.trans (List.suffix_append _ _))
  | callNone | segmentsEnd | atomsStop | atomsEnd | headNone | sequenceEnd | sequenceCloser =>
    exact List.suffix_refl _
  | segmentToken | targetName | atomToken | statementToken => exact List.suffix_cons _ _
  | callArguments _ ih | segmentInterpolation _ ih | targetInterpolation _ ih | atomGroup _ _ ih
  | looseBlock _ _ _ _ ih =>
    exact ih
  | atomName _ _ ih | atomCompound _ _ _ _ _ ih =>
    exact ih.trans (List.suffix_cons _ _)
  | segmentsCons _ _ ih ih' | atomInterpolation _ _ ih ih' | atomsCons _ _ _ ih ih'
  | sequenceCons _ _ _ ih ih' | loose _ _ _ _ _ ih ih' | rule _ _ _ _ ih ih' =>
    exact ih'.trans ih
  | atomPseudo _ _ _ _ _ ih ih' => exact ih'.trans (ih.trans (List.suffix_append _ _))
  | headCall _ _ _ ih =>
    exact ih.trans ((List.suffix_cons _ _).trans (List.suffix_append _ _))
  | atRuleBlock _ _ _ _ ih ih' ih'' =>
    exact ih''.trans (ih'.trans (ih.trans (List.suffix_cons _ _)))
  | atRule _ _ _ _ final ih ih' =>
    exact final.suffix.trans (ih'.trans (ih.trans (List.suffix_cons _ _)))
  | declarationBlock _ _ _ _ _ final ih ih' ih'' =>
    exact final.suffix.trans (ih''.trans (ih'.trans ((List.suffix_cons _ _).trans ih)))
  | declaration _ _ _ _ _ final ih ih' =>
    exact final.suffix.trans (ih'.trans ((List.suffix_cons _ _).trans ih))

/-- What holds of all tokens holds of those that a phrase leaves. -/
theorem Derives.forall_rest {e : Ending} {n : Nat} {p : Phrase} {ts us : List Token}
    {ns : List Node} {P : Token → Prop} (derives : Derives e n p ts ns us) (all : ∀ t ∈ ts, P t) :
  ∀ t ∈ us, P t
  := fun t mem => all t (derives.suffix.subset mem)

end LosslessScss
