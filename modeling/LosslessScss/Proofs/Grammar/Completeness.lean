import LosslessScss.Proofs.Grammar.Soundness

/-!
# What is derived is read

A level reads what the rules of the grammar derive, if its survey looks at every token.
`Level.Reads p ts ns us` says that the function for the phrase `p` makes the nodes `ns` of the
tokens `ts` and leaves `us`.  Every rule carries over from derivations to readings, and so
`Derives.reads` follows by induction on the derivation.
-/

namespace LosslessScss

/-! ### What rules tell of the tokens ahead -/

theorem Group.Opens.atMark {g : Group} {ts : List Token} {c : Char} (opens : g.Opens ts)
    (opening : g.kind.opening.toList = [c]) (e : Ending) :
  e.atMark c ts = .ok true
  := by
  obtain ⟨os, us, rfl, marks⟩ := opens
  rw [Marks, opening, List.map_singleton] at marks
  obtain ⟨t, rfl, mark⟩ := List.map_eq_singleton_iff.mp marks
  simp only [List.singleton_append, Ending.atMark, mark, decide_true]
  rfl

theorem Group.Opens.atInterpolation {ts : List Token} (opens : Group.interpolation.Opens ts)
    (e : Ending) :
  e.atInterpolation ts = .ok true
  := by
  obtain ⟨os, us, rfl, marks⟩ := opens
  obtain ⟨t, ts, rfl, hash, marks⟩ := List.map_eq_cons_iff.mp marks
  obtain ⟨u, ts, rfl, bracket, marks⟩ := List.map_eq_cons_iff.mp marks
  simp only [List.cons_append, Ending.atInterpolation, Ending.atMark, hash, bracket]
  rfl

/-! ### Readings -/

/-- Reading with `read` takes the answer `a` from the tokens `ts` and leaves `us`. -/
def Takes {α : Type} (read : State → Except Failure (α × State)) (ts : List Token) (a : α)
    (us : List Token) : Prop :=
  ∀ s, s.tokens = ts → Yields (read s) fun r => r.1 = a ∧ r.2.tokens = us

/-- Searching with `read` finds one thing after another in the tokens `ts` and leaves `us`. -/
inductive Finds {α : Type} (read : State → Except Failure (Option (α × State))) :
    List Token → List α → List Token → Prop where
  | none {ts} (ends : ∀ s, s.tokens = ts → read s = .ok none) : Finds read ts [] ts
  | some {ts a us as vs}
      (first : ∀ s, s.tokens = ts →
        Yields (read s) fun r => ∃ s', r = some (a, s') ∧ s'.tokens = us)
      (others : Finds read us as vs) :
      Finds read ts (a :: as) vs

theorem Finds.collect {α : Type} {read : State → Except Failure (Option (α × State))}
    {advances : AdvancesIfSome read} {ts us : List Token} {as : List α}
    (finds : Finds read ts as us) :
  Takes (collect read advances) ts as us
  := by
  induction finds with
  | none ends =>
    intro s tokens
    rw [collect_eq]
    exact .after (ends s tokens) (.ok ⟨rfl, tokens⟩)
  | some first _ ih =>
    intro s tokens
    rw [collect_eq]
    apply (first s tokens).bind
    rintro _ ⟨s', rfl, rest⟩
    apply (ih s' rest).bind
    rintro ⟨_, s''⟩ ⟨rfl, rest'⟩
    exact .ok ⟨rfl, rest'⟩

namespace Level

/-- A level makes the nodes `ns` of the tokens `ts`, which the phrase `p` starts with, and leaves
`us`. -/
def Reads (L : Level) : Phrase → List Token → List Node → List Token → Prop
  | .group g, ts, ns, us => ∃ m, ns = [m] ∧ Takes (L.group g) ts m us
  | .call caller, ts, ns, us => ∃ m, ns = [m] ∧ Takes (L.call caller) ts m us
  | .segment first, ts, ns, us =>
    ∃ m, ns = [m] ∧ ∀ s, s.tokens = ts →
      Yields (L.segment first s) fun r => ∃ s', r = some (m, s') ∧ s'.tokens = us
  | .segments true, ts, ns, us => Takes L.segments ts ns us
  | .segments false, ts, ns, us => Finds (L.segment false) ts ns us
  | .target, ts, ns, us => ∃ m, ns = [m] ∧ Takes L.target ts m us
  | .atom selector, ts, ns, us => ∃ m, ns = [m] ∧ Takes (L.atom selector) ts m us
  | .atoms loop, ts, ns, us => Finds (L.loopAtom loop) ts ns us
  | .head, ts, ns, us => Takes L.head ts ns us
  | .statement scope, ts, ns, us => Takes (L.statement scope) ts ns us
  | .sequence around, ts, ns, us => Takes (L.sequence around) ts ns us

namespace Reads

variable {L : Level} {ts us vs : List Token} {t : Token} {m m' : Node}

/-! ### Calls and names -/

theorem callNone (absent : L.ending.atMark '(' ts = .ok false) :
  Takes (L.call m) ts m ts
  := by
  intro s tokens
  refine .after (tokens ▸ absent) ?_
  exact .ok ⟨rfl, tokens⟩

theorem callArguments {a : Node} (opens : Group.arguments.Opens ts)
    (arguments : Takes (L.group .arguments) ts a us) :
  Takes (L.call m) ts (.spanning .functionCall [m, a] m.start) us
  := by
  intro s tokens
  have look : L.ending.atMark '(' ts = .ok true := opens.atMark rfl L.ending
  refine .after (tokens ▸ look) ?_
  apply (arguments s tokens).bind
  rintro ⟨_, s₁⟩ ⟨rfl, rest⟩
  exact .ok ⟨rfl, rest⟩

theorem next (t : Token) (ts : List Token) :
  Takes L.next (t :: ts) t ts
  := by
  intro s tokens
  rw [Level.next, tokens]
  exact .ok ⟨rfl, rfl⟩

theorem segmentsEnd {first : Bool} (ends : L.ending.NameEnds first ts) (s : State)
    (tokens : s.tokens = ts) :
  L.segment first s = .ok none
  := by
  rw [Level.segment, tokens, ends.1]
  cases ts with
  | nil => rfl
  | cons t ts =>
    have stops : Level.continuesName first t = false := ends.2 t rfl
    change (if Level.continuesName first t = true then _ else _) = _
    rw [stops]
    rfl

theorem segmentToken {first : Bool} (ts : List Token)
    (continues : Level.continuesName first t = true) (s : State)
    (tokens : s.tokens = t :: ts) :
  Yields (L.segment first s) fun r => ∃ s', r = some (.leaf t, s') ∧ s'.tokens = ts
  := by
  have look : L.ending.atInterpolation (t :: ts) = .ok false := by
    rw [Ending.atInterpolation, if_neg (by simp [mark?_of_continuesName continues])]
    rfl
  refine .after (tokens ▸ look) ?_
  rw [if_neg Bool.false_ne_true, tokens]
  dsimp only
  rw [if_pos continues]
  exact .ok ⟨_, rfl, rfl⟩

theorem segmentInterpolation (first : Bool) (opens : Group.interpolation.Opens ts)
    (interpolation : Takes (L.group .interpolation) ts m us) (s : State) (tokens : s.tokens = ts) :
  Yields (L.segment first s) fun r => ∃ s', r = some (m, s') ∧ s'.tokens = us
  := by
  refine .after (tokens ▸ opens.atInterpolation L.ending) ?_
  apply (interpolation s tokens).bind
  rintro ⟨_, s₁⟩ ⟨rfl, rest⟩
  exact .ok ⟨s₁, rfl, rest⟩

theorem segmentsNone (ends : ∀ s, s.tokens = ts → L.segment true s = .ok none) :
  Takes L.segments ts [] ts
  := by
  intro s tokens
  exact .after (ends s tokens) (.ok ⟨rfl, tokens⟩)

theorem segmentsSome {ns : List Node}
    (first : ∀ s, s.tokens = ts →
      Yields (L.segment true s) fun r => ∃ s', r = some (m, s') ∧ s'.tokens = us)
    (others : Finds (L.segment false) us ns vs) :
  Takes L.segments ts (m :: ns) vs
  := by
  intro s tokens
  apply (first s tokens).bind
  rintro _ ⟨s₁, rfl, rest⟩
  apply (others.collect s₁ rest).bind
  rintro ⟨_, s₂⟩ ⟨rfl, rest'⟩
  exact .ok ⟨rfl, rest'⟩

theorem targetName (name : t.kind = .identifier) :
  Takes L.target (t :: ts) (.leaf t) ts
  := by
  intro s tokens
  have look : L.ending.atInterpolation (t :: ts) = .ok false := by
    rw [Ending.atInterpolation, if_neg (by simp [t.mark?_of_identifier name])]
    rfl
  refine .after (tokens ▸ look) ?_
  apply (next t ts s tokens).bind
  rintro ⟨_, s₁⟩ ⟨rfl, rest⟩
  exact .ok ⟨rfl, rest⟩

theorem targetInterpolation (opens : Group.interpolation.Opens ts)
    (interpolation : Takes (L.group .interpolation) ts m us) :
  Takes L.target ts m us
  := by
  intro s tokens
  refine .after (tokens ▸ opens.atInterpolation L.ending) ?_
  exact interpolation s tokens

/-! ### Atoms -/

theorem singleToken (noName : t.kind ≠ .identifier) :
  Takes L.single (t :: ts) (.leaf t) ts
  := by
  intro s tokens
  apply (next t ts s tokens).bind
  rintro ⟨_, s₁⟩ ⟨rfl, rest⟩
  dsimp only
  rw [if_neg noName]
  exact .ok ⟨rfl, rest⟩

theorem singleName (name : t.kind = .identifier) (call : Takes (L.call (.leaf t)) ts m us) :
  Takes L.single (t :: ts) m us
  := by
  intro s tokens
  apply (next t ts s tokens).bind
  rintro ⟨_, s₁⟩ ⟨rfl, rest⟩
  dsimp only
  rw [if_pos name]
  exact call s₁ rest

theorem atomToken {selector : Bool} (noName : t.kind ≠ .identifier)
    (lone : L.ending.Lone selector t ts) :
  Takes (L.atom selector) (t :: ts) (.leaf t) ts
  := by
  intro s tokens
  have single := singleToken (L := L) noName s tokens
  unfold Ending.Lone at lone
  split at lone
  case h_1 mark =>
    rw [Level.atom, tokens]
    simp only [mark]
    exact .after lone.1 (.after lone.2 single)
  case h_2 mark =>
    rw [Level.atom, tokens]
    simp only [mark]
    exact .after lone single
  case h_3 => exact lone.elim
  case h_4 => exact lone.elim
  case h_5 => exact lone.elim
  case h_6 mark =>
    rw [Level.atom, tokens]
    simp only [mark]
    cases selector with
    | false => exact single
    | true =>
      obtain ⟨double, noName⟩ | ⟨double, noName⟩ := lone rfl
      · exact .after double (.after noName single)
      · exact .after double (.after noName single)
  case h_7 c _ _ _ _ _ _ mark =>
    rw [Level.atom, tokens]
    simp only [mark]
    split
    all_goals simp_all
  case h_8 mark =>
    rw [Level.atom, tokens]
    simp only [mark]
    exact single

theorem atomName {selector : Bool} (name : t.kind = .identifier)
    (call : Takes (L.call (.leaf t)) ts m us) :
  Takes (L.atom selector) (t :: ts) m us
  := by
  intro s tokens
  rw [Level.atom, tokens]
  dsimp only
  rw [t.mark?_of_identifier name]
  exact singleName name call s tokens

theorem atomGroup {selector : Bool} {g : Group}
    (kind : g = .parentheses ∨ g = .brackets ∨ g = .block)
    (opens : g.Opens ts) (group : Takes (L.group g) ts m us) :
  Takes (L.atom selector) ts m us
  := by
  intro s tokens
  have read : L.atom selector s = L.group g s := by
    obtain ⟨os, rest, rfl, marks⟩ := opens
    have one : g.kind.opening.toList.length = 1 := by
      obtain rfl | rfl | rfl := kind <;> rfl
    obtain ⟨o, rfl⟩ : ∃ o, os = [o] := by
      rw [← List.length_eq_one_iff, ← one]
      exact marks.length
    rw [Level.atom, tokens]
    dsimp only [List.singleton_append]
    obtain rfl | rfl | rfl := kind
    all_goals
      rw [marks.head rfl]
      rfl
  rw [read]
  exact group s tokens

theorem atomInterpolation {selector : Bool} (opens : Group.interpolation.Opens ts)
    (interpolation : Takes (L.group .interpolation) ts m us) (call : Takes (L.call m) us m' vs) :
  Takes (L.atom selector) ts m' vs
  := by
  intro s tokens
  obtain ⟨os, rest, rfl, marks⟩ := opens
  obtain ⟨t, os, rfl, hash, marks⟩ := List.map_eq_cons_iff.mp marks
  obtain ⟨u, os, rfl, bracket, marks⟩ := List.map_eq_cons_iff.mp marks
  rw [Level.atom, tokens]
  dsimp only [List.cons_append]
  rw [hash]
  have look : L.ending.atMark '{' (u :: (os ++ rest)) = .ok true := by
    rw [Ending.atMark, bracket]
    rfl
  refine .after look ?_
  apply (interpolation s tokens).bind
  rintro ⟨_, s₁⟩ ⟨rfl, rest'⟩
  exact call s₁ rest'

theorem compound (kind : Kind) {ns : List Node} (segments : Takes L.segments ts ns us) :
  Takes (L.compound kind) (t :: ts)
    (.branch kind ns t.start ((ns.getLast?.map Node.stop).getD t.stop)) us
  := by
  intro s tokens
  apply (next t ts s tokens).bind
  rintro ⟨_, s₁⟩ ⟨rfl, rest⟩
  apply (segments s₁ rest).bind
  rintro ⟨_, s₂⟩ ⟨rfl, rest'⟩
  exact .ok ⟨rfl, rest'⟩

theorem atomCompound {selector : Bool} {kind : Kind} {ns : List Node}
    (which : kind = .className ∨ kind = .idName) (sigil : Marks [t] kind.opening)
    (noGroup : kind = .idName → L.ending.atMark '{' ts = .ok false)
    (named : L.ending.atName ts = .ok true) (segments : Takes L.segments ts ns us) :
  Takes (L.atom selector) (t :: ts)
    (.branch kind ns t.start ((ns.getLast?.map Node.stop).getD t.stop)) us
  := by
  intro s tokens
  have compound := compound kind segments s tokens
  rw [Level.atom, tokens]
  dsimp only
  obtain rfl | rfl := which
  · rw [sigil.head rfl]
    exact .after named compound
  · rw [sigil.head rfl]
    exact .after (noGroup rfl) (.after named compound)

theorem colons {kind : Kind} (which : kind = .pseudoClass ∨ kind = .pseudoElement) {c : Token}
    {cs : List Token} (marks : Marks (c :: cs) kind.opening) :
  Takes (L.colons kind) (c :: cs ++ ts) c ts
  := by
  intro s tokens
  apply (next c (cs ++ ts) s tokens).bind
  rintro ⟨_, s₁⟩ ⟨rfl, rest⟩
  dsimp only at rest ⊢
  have count := marks.length
  obtain rfl | rfl := which
  · obtain rfl := List.eq_nil_of_length_eq_zero (Nat.succ.inj count)
    exact .ok ⟨rfl, rest⟩
  · obtain ⟨d, rfl⟩ := List.length_eq_one_iff.mp (Nat.succ.inj count)
    apply (next d ts s₁ rest).bind
    rintro ⟨_, s₂⟩ ⟨rfl, rest'⟩
    exact .ok ⟨rfl, rest'⟩

theorem pseudo {kind : Kind} (which : kind = .pseudoClass ∨ kind = .pseudoElement) {c : Token}
    {cs : List Token} (marks : Marks (c :: cs) kind.opening) (target : Takes L.target ts m us)
    (call : Takes (L.call m) us m' vs) :
  Takes (L.pseudo kind) (c :: cs ++ ts) (.branch kind [m'] c.start m'.stop) vs
  := by
  intro s tokens
  apply (colons which marks s tokens).bind
  rintro ⟨_, s₁⟩ ⟨rfl, rest₁⟩
  apply (target s₁ rest₁).bind
  rintro ⟨_, s₂⟩ ⟨rfl, rest₂⟩
  apply (call s₂ rest₂).bind
  rintro ⟨_, s₃⟩ ⟨rfl, rest₃⟩
  exact .ok ⟨rfl, rest₃⟩

/-- A name starts with an identifier or with a `#`. -/
theorem noColon (named : L.ending.atName ts = .ok true) :
  L.ending.atMark ':' ts = .ok false
  := by
  obtain ⟨t, ts, rfl, name⟩ | look := Ending.exists_of_atName named
  · rw [Ending.atMark, t.mark?_of_identifier name]
    rfl
  · obtain ⟨t, u, us, rfl, hash, _⟩ := Ending.exists_of_atInterpolation look
    rw [Ending.atMark, hash]
    rfl

theorem atomPseudo {kind : Kind} (which : kind = .pseudoClass ∨ kind = .pseudoElement) {c : Token}
    {cs : List Token} (marks : Marks (c :: cs) kind.opening) (named : L.ending.atName ts = .ok true)
    (target : Takes L.target ts m us) (call : Takes (L.call m) us m' vs) :
  Takes (L.atom true) (c :: cs ++ ts) (.branch kind [m'] c.start m'.stop) vs
  := by
  intro s tokens
  have pseudo := pseudo which marks target call s tokens
  have mark : c.mark? = some ':' := by
    obtain rfl | rfl := which <;> exact marks.head rfl
  rw [Level.atom, tokens]
  dsimp only [List.cons_append]
  rw [mark]
  obtain rfl | rfl := which
  · obtain rfl : cs = [] := List.map_eq_nil_iff.mp (List.cons.inj marks).2
    exact .after (noColon named) (.after named pseudo)
  · obtain ⟨d, rfl, mark'⟩ := List.map_eq_singleton_iff.mp (List.cons.inj marks).2
    have double : L.ending.atMark ':' (d :: ts) = .ok true := by
      rw [Ending.atMark, mark']
      rfl
    exact .after double (.after named pseudo)

/-! ### Loops -/

theorem atomsStop {loop : Loop} (stops : loop.stops t = true) (s : State)
    (tokens : s.tokens = t :: ts) :
  L.loopAtom loop s = .ok none
  := by
  rw [L.loopAtom_cons loop tokens, if_pos stops]

theorem atomsEnd {loop : Loop} (mayEnd : loop.stopsAtEnd = true) (reached : L.ending.reach = .ok ())
    (s : State) (tokens : s.tokens = []) :
  L.loopAtom loop s = .ok none
  := by
  obtain ⟨_, ends⟩ | ⟨mayNot, _⟩ := L.loopAtom_nil loop tokens
  · rw [ends, reached]
    rfl
  · rw [mayNot] at mayEnd
    cases mayEnd

theorem atomsGoesOn {loop : Loop} (goesOn : loop.stops t = false)
    (first : Takes (L.atom loop.inSelector) (t :: ts) m us) (s : State)
    (tokens : s.tokens = t :: ts) :
  Yields (L.loopAtom loop s) fun r => ∃ s', r = some (m, s') ∧ s'.tokens = us
  := by
  rw [L.loopAtom_cons loop tokens, goesOn]
  apply (first s tokens).bind
  rintro ⟨_, s₁⟩ ⟨rfl, rest⟩
  exact .ok ⟨s₁, rfl, rest⟩

/-! ### Statements -/

theorem terminatorMark {c : Char} (mark : t.mark? = some c) :
  Takes (L.terminator c) (t :: ts) [.leaf t] ts
  := by
  intro s tokens
  have look : L.ending.atMark c (t :: ts) = .ok true := by
    rw [Ending.atMark, mark]
    exact congrArg _ (decide_eq_true rfl)
  refine .after (tokens ▸ look) ?_
  apply (next t ts s tokens).bind
  rintro ⟨_, s₁⟩ ⟨rfl, rest⟩
  exact .ok ⟨rfl, rest⟩

theorem terminatorNone {c : Char} (absent : L.ending.atMark c ts = .ok false) :
  Takes (L.terminator c) ts [] ts
  := by
  intro s tokens
  refine .after (tokens ▸ absent) ?_
  exact .ok ⟨rfl, tokens⟩

theorem terminator {c : Char} {fs : List Node} (terminator : Terminator L.ending [c] ts fs us) :
  Takes (L.terminator c) ts fs us
  := by
  cases terminator with
  | mark mem mark =>
    rw [List.mem_singleton] at mem
    exact terminatorMark (mem ▸ mark)
  | none absent => exact terminatorNone (absent c List.mem_cons_self)

theorem leaves (blanks : List Token) :
  Takes (L.leaves blanks.length) (blanks ++ ts) (blanks.map .leaf) ts
  := by
  induction blanks with
  | nil =>
    intro s tokens
    exact .ok ⟨rfl, tokens⟩
  | cons b blanks ih =>
    intro s tokens
    apply (next b (blanks ++ ts) s tokens).bind
    rintro ⟨_, s₁⟩ ⟨rfl, rest⟩
    apply (ih s₁ rest).bind
    rintro ⟨_, s₂⟩ ⟨rfl, rest'⟩
    exact .ok ⟨rfl, rest'⟩

theorem headNone (absent : L.ending.atCall (ts.dropWhile (·.kind = .space)) = .ok false) :
  Takes L.head ts [] ts
  := by
  intro s tokens
  obtain ⟨_, _, _, _, rfl, head⟩ := L.head_eq s
  rw [head, tokens]
  exact .after absent (.ok ⟨rfl, tokens⟩)

theorem headCall {blanks : List Token} {a : Node} (blank : ∀ b ∈ blanks, b.kind = .space)
    (name : t.kind = .identifier) (opens : Group.arguments.Opens ts)
    (arguments : Takes (L.group .arguments) ts a us) :
  Takes L.head (blanks ++ t :: ts) (blanks.map .leaf ++ [.leaf t, a]) us
  := by
  intro s tokens
  have noSpace : (decide (t.kind = .space)) = false := by simp [name]
  have count : (blanks ++ t :: ts).takeWhile (·.kind = .space) = blanks := by
    rw [List.takeWhile_append_of_pos fun b mem => decide_eq_true (blank b mem),
      List.takeWhile_cons_of_neg (by simp [noSpace]), List.append_nil]
  have look : L.ending.atCall (t :: ts) = .ok true := by
    rw [Ending.atCall, if_pos name]
    exact opens.atMark rfl L.ending
  rw [Level.head, tokens, count, List.drop_left]
  refine .after look ?_
  have named : blanks ++ t :: ts = (blanks ++ [t]) ++ ts := by simp
  have length : blanks.length + 1 = (blanks ++ [t]).length := by simp
  rw [if_pos rfl, length]
  apply (leaves (blanks ++ [t]) s (tokens.trans named)).bind
  rintro ⟨_, s₁⟩ ⟨rfl, rest⟩
  apply (arguments s₁ rest).bind
  rintro ⟨_, s₂⟩ ⟨rfl, rest'⟩
  exact .ok ⟨by simp, rest'⟩

theorem statementToken {scope : Scope} (alone : standsAlone scope t = true) :
  Takes (L.statement scope) (t :: ts) [.leaf t] ts
  := by
  intro s tokens
  rw [Level.statement, tokens]
  dsimp only
  rw [if_pos alone]
  exact .ok ⟨rfl, rfl⟩

/-- No keyword of an at-rule is a statement by itself. -/
theorem notAlone {scope : Scope} (keyword : t.kind = .atKeyword) :
  standsAlone scope t = false
  := by
  simp [standsAlone, Token.mark?, keyword, Kind.isTrivia]

theorem atRule {scope : Scope} {hs ps fs : List Node} {ws : List Token}
    (keyword : t.kind = .atKeyword) (head : Takes L.head ts hs us)
    (prelude : Finds (L.runAtom scope true) us ps vs) (tail : Takes L.tail vs fs ws) :
  Takes (L.statement scope) (t :: ts)
    [.spanning .atRule (.leaf t :: (hs ++ ps ++ fs)) t.start] ws
  := by
  intro s tokens
  rw [Level.statement, tokens]
  dsimp only
  rw [if_neg (by simp [notAlone keyword]), if_pos keyword]
  apply Yields.bind (P := fun r =>
    r.1 = .spanning .atRule (.leaf t :: (hs ++ ps ++ fs)) t.start ∧ r.2.tokens = ws)
  · apply (next t ts s tokens).bind
    rintro ⟨_, s₁⟩ ⟨rfl, rest₁⟩
    apply (head s₁ rest₁).bind
    rintro ⟨_, s₂⟩ ⟨rfl, rest₂⟩
    apply (prelude.collect s₂ rest₂).bind
    rintro ⟨_, s₃⟩ ⟨rfl, rest₃⟩
    apply (tail s₃ rest₃).bind
    rintro ⟨_, s₄⟩ ⟨rfl, rest₄⟩
    exact .ok ⟨rfl, rest₄⟩
  · rintro ⟨_, s₅⟩ ⟨rfl, rest₅⟩
    exact .ok ⟨rfl, rest₅⟩

theorem tailBlock {b : Node} (opens : Group.block.Opens ts)
    (block : Takes (L.group .block) ts b us) :
  Takes L.tail ts [b] us
  := by
  intro s tokens
  refine .after (tokens ▸ opens.atMark rfl L.ending : L.ending.atMark '{' s.tokens = .ok true) ?_
  apply (block s tokens).bind
  rintro ⟨_, s₁⟩ ⟨rfl, rest⟩
  exact .ok ⟨rfl, rest⟩

theorem tailNone {fs : List Node} (noBlock : L.ending.atMark '{' ts = .ok false)
    (final : Terminator L.ending [';'] ts fs us) :
  Takes L.tail ts fs us
  := by
  intro s tokens
  refine .after (tokens ▸ noBlock) ?_
  exact terminator final s tokens

/-- A statement whose first token settles nothing is read by its form. -/
theorem surveyed {scope : Scope} (form : Form) {ns : List Node} (plain : L.survey = Survey.plain)
    (start : Surveyed scope t) (survey : Statement.plainSurvey L.ending scope (t :: ts) = .ok form)
    (ofForm : Takes (L.ofForm scope form) (t :: ts) ns us) :
  Takes (L.statement scope) (t :: ts) ns us
  := by
  intro s tokens
  have answer : L.survey L.ending scope s.taken s.memory s.tokens = .ok (form, s.memory) := by
    rw [plain, Survey.plain, tokens, survey]
    rfl
  rw [Level.statement, tokens]
  dsimp only
  rw [if_neg (by simp [start.1]), if_neg start.2]
  exact .after answer (ofForm s tokens)

theorem alone {read : State → Except Failure (Node × State)} (takes : Takes read ts m us) :
  Takes (Level.alone read) ts [m] us
  := by
  intro s tokens
  apply (takes s tokens).bind
  rintro ⟨_, s₁⟩ ⟨rfl, rest⟩
  exact .ok ⟨rfl, rest⟩

theorem rule {ms : List Node} {b : Node} (selector : Finds L.selectorAtom (t :: ts) ms us)
    (block : Takes (L.group .block) us b vs) :
  Takes L.rule (t :: ts) (.spanning .rule [.spanning .selector ms t.start, b] t.start) vs
  := by
  intro s tokens
  have start : here s = t.start := by rw [here, tokens]; rfl
  rw [Level.rule, start]
  apply (selector.collect s tokens).bind
  rintro ⟨_, s₁⟩ ⟨rfl, rest₁⟩
  apply (block s₁ rest₁).bind
  rintro ⟨_, s₂⟩ ⟨rfl, rest₂⟩
  exact .ok ⟨rfl, rest₂⟩

theorem conclusionBlock (scope : Scope) {b : Node} {fs : List Node} (opens : Group.block.Opens ts)
    (block : Takes (L.group .block) ts b us) (final : Terminator L.ending [';'] us fs vs) :
  Takes (L.conclusion scope) ts ([b], fs) vs
  := by
  intro s tokens
  refine .after (tokens ▸ opens.atMark rfl L.ending : L.ending.atMark '{' s.tokens = .ok true) ?_
  apply (block s tokens).bind
  rintro ⟨_, s₁⟩ ⟨rfl, rest₁⟩
  apply (terminator final s₁ rest₁).bind
  rintro ⟨_, s₂⟩ ⟨rfl, rest₂⟩
  exact .ok ⟨rfl, rest₂⟩

theorem conclusionNone {scope : Scope} {fs : List Node}
    (noBlock : L.ending.atMark '{' ts = .ok false)
    (final : Terminator L.ending scope.terminators ts fs us) :
  Takes (L.conclusion scope) ts ([], fs) us
  := by
  intro s tokens
  have closing {c : Char} (takes : Takes (L.terminator c) ts fs us) :
      Yields (L.terminator c s >>= fun r => .ok (([], r.1), r.2))
        fun r : (List Node × List Node) × State => r.1 = ([], fs) ∧ r.2.tokens = us := by
    apply (takes s tokens).bind
    rintro ⟨_, s₁⟩ ⟨rfl, rest⟩
    exact .ok ⟨rfl, rest⟩
  refine .after (tokens ▸ noBlock) ?_
  cases final with
  | @mark t ts c mem mark =>
    by_cases semicolon : c = ';'
    · subst semicolon
      have look : L.ending.atMark ';' (t :: us) = .ok true := congrArg _ (decide_eq_true mark)
      refine .after (tokens ▸ look) ?_
      exact closing (terminatorMark mark)
    · have look : L.ending.atMark ';' (t :: us) = .ok false :=
        congrArg _ (decide_eq_false (by simpa [mark] using semicolon))
      refine .after (tokens ▸ look) ?_
      cases scope with
      | statements => exact absurd (List.mem_singleton.mp mem) semicolon
      | entries =>
        obtain rfl : c = ',' := by simpa [Scope.terminators, semicolon] using mem
        exact closing (terminatorMark mark)
  | none absent =>
    have look := absent ';' (by cases scope <;> simp [Scope.terminators])
    refine .after (tokens ▸ look) ?_
    cases scope with
    | statements => exact .ok ⟨rfl, tokens⟩
    | entries => exact closing (terminatorNone (absent ',' (by simp [Scope.terminators])))

theorem declaration {scope : Scope} {ps ms bs fs : List Node} {c : Token} {ws : List Token}
    (property : Finds L.propertyAtom (t :: ts) ps (c :: us))
    (value : Finds (L.runAtom scope false) us ms vs)
    (conclusion : Takes (L.conclusion scope) vs (bs, fs) ws) :
  Takes (L.declaration scope) (t :: ts)
    (.spanning .declaration ([.spanning .property ps t.start, .leaf c,
      .spanning .value (ms ++ bs) c.stop] ++ fs) t.start) ws
  := by
  intro s tokens
  have start : here s = t.start := by rw [here, tokens]; rfl
  rw [Level.declaration, start]
  apply (property.collect s tokens).bind
  rintro ⟨_, s₁⟩ ⟨rfl, rest₁⟩
  apply (next c us s₁ rest₁).bind
  rintro ⟨_, s₂⟩ ⟨rfl, rest₂⟩
  apply (value.collect s₂ rest₂).bind
  rintro ⟨_, s₃⟩ ⟨rfl, rest₃⟩
  apply (conclusion s₃ rest₃).bind
  rintro ⟨⟨_, _⟩, s₄⟩ ⟨pair, rest₄⟩
  cases pair
  exact .ok ⟨rfl, rest₄⟩

theorem looseBlock {scope : Scope} (first : Takes (L.atom false) ts m us)
    (block : m.kind = .block) :
  Takes (L.loose scope) ts [m] us
  := by
  intro s tokens
  apply (first s tokens).bind
  rintro ⟨_, s₁⟩ ⟨rfl, rest⟩
  dsimp only at block ⊢
  rw [if_pos block]
  exact .ok ⟨rfl, rest⟩

theorem loose {scope : Scope} {ms : List Node} (first : Takes (L.atom false) ts m us)
    (noBlock : m.kind ≠ .block) (others : Finds (L.runAtom scope false) us ms vs) :
  Takes (L.loose scope) ts (m :: ms) vs
  := by
  intro s tokens
  apply (first s tokens).bind
  rintro ⟨_, s₁⟩ ⟨rfl, rest⟩
  dsimp only at noBlock ⊢
  rw [if_neg noBlock]
  apply (others.collect s₁ rest).bind
  rintro ⟨_, s₂⟩ ⟨rfl, rest'⟩
  exact .ok ⟨rfl, rest'⟩

/-! ### Sequences and groups -/

theorem sequenceEnd (reached : L.ending.reach = .ok ()) :
  Takes (L.sequence .top) [] [] []
  := by
  intro s tokens
  have ends : L.sequenceStatement .top s = .ok none := by
    rw [Level.sequenceStatement, tokens]
    dsimp only
    rw [reached]
    rfl
  rw [sequence_eq, ends]
  exact .ok ⟨rfl, tokens⟩

theorem sequenceCloser {around : Surroundings} {c : Char} (closer : around.closer? = some c)
    (mark : t.mark? = some c) :
  Takes (L.sequence around) (t :: ts) [] (t :: ts)
  := by
  intro s tokens
  have ends : L.sequenceStatement around s = .ok none := by
    rw [Level.sequenceStatement, tokens]
    dsimp only
    rw [mark]
    dsimp only
    rw [if_pos closer]
  rw [sequence_eq, ends]
  exact .ok ⟨rfl, tokens⟩

/-- Where no group is closed the next statement of a sequence is looked for. -/
theorem sequenceStatement_goesOn {around : Surroundings}
    (goesOn : t.mark?.all (! isCloser ·) = true) {s : State} (tokens : s.tokens = t :: ts) :
  L.sequenceStatement around s = found (L.statement around.scope) s
  := by
  rw [Level.sequenceStatement, tokens]
  dsimp only
  cases mark : t.mark? with
  | none => rfl
  | some c =>
    have other : isCloser c = false := by simpa [mark] using goesOn
    have noCloser : around.closer? ≠ some c := by
      intro closer
      cases around with
      | top => cases closer
      | inside g =>
        cases closer
        cases g <;> cases other
    simp only [noCloser, other, if_false, Bool.false_eq_true]

theorem sequenceCons {around : Surroundings} {ms ns : List Node}
    (goesOn : t.mark?.all (! isCloser ·) = true)
    (first : Takes (L.statement around.scope) (t :: ts) ms us)
    (others : Takes (L.sequence around) us ns vs) :
  Takes (L.sequence around) (t :: ts) (ms ++ ns) vs
  := by
  intro s tokens
  rw [sequence_eq, sequenceStatement_goesOn goesOn tokens]
  have found : Yields (found (L.statement around.scope) s) fun r =>
      ∃ s', r = some (ms, s') ∧ s'.tokens = us := by
    apply (first s tokens).bind
    rintro ⟨_, s₁⟩ ⟨rfl, rest⟩
    exact .ok ⟨s₁, rfl, rest⟩
  apply found.bind
  rintro _ ⟨s₁, rfl, rest⟩
  apply (others s₁ rest).bind
  rintro ⟨_, s₂⟩ ⟨rfl, rest'⟩
  exact .ok ⟨rfl, rest'⟩

theorem opened {g : Group} {os : List Token} (count : os.length + 1 = g.openerLength) :
  Takes (L.opened g) (os ++ ts) () ts
  := by
  intro s tokens
  unfold Level.opened
  split
  · obtain ⟨o, rfl⟩ := List.length_eq_one_iff.mp (Nat.succ.inj count)
    apply (next o ts s tokens).bind
    rintro ⟨_, s₁⟩ ⟨rfl, rest⟩
    exact .ok ⟨rfl, rest⟩
  · next other =>
    have one : g.openerLength = 1 := by
      cases g <;> first | rfl | exact absurd rfl other
    obtain rfl := List.eq_nil_of_length_eq_zero (Nat.succ.inj (count.trans one))
    exact .ok ⟨rfl, tokens⟩

theorem enclosed {g : Group} {o c : Token} {os : List Token} {ns : List Node}
    (opening : Marks (o :: os) g.kind.opening)
    (inside : Takes (L.sequence (.inside g o.start)) ts ns (c :: us)) :
  Takes (L.enclosed g) (o :: os ++ ts) (.branch g.kind ns o.start c.stop) us
  := by
  intro s tokens
  apply (next o (os ++ ts) s tokens).bind
  rintro ⟨_, s₁⟩ ⟨rfl, rest₁⟩
  apply (opened (opening.length.trans g.length_opening_kind) s₁ rest₁).bind
  rintro ⟨_, s₂⟩ ⟨_, rest₂⟩
  apply (inside s₂ rest₂).bind
  rintro ⟨_, s₃⟩ ⟨rfl, rest₃⟩
  apply (next c us s₃ rest₃).bind
  rintro ⟨_, s₄⟩ ⟨rfl, rest₄⟩
  exact .ok ⟨rfl, rest₄⟩

end Reads

end Level

/-! ### Derivations -/

/-- What the rules derive is read. -/
theorem Derives.reads {e : Ending} {n : Nat} {p : Phrase} {ts us : List Token} {ns : List Node}
    (derives : Derives e n p ts ns us) :
  (levels e Survey.plain n).Reads p ts ns us
  := by
  induction derives with
  | group opening _ _ ih => exact ⟨_, rfl, Level.Reads.enclosed opening ih⟩
  | callNone absent => exact ⟨_, rfl, Level.Reads.callNone (by simpa using absent)⟩
  | callArguments arguments ih =>
    obtain ⟨_, ⟨⟩, ih⟩ := ih
    exact ⟨_, rfl, Level.Reads.callArguments arguments.opens ih⟩
  | @segmentsEnd n first ts ends =>
    have none := Level.Reads.segmentsEnd (L := levels e Survey.plain n) (by simpa using ends)
    cases first with
    | true => exact Level.Reads.segmentsNone none
    | false => exact .none none
  | segmentToken continues => exact ⟨_, rfl, Level.Reads.segmentToken _ continues⟩
  | segmentInterpolation interpolation ih =>
    obtain ⟨_, ⟨⟩, ih⟩ := ih
    exact ⟨_, rfl, Level.Reads.segmentInterpolation _ interpolation.opens ih⟩
  | @segmentsCons n first m ts us ns vs _ _ ih ih' =>
    obtain ⟨_, ⟨⟩, some⟩ := ih
    cases first with
    | true => exact Level.Reads.segmentsSome some ih'
    | false => exact .some some ih'
  | targetName name => exact ⟨_, rfl, Level.Reads.targetName name⟩
  | targetInterpolation interpolation ih =>
    obtain ⟨_, ⟨⟩, ih⟩ := ih
    exact ⟨_, rfl, Level.Reads.targetInterpolation interpolation.opens ih⟩
  | atomToken noName lone =>
    exact ⟨_, rfl, Level.Reads.atomToken noName (by simpa using lone)⟩
  | atomName name _ ih =>
    obtain ⟨_, ⟨⟩, ih⟩ := ih
    exact ⟨_, rfl, Level.Reads.atomName name ih⟩
  | atomGroup kind group ih =>
    obtain ⟨_, ⟨⟩, ih⟩ := ih
    exact ⟨_, rfl, Level.Reads.atomGroup kind group.opens ih⟩
  | atomInterpolation interpolation _ ih ih' =>
    obtain ⟨_, ⟨⟩, ih⟩ := ih
    obtain ⟨_, ⟨⟩, ih'⟩ := ih'
    exact ⟨_, rfl, Level.Reads.atomInterpolation interpolation.opens ih ih'⟩
  | atomCompound which sigil noGroup named _ ih =>
    exact ⟨_, rfl, Level.Reads.atomCompound which sigil (by simpa using noGroup)
      (by simpa using named) ih⟩
  | atomPseudo which colons named _ _ ih ih' =>
    obtain ⟨_, ⟨⟩, ih⟩ := ih
    obtain ⟨_, ⟨⟩, ih'⟩ := ih'
    exact ⟨_, rfl, Level.Reads.atomPseudo which colons (by simpa using named) ih ih'⟩
  | atomsStop stops => exact .none (Level.Reads.atomsStop stops)
  | atomsEnd mayEnd reached => exact .none (Level.Reads.atomsEnd mayEnd (by simpa using reached))
  | atomsCons goesOn _ _ ih ih' =>
    obtain ⟨_, ⟨⟩, ih⟩ := ih
    exact .some (Level.Reads.atomsGoesOn goesOn ih) ih'
  | headNone absent => exact Level.Reads.headNone (by simpa using absent)
  | headCall blank name arguments ih =>
    obtain ⟨_, ⟨⟩, ih⟩ := ih
    exact Level.Reads.headCall blank name arguments.opens ih
  | statementToken alone => exact Level.Reads.statementToken alone
  | atRuleBlock keyword _ _ block ih ih' ih'' =>
    obtain ⟨_, ⟨⟩, ih''⟩ := ih''
    exact Level.Reads.atRule keyword ih ih' (Level.Reads.tailBlock block.opens ih'')
  | @atRule n scope k ts hs us ps vs fs ws keyword _ _ noBlock final ih ih' =>
    have tail := Level.Reads.tailNone (L := levels e Survey.plain n) (by simpa using noBlock)
      (by simpa using final)
    exact Level.Reads.atRule keyword ih ih' tail
  | rule start survey _ _ ih ih' =>
    obtain ⟨_, ⟨⟩, ih'⟩ := ih'
    exact Level.Reads.surveyed .rule (levels_survey e _ _) start (by simpa using survey)
      (Level.Reads.alone (Level.Reads.rule ih ih'))
  | @declarationBlock n scope t ts ps c us ms vs b ws fs xs start survey _ _ block final ih ih'
      ih'' =>
    obtain ⟨_, ⟨⟩, ih''⟩ := ih''
    have conclusion := Level.Reads.conclusionBlock scope block.opens ih'' (by simpa using final)
    exact Level.Reads.surveyed .declaration (levels_survey e _ _) start (by simpa using survey)
      (Level.Reads.alone (Level.Reads.declaration ih ih' conclusion))
  | @declaration n scope t ts ps c us ms vs fs ws start survey _ _ noBlock final ih ih' =>
    have conclusion := Level.Reads.conclusionNone (L := levels e Survey.plain n)
      (by simpa using noBlock) (by simpa using final)
    have declaration := Level.Reads.declaration ih ih' conclusion
    rw [List.append_nil] at declaration
    exact Level.Reads.surveyed .declaration (levels_survey e _ _) start (by simpa using survey)
      (Level.Reads.alone declaration)
  | looseBlock start survey _ block ih =>
    obtain ⟨_, ⟨⟩, ih⟩ := ih
    exact Level.Reads.surveyed .loose (levels_survey e _ _) start (by simpa using survey)
      (Level.Reads.looseBlock ih block)
  | loose start survey _ noBlock _ ih ih' =>
    obtain ⟨_, ⟨⟩, ih⟩ := ih
    exact Level.Reads.surveyed .loose (levels_survey e _ _) start (by simpa using survey)
      (Level.Reads.loose ih noBlock ih')
  | sequenceEnd reached => exact Level.Reads.sequenceEnd (by simpa using reached)
  | sequenceCloser closer mark => exact Level.Reads.sequenceCloser closer mark
  | sequenceCons goesOn _ _ ih ih' => exact Level.Reads.sequenceCons goesOn ih ih'

end LosslessScss
