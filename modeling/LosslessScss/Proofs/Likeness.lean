import LosslessScss.Stylesheet
import Mathlib.Data.List.Forall2

/-!
# Two runs of the parser

A `Likeness` says when two tokens, places, nodes, failures and states of two runs of the
parser are alike.  What the parser does with a token depends on its kind, its mark and
whether it continues a name only, so that tokens, nodes and failures that are alike come out
of states that are alike: `Level.Alike.sequence` says so of the sequences of two levels, and
`Likeness.levels` of levels of the same depth.

The first of two runs may also end with a failure that escapes the comparison, after which
nothing is said of the second one.
-/

namespace LosslessScss

/-- What is alike in two runs of the parser. -/
structure Likeness where
  token : Token → Token → Prop
  place : Position → Position → Prop
  node : Node → Node → Prop
  failure : Failure → Failure → Prop
  state : State → State → Prop
  escapes : Failure → Prop
  kind_eq : ∀ {t u}, token t u → t.kind = u.kind
  mark_eq : ∀ {t u}, token t u → t.mark? = u.mark?
  continues_eq : ∀ {t u}, token t u →
    ∀ first, Level.continuesName first t = Level.continuesName first u
  start : ∀ {t u}, token t u → place t.start u.start
  stop : ∀ {t u}, token t u → place t.stop u.stop
  failureAt : ∀ {p q}, place p q → ∀ cause, failure ⟨cause, p⟩ ⟨cause, q⟩
  leaf : ∀ {t u}, token t u → node (.leaf t) (.leaf u)
  branch : ∀ {ms ns p q r s}, List.Forall₂ node ms ns → place p r → place q s →
    ∀ kind, node (.branch kind ms p q) (.branch kind ns r s)
  nodeKind_eq : ∀ {m n}, node m n → m.kind = n.kind
  nodeStart : ∀ {m n}, node m n → place m.start n.start
  nodeStop : ∀ {m n}, node m n → place m.stop n.stop
  tokens : ∀ {s s'}, state s s' → List.Forall₂ token s.tokens s'.tokens
  advance : ∀ {s s' t u ts us}, state s s' → s.tokens = t :: ts → s'.tokens = u :: us →
    state (s.advance ts) (s'.advance us)

namespace Likeness

variable {R : Likeness} {α β γ δ : Type}

/-! ### Outcomes -/

/-- Two outcomes are alike: two results that satisfy `Q`, or two failures that are alike; or
the first one is a failure that escapes. -/
inductive Agree (R : Likeness) (Q : α → β → Prop) :
    Except Failure α → Except Failure β → Prop where
  | ok {a b} (h : Q a b) : Agree R Q (.ok a) (.ok b)
  | error {f g} (h : R.failure f g) : Agree R Q (.error f) (.error g)
  | escape {f y} (h : R.escapes f) : Agree R Q (.error f) y

/-- Of two steps that follow each other the second ones are compared where the first ones
agree. -/
theorem Agree.bind {P : α → β → Prop} {Q : γ → δ → Prop} {x : Except Failure α}
    {y : Except Failure β} {f : α → Except Failure γ} {g : β → Except Failure δ}
    (first : R.Agree P x y) (second : ∀ a b, P a b → R.Agree Q (f a) (g b)) :
  R.Agree Q (x >>= f) (y >>= g)
  := by
  cases first with
  | ok h => exact second _ _ h
  | error h => exact .error h
  | escape h => exact .escape h

/-- Outcomes that agree on equal results, with equal failures only and none that escapes, are
equal. -/
theorem Agree.eq {x y : Except Failure α} (agree : R.Agree (· = ·) x y)
    (failures : ∀ f g, R.failure f g → f = g) (noEscape : ∀ f, ¬R.escapes f) :
  x = y
  := by
  cases agree with
  | ok h => rw [h]
  | error h => rw [failures _ _ h]
  | escape h => exact absurd h (noEscape _)

/-- An answer that both runs agree on decides them the same way. -/
theorem Agree.ite {P : α → β → Prop} {x y : Except Failure Bool} {yes no : Except Failure α}
    {yes' no' : Except Failure β} (asked : R.Agree (· = ·) x y) (agreeYes : R.Agree P yes yes')
    (agreeNo : R.Agree P no no') :
  R.Agree P (do if ← x then yes else no) (do if ← y then yes' else no')
  := by
  apply asked.bind
  rintro b _ rfl
  cases b with
  | true => exact agreeYes
  | false => exact agreeNo

/-- What is ensured of the first of two outcomes holds where they agree. -/
theorem Agree.ensuring {P : α → β → Prop} {Q : α → Prop} {x : Except Failure α}
    {y : Except Failure β} (agree : R.Agree P x y) (ensures : Ensures x Q) :
  R.Agree (fun a b => P a b ∧ Q a) x y
  := by
  cases agree with
  | ok h => exact .ok ⟨h, ensures.of_eq _ rfl⟩
  | error h => exact .error h
  | escape h => exact .escape h

/-- What two readings answer is related by `P`, and the states after them are alike. -/
def Answers (R : Likeness) (P : α → β → Prop) (r : α × State) (r' : β × State) : Prop :=
  P r.1 r'.1 ∧ R.state r.2 r'.2

/-- Two readings that may find nothing find nothing both, or answers related by `P`. -/
inductive Finds (R : Likeness) (P : α → β → Prop) :
    Option (α × State) → Option (β × State) → Prop where
  | nothing : Finds R P none none
  | something {r r'} (h : R.Answers P r r') : Finds R P (some r) (some r')

/-- Two ways of reading agree on states that are alike. -/
def Reads (R : Likeness) (P : α → β → Prop) (read : State → Except Failure (α × State))
    (read' : State → Except Failure (β × State)) : Prop :=
  ∀ s s', R.state s s' → R.Agree (R.Answers P) (read s) (read' s')

/-- Two ways of reading that may find nothing agree on states that are alike. -/
def Searches (R : Likeness) (P : α → β → Prop)
    (read : State → Except Failure (Option (α × State)))
    (read' : State → Except Failure (Option (β × State))) : Prop :=
  ∀ s s', R.state s s' → R.Agree (R.Finds P) (read s) (read' s')

theorem Reads.found {P : α → β → Prop} {read : State → Except Failure (α × State)}
    {read' : State → Except Failure (β × State)} (h : R.Reads P read read') :
  R.Searches P (found read) (LosslessScss.found read')
  := by
  intro s s' like
  apply (h s s' like).bind
  intro r r' answers
  exact .ok (.something answers)

/-- What is read one after another is alike, one by one. -/
theorem Searches.collect {P : α → β → Prop}
    {read : State → Except Failure (Option (α × State))}
    {read' : State → Except Failure (Option (β × State))}
    (advances : AdvancesIfSome read) (advances' : AdvancesIfSome read')
    (h : R.Searches P read read') :
  R.Reads (List.Forall₂ P) (collect read advances) (LosslessScss.collect read' advances')
  := by
  intro s
  induction size : s.remaining using Nat.strongRecOn generalizing s with
  | ind n ih =>
    intro s' like
    rw [collect_eq, collect_eq]
    apply ((h s s' like).ensuring (advances s)).bind
    rintro _ _ ⟨⟨⟩ | ⟨⟨first, like⟩⟩, lt⟩
    · exact .ok ⟨.nil, like⟩
    · have rest := ih _ (size ▸ lt _ _ rfl) _ rfl _ like
      apply rest.bind
      rintro _ _ ⟨others, like⟩
      exact .ok ⟨.cons first others, like⟩

/-! ### Looking ahead -/

/-- Two endings are alike: two places or two failures that are alike. -/
inductive Endings (R : Likeness) : Ending → Ending → Prop where
  | finished {p q} (h : R.place p q) : Endings R (.finished p) (.finished q)
  | broken {f g} (h : R.failure f g) : Endings R (.broken f) (.broken g)

section Lookahead

variable {e e' : Ending} {ts us : List Token}

theorem Endings.reach (h : R.Endings e e') :
  R.Agree (fun _ _ => True) e.reach e'.reach
  := by
  cases h with
  | finished => exact .ok trivial
  | broken h => exact .error h

theorem Endings.failure (h : R.Endings e e') :
  R.failure e.failure e'.failure
  := by
  cases h with
  | finished h => exact R.failureAt h _
  | broken h => exact h

theorem Endings.lacking (h : R.Endings e e') (wanted : String) :
  R.failure (e.lacking wanted) (e'.lacking wanted)
  := by
  cases h with
  | finished h => exact R.failureAt h _
  | broken h => exact h

/-- Past the last token both runs meet the ending, and answer the same if it lets them. -/
theorem Endings.past (h : R.Endings e e') (b : Bool) :
  R.Agree (· = ·) (do e.reach; return b) (do e'.reach; return b)
  := h.reach.bind fun _ _ _ => .ok rfl

theorem Endings.atMark (h : R.Endings e e') (alike : List.Forall₂ R.token ts us) (c : Char) :
  R.Agree (· = ·) (e.atMark c ts) (e'.atMark c us)
  := by
  cases alike with
  | nil => exact h.past false
  | cons first =>
    simp only [Ending.atMark, R.mark_eq first]
    exact .ok rfl

theorem Endings.atInterpolation (h : R.Endings e e') (alike : List.Forall₂ R.token ts us) :
  R.Agree (· = ·) (e.atInterpolation ts) (e'.atInterpolation us)
  := by
  cases alike with
  | nil => exact h.past false
  | cons first rest =>
    simp only [Ending.atInterpolation, R.mark_eq first]
    split
    · exact h.atMark rest '{'
    · exact .ok rfl

theorem Endings.atName (h : R.Endings e e') (alike : List.Forall₂ R.token ts us) :
  R.Agree (· = ·) (e.atName ts) (e'.atName us)
  := by
  cases alike with
  | nil => exact h.past false
  | cons first rest =>
    simp only [Ending.atName, R.kind_eq first]
    split
    · exact .ok rfl
    · exact h.atInterpolation (.cons first rest)

theorem Endings.atCall (h : R.Endings e e') (alike : List.Forall₂ R.token ts us) :
  R.Agree (· = ·) (e.atCall ts) (e'.atCall us)
  := by
  cases alike with
  | nil => exact h.past false
  | cons first rest =>
    simp only [Ending.atCall, R.kind_eq first]
    split
    · exact h.atMark rest '('
    · exact .ok rfl

end Lookahead

/-- The tokens of two states that are alike are used up in both, or start with tokens that are
alike. -/
theorem heads {s s' : State} (like : R.state s s') :
  (s.tokens = [] ∧ s'.tokens = []) ∨
    ∃ t ts u us, s.tokens = t :: ts ∧ s'.tokens = u :: us ∧ R.token t u ∧
      List.Forall₂ R.token ts us
  := by
  have alike := R.tokens like
  generalize s.tokens = ts, s'.tokens = us at alike
  cases alike with
  | nil => exact .inl ⟨rfl, rfl⟩
  | cons first rest => exact .inr ⟨_, _, _, _, rfl, rfl, first, rest⟩

theorem endsRun_eq {t u : Token} (alike : R.token t u) (scope : Scope) :
  Level.endsRun scope t = Level.endsRun scope u
  := by
  rw [Level.endsRun, Level.endsRun, R.mark_eq alike]

theorem standsAlone_eq {t u : Token} (alike : R.token t u) (scope : Scope) :
  Level.standsAlone scope t = Level.standsAlone scope u
  := by
  rw [Level.standsAlone, Level.standsAlone, R.kind_eq alike, R.mark_eq alike]

theorem here {s s' : State} {t u : Token} {ts us : List Token} (some : s.tokens = t :: ts)
    (some' : s'.tokens = u :: us) (first : R.token t u) :
  R.place (Level.here s) (Level.here s')
  := by
  simpa [Level.here, some, some'] using R.start first

theorem blanks_eq {ts us : List Token} (alike : List.Forall₂ R.token ts us) :
  (ts.takeWhile (·.kind = .space)).length = (us.takeWhile (·.kind = .space)).length
  := by
  induction alike with
  | nil => rfl
  | cons first _ ih =>
    simp only [List.takeWhile_cons, R.kind_eq first]
    split
    · simp [ih]
    · rfl

/-! ### Nodes -/

theorem getLast?_map_stop (n : Node) (ns : List Node) (p : Position) :
  ((n :: ns).getLast?.map Node.stop).getD p = (ns.getLast?.map Node.stop).getD n.stop
  := by
  rw [List.getLast?_cons]
  cases ns.getLast? <;> rfl

/-- The last ones of nodes that are alike end at places that are alike. -/
theorem lastStop {ms ns : List Node} {p q : Position} (alike : List.Forall₂ R.node ms ns)
    (place : R.place p q) :
  R.place ((ms.getLast?.map Node.stop).getD p) ((ns.getLast?.map Node.stop).getD q)
  := by
  induction alike generalizing p q with
  | nil => exact place
  | cons first _ ih =>
    rw [getLast?_map_stop, getLast?_map_stop]
    exact ih (R.nodeStop first)

/-- Nodes that span children which are alike, are alike. -/
theorem spanning {ms ns : List Node} {p q : Position} (alike : List.Forall₂ R.node ms ns)
    (place : R.place p q) (kind : Kind) :
  R.node (.spanning kind ms p) (.spanning kind ns q)
  := by
  apply R.branch alike
  · cases alike with
    | nil => exact place
    | cons first => exact R.nodeStart first
  · exact lastStop alike place

end Likeness

/-! ### Levels -/

/-- A group that opens at the given place, of which the first token has been taken. -/
def Level.content (L : Level) (g : Group) (opened : Position) (s : State) :
    Except Failure (Node × State) := do
  let (_, s) ← L.opened g s
  let (children, s) ← L.sequence (.inside g opened) s
  let (closer, s) ← L.next s
  return (.branch g.kind children opened closer.stop, s)

theorem Level.enclosed_eq (L : Level) (g : Group) (s : State) :
  L.enclosed g s = L.next s >>= fun r => L.content g r.1.start r.2
  := rfl

/-- Two levels are alike: the endings, the surveys of states that are alike, and the groups
read from such states are. -/
structure Level.Alike (R : Likeness) (L M : Level) : Prop where
  ending : R.Endings L.ending M.ending
  survey : ∀ scope s s', R.state s s' →
    R.Agree (fun r r' => r.1 = r'.1 ∧ R.state { s with memory := r.2 } { s' with memory := r'.2 })
      (L.survey L.ending scope s.taken s.memory s.tokens)
      (M.survey M.ending scope s'.taken s'.memory s'.tokens)
  group : ∀ g, R.Reads R.node (L.group g) (M.group g)

namespace Level.Alike

variable {R : Likeness} {L M : Level} (h : L.Alike R M)
include h

/-! ### Atoms -/

theorem next :
  R.Reads R.token L.next M.next
  := by
  intro s s' like
  obtain ⟨none, none'⟩ | ⟨t, ts, u, us, some, some', first, _⟩ := R.heads like
  · simp only [Level.next, none, none']
    exact .error h.ending.failure
  · simp only [Level.next, some, some']
    exact .ok ⟨first, R.advance like some some'⟩

theorem call {m n : Node} (caller : R.node m n) :
  R.Reads R.node (L.call m) (M.call n)
  := by
  intro s s' like
  apply (h.ending.atMark (R.tokens like) '(').ite
  · apply (h.group .arguments s s' like).bind
    rintro _ _ ⟨arguments, like⟩
    exact .ok ⟨R.spanning (.cons caller (.cons arguments .nil)) (R.nodeStart caller) _, like⟩
  · exact .ok ⟨caller, like⟩

theorem single :
  R.Reads R.node L.single M.single
  := by
  intro s s' like
  apply (h.next s s' like).bind
  rintro ⟨t, s⟩ ⟨u, s'⟩ ⟨first, like⟩
  dsimp only at first like ⊢
  rw [R.kind_eq first]
  split
  · exact h.call (R.leaf first) s s' like
  · exact .ok ⟨R.leaf first, like⟩

theorem segment (first : Bool) :
  R.Searches R.node (L.segment first) (M.segment first)
  := by
  intro s s' like
  apply (h.ending.atInterpolation (R.tokens like)).ite
  · exact (h.group .interpolation).found s s' like
  · obtain ⟨none, none'⟩ | ⟨t, ts, u, us, some, some', alike, _⟩ := R.heads like
    · rw [none, none']
      exact .ok .nothing
    · simp only [some, some', R.continues_eq alike]
      split
      · exact .ok (.something ⟨R.leaf alike, R.advance like some some'⟩)
      · exact .ok .nothing

theorem segments :
  R.Reads (List.Forall₂ R.node) L.segments M.segments
  := by
  intro s s' like
  apply (h.segment true s s' like).bind
  rintro _ _ (_ | ⟨first, like⟩)
  · exact .ok ⟨.nil, like⟩
  · apply ((h.segment false).collect _ _ _ _ like).bind
    rintro _ _ ⟨others, like⟩
    exact .ok ⟨.cons first others, like⟩

theorem compound (kind : Kind) :
  R.Reads R.node (L.compound kind) (M.compound kind)
  := by
  intro s s' like
  apply (h.next s s' like).bind
  rintro ⟨t, s⟩ ⟨u, s'⟩ ⟨sigil, like⟩
  apply (h.segments s s' like).bind
  rintro _ _ ⟨names, like⟩
  exact .ok ⟨R.branch names (R.start sigil) (R.lastStop names (R.stop sigil)) kind, like⟩

theorem target :
  R.Reads R.node L.target M.target
  := by
  intro s s' like
  apply (h.ending.atInterpolation (R.tokens like)).ite
  · exact h.group .interpolation s s' like
  · apply (h.next s s' like).bind
    rintro _ _ ⟨token, like⟩
    exact .ok ⟨R.leaf token, like⟩

theorem colons (kind : Kind) :
  R.Reads R.token (L.colons kind) (M.colons kind)
  := by
  intro s s' like
  apply (h.next s s' like).bind
  rintro ⟨t, s⟩ ⟨u, s'⟩ ⟨colon, like⟩
  dsimp only
  split
  · apply (h.next s s' like).bind
    rintro _ _ ⟨_, like⟩
    exact .ok ⟨colon, like⟩
  · exact .ok ⟨colon, like⟩

theorem pseudo (kind : Kind) :
  R.Reads R.node (L.pseudo kind) (M.pseudo kind)
  := by
  intro s s' like
  apply (h.colons kind s s' like).bind
  rintro ⟨t, s⟩ ⟨u, s'⟩ ⟨colon, like⟩
  apply (h.target s s' like).bind
  rintro ⟨m, s⟩ ⟨n, s'⟩ ⟨name, like⟩
  apply (h.call name s s' like).bind
  rintro _ _ ⟨name, like⟩
  exact .ok ⟨R.branch (.cons name .nil) (R.start colon) (R.nodeStop name) kind, like⟩

theorem atHash {ts us : List Token} (rest : List.Forall₂ R.token ts us) :
  R.Reads R.node (L.atHash ts) (M.atHash us)
  := by
  intro s s' like
  apply (h.ending.atMark rest '{').ite
  · apply (h.group .interpolation s s' like).bind
    rintro ⟨m, s⟩ ⟨n, s'⟩ ⟨interpolation, like⟩
    exact h.call interpolation s s' like
  · apply (h.ending.atName rest).ite
    · exact h.compound .idName s s' like
    · exact h.single s s' like

theorem atPoint {ts us : List Token} (rest : List.Forall₂ R.token ts us) :
  R.Reads R.node (L.atPoint ts) (M.atPoint us)
  := by
  intro s s' like
  apply (h.ending.atName rest).ite
  · exact h.compound .className s s' like
  · exact h.single s s' like

theorem atColon {ts us : List Token} (rest : List.Forall₂ R.token ts us) :
  R.Reads R.node (L.atColon ts) (M.atColon us)
  := by
  intro s s' like
  apply (h.ending.atMark rest ':').ite
  · have tails : List.Forall₂ R.token ts.tail us.tail := by
      simpa using List.forall₂_drop 1 rest
    apply (h.ending.atName tails).ite
    · exact h.pseudo .pseudoElement s s' like
    · exact h.single s s' like
  · apply (h.ending.atName rest).ite
    · exact h.pseudo .pseudoClass s s' like
    · exact h.single s s' like

theorem atom (selector : Bool) :
  R.Reads R.node (L.atom selector) (M.atom selector)
  := by
  intro s s' like
  obtain ⟨none, none'⟩ | ⟨t, ts, u, us, some, some', first, rest⟩ := R.heads like
  · simp only [Level.atom, none, none']
    exact .error h.ending.failure
  · simp only [Level.atom, some, some', R.mark_eq first]
    split
    · exact h.atHash rest s s' like
    · exact h.atPoint rest s s' like
    · exact h.group .parentheses s s' like
    · exact h.group .brackets s s' like
    · exact h.group .block s s' like
    · split
      · exact h.atColon rest s s' like
      · exact h.single s s' like
    · split
      · exact .error (R.failureAt (R.start first) _)
      · exact h.single s s' like
    · exact h.single s s' like

/-! ### Statements -/

theorem run (scope : Scope) (selector : Bool) :
  R.Reads (List.Forall₂ R.node) (L.run scope selector) (M.run scope selector)
  := by
  apply Likeness.Searches.collect
  intro s s' like
  obtain ⟨none, none'⟩ | ⟨t, ts, u, us, some, some', first, _⟩ := R.heads like
  · simp only [Level.runAtom, none, none']
    exact h.ending.reach.bind fun _ _ _ => .ok .nothing
  · simp only [Level.runAtom, some, some', R.endsRun_eq first]
    split
    · exact .ok .nothing
    · exact (h.atom selector).found s s' like

theorem terminator (c : Char) :
  R.Reads (List.Forall₂ R.node) (L.terminator c) (M.terminator c)
  := by
  intro s s' like
  apply (h.ending.atMark (R.tokens like) c).ite
  · apply (h.next s s' like).bind
    rintro _ _ ⟨mark, like⟩
    exact .ok ⟨.cons (R.leaf mark) .nil, like⟩
  · exact .ok ⟨.nil, like⟩

theorem selectorAtom :
  R.Searches R.node L.selectorAtom M.selectorAtom
  := by
  intro s s' like
  apply (h.ending.atMark (R.tokens like) '{').ite
  · exact .ok .nothing
  · exact (h.atom true).found s s' like

theorem rule {s s' : State} (like : R.state s s') (place : R.place (Level.here s) (Level.here s')) :
  R.Agree (R.Answers R.node) (L.rule s) (M.rule s')
  := by
  apply (h.selectorAtom.collect _ _ s s' like).bind
  rintro ⟨ms, s⟩ ⟨ns, s'⟩ ⟨selector, like⟩
  apply (h.group .block s s' like).bind
  rintro _ _ ⟨block, like⟩
  exact .ok ⟨R.spanning (.cons (R.spanning selector place _) (.cons block .nil)) place _, like⟩

theorem propertyAtom :
  R.Searches R.node L.propertyAtom M.propertyAtom
  := by
  intro s s' like
  obtain ⟨none, none'⟩ | ⟨t, ts, u, us, some, some', first, _⟩ := R.heads like
  · simp only [Level.propertyAtom, none, none']
    exact .error (h.ending.lacking ":")
  · simp only [Level.propertyAtom, some, some', R.mark_eq first]
    split
    · exact .ok .nothing
    · exact (h.atom false).found s s' like

theorem conclusion (scope : Scope) :
  R.Reads (fun r r' => List.Forall₂ R.node r.1 r'.1 ∧ List.Forall₂ R.node r.2 r'.2)
    (L.conclusion scope) (M.conclusion scope)
  := by
  intro s s' like
  apply (h.ending.atMark (R.tokens like) '{').ite
  · apply (h.group .block s s' like).bind
    rintro ⟨m, s⟩ ⟨n, s'⟩ ⟨block, like⟩
    apply (h.terminator ';' s s' like).bind
    rintro _ _ ⟨mark, like⟩
    exact .ok ⟨⟨.cons block .nil, mark⟩, like⟩
  · apply (h.ending.atMark (R.tokens like) ';').ite
    · apply (h.terminator ';' s s' like).bind
      rintro _ _ ⟨mark, like⟩
      exact .ok ⟨⟨.nil, mark⟩, like⟩
    · split
      · apply (h.terminator ',' s s' like).bind
        rintro _ _ ⟨mark, like⟩
        exact .ok ⟨⟨.nil, mark⟩, like⟩
      · exact .ok ⟨⟨.nil, .nil⟩, like⟩

theorem declaration (scope : Scope) {s s' : State} (like : R.state s s')
    (place : R.place (Level.here s) (Level.here s')) :
  R.Agree (R.Answers R.node) (L.declaration scope s) (M.declaration scope s')
  := by
  apply (h.propertyAtom.collect _ _ s s' like).bind
  rintro ⟨ms, s⟩ ⟨ns, s'⟩ ⟨property, like⟩
  apply (h.next s s' like).bind
  rintro ⟨t, s⟩ ⟨u, s'⟩ ⟨colon, like⟩
  apply (h.run scope false s s' like).bind
  rintro ⟨ks, s⟩ ⟨ls, s'⟩ ⟨value, like⟩
  apply (h.conclusion scope s s' like).bind
  rintro ⟨⟨block, mark⟩, s⟩ ⟨⟨block', mark'⟩, s'⟩ ⟨⟨blocks, marks⟩, like⟩
  have value := R.spanning (List.rel_append value blocks) (R.stop colon) .value
  have parts := List.Forall₂.cons (R.spanning property place .property)
    (.cons (R.leaf colon) (.cons value marks))
  exact .ok ⟨R.spanning parts place _, like⟩

theorem leaves (n : Nat) :
  R.Reads (List.Forall₂ R.node) (L.leaves n) (M.leaves n)
  := by
  induction n with
  | zero =>
    intro s s' like
    exact .ok ⟨.nil, like⟩
  | succ n ih =>
    intro s s' like
    apply (h.next s s' like).bind
    rintro ⟨t, s⟩ ⟨u, s'⟩ ⟨first, like⟩
    apply (ih s s' like).bind
    rintro _ _ ⟨others, like⟩
    exact .ok ⟨.cons (R.leaf first) others, like⟩

theorem head :
  R.Reads (List.Forall₂ R.node) L.head M.head
  := by
  intro s s' like
  have tokens := R.tokens like
  simp only [Level.head, R.blanks_eq tokens]
  apply (h.ending.atCall (List.forall₂_drop _ tokens)).ite
  · apply (h.leaves _ s s' like).bind
    rintro ⟨ms, s⟩ ⟨ns, s'⟩ ⟨name, like⟩
    apply (h.group .arguments s s' like).bind
    rintro _ _ ⟨arguments, like⟩
    exact .ok ⟨List.rel_append name (.cons arguments .nil), like⟩
  · exact .ok ⟨.nil, like⟩

theorem tail :
  R.Reads (List.Forall₂ R.node) L.tail M.tail
  := by
  intro s s' like
  apply (h.ending.atMark (R.tokens like) '{').ite
  · apply (h.group .block s s' like).bind
    rintro _ _ ⟨block, like⟩
    exact .ok ⟨.cons block .nil, like⟩
  · exact h.terminator ';' s s' like

theorem atRule (scope : Scope) :
  R.Reads R.node (L.atRule scope) (M.atRule scope)
  := by
  intro s s' like
  apply (h.next s s' like).bind
  rintro ⟨t, s⟩ ⟨u, s'⟩ ⟨keyword, like⟩
  apply (h.head s s' like).bind
  rintro ⟨ms, s⟩ ⟨ns, s'⟩ ⟨name, like⟩
  apply (h.run scope true s s' like).bind
  rintro ⟨ks, s⟩ ⟨ls, s'⟩ ⟨prelude, like⟩
  apply (h.tail s s' like).bind
  rintro ⟨_, s⟩ ⟨_, s'⟩ ⟨final, like⟩
  have parts := List.Forall₂.cons (R.leaf keyword)
    (List.rel_append (List.rel_append name prelude) final)
  exact .ok ⟨R.spanning parts (R.start keyword) _, like⟩

theorem loose (scope : Scope) :
  R.Reads (List.Forall₂ R.node) (L.loose scope) (M.loose scope)
  := by
  intro s s' like
  apply (h.atom false s s' like).bind
  rintro ⟨m, s⟩ ⟨n, s'⟩ ⟨first, like⟩
  dsimp only at first like ⊢
  rw [R.nodeKind_eq first]
  split
  · exact .ok ⟨.cons first .nil, like⟩
  · apply (h.run scope false s s' like).bind
    rintro _ _ ⟨others, like⟩
    exact .ok ⟨.cons first others, like⟩

omit h in
theorem alone {x y : Except Failure (Node × State)} (agree : R.Agree (R.Answers R.node) x y) :
  R.Agree (R.Answers (List.Forall₂ R.node)) (do let (n, s) ← x; return ([n], s))
    (do let (n, s) ← y; return ([n], s))
  := by
  apply agree.bind
  rintro _ _ ⟨alike, like⟩
  exact .ok ⟨.cons alike .nil, like⟩

theorem ofForm (scope : Scope) (form : Form) {s s' : State} (like : R.state s s')
    (place : R.place (Level.here s) (Level.here s')) :
  R.Agree (R.Answers (List.Forall₂ R.node)) (L.ofForm scope form s) (M.ofForm scope form s')
  := by
  cases form with
  | rule => exact alone (h.rule like place)
  | declaration => exact alone (h.declaration scope like place)
  | loose => exact h.loose scope s s' like

theorem statement (scope : Scope) :
  R.Reads (List.Forall₂ R.node) (L.statement scope) (M.statement scope)
  := by
  intro s s' like
  obtain ⟨none, none'⟩ | ⟨t, ts, u, us, some, some', first, _⟩ := R.heads like
  · simp only [Level.statement, none, none']
    exact .error h.ending.failure
  · simp only [Level.statement, some, some', R.standsAlone_eq first, R.kind_eq first]
    split
    · exact .ok ⟨.cons (R.leaf first) .nil, R.advance like some some'⟩
    · split
      · exact alone (h.atRule scope s s' like)
      · apply (h.survey scope s s' like).bind
        rintro ⟨form, memory⟩ ⟨_, memory'⟩ ⟨rfl, like⟩
        exact h.ofForm scope form like (R.here some some' first)

/-! ### Sequences -/

/-- Two surroundings are alike: both at the top, or in groups of one kind that open at places
that are alike. -/
inductive Around (R : Likeness) : Surroundings → Surroundings → Prop where
  | top : Around R .top .top
  | inside {p q} (g : Group) (place : R.place p q) : Around R (.inside g p) (.inside g q)

theorem sequenceStatement {around around' : Surroundings} (arounds : Around R around around') :
  R.Searches (List.Forall₂ R.node) (L.sequenceStatement around) (M.sequenceStatement around')
  := by
  have finish : R.Agree (fun _ _ => True) around.finish around'.finish := by
    cases arounds with
    | top => exact .ok trivial
    | inside g place => exact .error (R.failureAt place _)
  have closer : around.closer? = around'.closer? := by cases arounds <;> rfl
  have scope : around.scope = around'.scope := by cases arounds <;> rfl
  intro s s' like
  obtain ⟨none, none'⟩ | ⟨t, ts, u, us, some, some', first, _⟩ := R.heads like
  · simp only [Level.sequenceStatement, none, none']
    exact h.ending.reach.bind fun _ _ _ => finish.bind fun _ _ _ => .ok .nothing
  · simp only [Level.sequenceStatement, some, some', R.mark_eq first, closer, scope]
    split
    · split
      · exact .ok .nothing
      · split
        · exact .error (R.failureAt (R.start first) _)
        · exact (h.statement _).found s s' like
    · exact (h.statement _).found s s' like

theorem sequence {around around' : Surroundings} (arounds : Around R around around') :
  R.Reads (List.Forall₂ R.node) (L.sequence around) (M.sequence around')
  := by
  intro s s' like
  apply ((h.sequenceStatement arounds).collect _ _ s s' like).bind
  rintro _ _ ⟨alike, like⟩
  exact .ok ⟨List.rel_flatten alike, like⟩

theorem opened (g : Group) :
  R.Reads (fun _ _ => True) (L.opened g) (M.opened g)
  := by
  intro s s' like
  unfold Level.opened
  split
  · apply (h.next s s' like).bind
    rintro _ _ ⟨_, like⟩
    exact .ok ⟨trivial, like⟩
  · exact .ok ⟨trivial, like⟩

theorem content (g : Group) {p q : Position} (place : R.place p q) :
  R.Reads R.node (L.content g p) (M.content g q)
  := by
  intro s s' like
  apply (h.opened g s s' like).bind
  rintro ⟨_, s⟩ ⟨_, s'⟩ ⟨_, like⟩
  apply (h.sequence (.inside g place) s s' like).bind
  rintro ⟨ms, s⟩ ⟨ns, s'⟩ ⟨children, like⟩
  apply (h.next s s' like).bind
  rintro ⟨_, s⟩ ⟨_, s'⟩ ⟨closer, like⟩
  exact .ok ⟨R.branch children place (R.stop closer) _, like⟩

theorem enclosed (g : Group) :
  R.Reads R.node (L.enclosed g) (M.enclosed g)
  := by
  intro s s' like
  rw [Level.enclosed_eq, Level.enclosed_eq]
  apply (h.next s s' like).bind
  rintro ⟨t, s⟩ ⟨u, s'⟩ ⟨opener, like⟩
  exact h.content g (R.start opener) s s' like

end Level.Alike

/-- Levels of the same depth are alike if their endings and surveys are. -/
theorem Likeness.levels {R : Likeness} {e e' : Ending} {survey survey' : Survey}
    (endings : R.Endings e e')
    (surveys : ∀ scope s s', R.state s s' →
      R.Agree
        (fun r r' => r.1 = r'.1 ∧ R.state { s with memory := r.2 } { s' with memory := r'.2 })
        (survey e scope s.taken s.memory s.tokens)
        (survey' e' scope s'.taken s'.memory s'.tokens))
    (n : Nat) :
  (levels e survey n).Alike R (levels e' survey' n)
  := by
  induction n with
  | zero =>
    constructor
    case ending => exact endings
    case survey => exact surveys
    case group =>
      intro g s s' like
      obtain ⟨none, none'⟩ | ⟨t, ts, u, us, some, some', first, _⟩ := R.heads like
      · simp only [LosslessScss.levels, Level.refused, none, none']
        exact .error endings.failure
      · simp only [LosslessScss.levels, Level.refused, some, some']
        exact .error (R.failureAt (R.start first) _)
  | succ n ih =>
    constructor
    case ending => exact endings
    case survey => exact surveys
    case group => exact ih.enclosed

/-! ### Equal tokens and nodes -/

/-- Two runs over the same tokens, with the same nodes and failures, in states that are alike. -/
def Likeness.equal (state : State → State → Prop) (escapes : Failure → Prop)
    (tokens : ∀ {a b}, state a b → a.tokens = b.tokens)
    (advance : ∀ {a b t ts}, state a b → a.tokens = t :: ts → state (a.advance ts) (b.advance ts)) :
    Likeness where
  token := Eq
  place := Eq
  node := Eq
  failure := Eq
  state := state
  escapes := escapes
  kind_eq := by rintro _ _ rfl; rfl
  mark_eq := by rintro _ _ rfl; rfl
  continues_eq := by rintro _ _ rfl _; rfl
  start := by rintro _ _ rfl; rfl
  stop := by rintro _ _ rfl; rfl
  failureAt := by rintro _ _ rfl _; rfl
  leaf := by rintro _ _ rfl; rfl
  branch := by
    rintro _ _ _ _ _ _ children rfl rfl _
    rw [List.forall₂_eq_eq_eq] at children
    rw [children]
  nodeKind_eq := by rintro _ _ rfl; rfl
  nodeStart := by rintro _ _ rfl; rfl
  nodeStop := by rintro _ _ rfl; rfl
  tokens := by
    intro _ _ like
    rw [List.forall₂_eq_eq_eq]
    exact tokens like
  advance := by
    intro a b t u ts us like some some'
    obtain ⟨rfl, rfl⟩ := List.cons.inj (some.symm.trans ((tokens like).trans some'))
    exact advance like some

/-- Where places and failures are alike if they are equal, an ending is alike to itself. -/
theorem Likeness.Endings.self {R : Likeness} (place : R.place = Eq) (failure : R.failure = Eq)
    (e : Ending) :
  R.Endings e e
  := by
  cases e with
  | finished => exact .finished (place ▸ rfl)
  | broken => exact .broken (failure ▸ rfl)

end LosslessScss
