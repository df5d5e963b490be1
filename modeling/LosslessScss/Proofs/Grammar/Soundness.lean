import LosslessScss.Proofs.Grammar

/-!
# What is read is derived

A level of nesting reads by the rules of the grammar, if its survey looks at every token and
its groups are read by the rules (`Level.Sound`).  Each function of a level is shown to read
what its phrase derives; a group of the next outer level then reads by the rules as well, and
so do all levels by induction on the number of groups that may be nested (`levels_sound`).
-/

namespace LosslessScss

/-- The tokens start with the opening marks of a group. -/
def Group.Opens (g : Group) (ts : List Token) : Prop :=
  ∃ os us, ts = os ++ us ∧ Marks os g.kind.opening

theorem Group.Opens.of_mark {g : Group} {t : Token} {ts : List Token} {c : Char}
    (mark : t.mark? = some c) (opening : g.kind.opening.toList = [c]) :
  g.Opens (t :: ts)
  := by
  refine ⟨[t], ts, rfl, ?_⟩
  rw [Marks, opening]
  simp [mark]

theorem Group.Opens.of_atMark {e : Ending} {g : Group} {ts : List Token} {c : Char}
    (there : e.atMark c ts = .ok true) (opening : g.kind.opening.toList = [c]) :
  g.Opens ts
  := by
  obtain ⟨t, us, rfl, mark⟩ := Ending.exists_of_atMark there
  exact .of_mark mark opening

theorem Group.Opens.of_atInterpolation {e : Ending} {ts : List Token}
    (there : e.atInterpolation ts = .ok true) :
  Group.interpolation.Opens ts
  := by
  obtain ⟨t, u, us, rfl, hash, mark⟩ := Ending.exists_of_atInterpolation there
  refine ⟨[t, u], us, rfl, ?_⟩
  rw [Marks, List.map_cons, List.map_cons, hash, mark]
  rfl

/-- A group starts with its opening marks. -/
theorem Derives.opens {e : Ending} {n : Nat} {g : Group} {ts us : List Token} {ns : List Node}
    (derives : Derives e n (.group g) ts ns us) :
  g.Opens ts
  := by
  cases derives with
  | group opening => exact ⟨_, _, rfl, opening⟩

/-! ### Where loops and sequences end -/

section Ends

variable {e : Ending} {n : Nat} {ts us : List Token} {ns : List Node}

/-- A loop ends before a token that ends it, or with the text. -/
theorem Derives.atoms_end {loop : Loop} (derives : Derives e n (.atoms loop) ts ns us) :
  (∃ t vs, us = t :: vs ∧ loop.stops t = true) ∨ us = [] ∧ loop.stopsAtEnd = true
  := by
  generalize phrase : Phrase.atoms loop = p at derives
  induction derives with
  | atomsStop stops =>
    cases phrase
    exact .inl ⟨_, _, rfl, stops⟩
  | atomsEnd mayEnd =>
    cases phrase
    exact .inr ⟨rfl, mayEnd⟩
  | atomsCons _ _ _ _ ih =>
    cases phrase
    exact ih rfl
  | _ => cases phrase

/-- A property ends before a colon. -/
theorem Derives.property_end {c : Token}
    (derives : Derives e n (.atoms .property) ts ns (c :: us)) :
  c.mark? = some ':'
  := by
  obtain ⟨_, _, same, stops⟩ | ⟨none, _⟩ := derives.atoms_end
  · cases same
    exact of_decide_eq_true stops
  · cases none

/-- A sequence in a group ends before the mark that closes the group. -/
theorem Derives.sequence_end {g : Group} {p : Position}
    (derives : Derives e n (.sequence (.inside g p)) ts ns us) :
  ∃ t vs, us = t :: vs ∧ t.mark? = some g.closer
  := by
  generalize phrase : Phrase.sequence (.inside g p) = q at derives
  induction derives with
  | sequenceCloser closer mark =>
    cases phrase
    cases closer
    exact ⟨_, _, rfl, mark⟩
  | sequenceCons _ _ _ _ ih =>
    cases phrase
    exact ih rfl
  | _ => cases phrase

/-- A stylesheet ends with the text. -/
theorem Derives.top_end (derives : Derives e n (.sequence .top) ts ns us) :
  us = [] ∧ ∃ p, e = .finished p
  := by
  generalize phrase : Phrase.sequence .top = q at derives
  induction derives with
  | sequenceEnd reached => exact ⟨rfl, Ending.eq_finished_of_reach reached⟩
  | sequenceCloser closer =>
    cases phrase
    cases closer
  | sequenceCons _ _ _ _ ih =>
    cases phrase
    exact ih rfl
  | _ => cases phrase

end Ends

/-! ### The functions of a level -/

/-- A level that reads by the rules: it surveys statements without a memory and reads groups by
the rules. -/
structure Level.Sound (L : Level) (n : Nat) : Prop where
  survey : L.survey = Survey.plain
  group : ∀ g s, g.Opens s.tokens →
    Ensures (L.group g s) fun r => Derives L.ending n (.group g) s.tokens [r.1] r.2.tokens

namespace Level.Sound

variable {L : Level} {n : Nat} (sound : L.Sound n)

include sound

theorem call (caller : Node) (s : State) :
  Ensures (L.call caller s) fun r => Derives L.ending n (.call caller) s.tokens [r.1] r.2.tokens
  := by
  apply Ensures.bind Ensures.self
  intro opens look
  cases opens with
  | true =>
    apply Ensures.bind (sound.group .arguments s (.of_atMark look rfl))
    intro (a, s₁) arguments
    exact Ensures.ok (.callArguments arguments)
  | false => exact Ensures.ok (.callNone look)

theorem single (selector : Bool) (s : State)
    (lone : ∀ t ts, s.tokens = t :: ts → L.ending.Lone selector t ts) :
  Ensures (L.single s) fun r => Derives L.ending n (.atom selector) s.tokens [r.1] r.2.tokens
  := by
  apply Ensures.bind (L.next_tokens s)
  intro (t, s₁) tokens
  dsimp only at tokens ⊢
  rw [tokens]
  split
  case isTrue name =>
    apply (sound.call (.leaf t) s₁).mono
    intro r call
    exact .atomName name call
  case isFalse noName => exact Ensures.ok (.atomToken noName (lone t s₁.tokens tokens))

/-- A name goes on with a segment, or it ends. -/
theorem segment (first : Bool) (s : State) :
  Ensures (L.segment first s) fun
    | none => L.ending.NameEnds first s.tokens
    | some (m, s') => Derives L.ending n (.segment first) s.tokens [m] s'.tokens
  := by
  apply Ensures.bind Ensures.self
  intro opens look
  cases opens with
  | true =>
    apply Ensures.bind (sound.group .interpolation s (.of_atInterpolation look))
    intro (m, s₁) interpolation
    exact Ensures.ok (.segmentInterpolation interpolation)
  | false =>
    cases tokens : s.tokens with
    | nil =>
      rw [tokens] at look
      exact Ensures.ok ⟨look, nofun⟩
    | cons t ts =>
      rw [tokens] at look
      simp only [Bool.false_eq_true, if_false]
      split
      case isTrue continues => exact Ensures.ok (.segmentToken continues)
      case isFalse ends =>
        refine Ensures.ok ⟨look, ?_⟩
        rintro _ ⟨⟩
        exact Bool.eq_false_iff.mpr ends

theorem segments (s : State) :
  Ensures (L.segments s) fun r => Derives L.ending n (.segments true) s.tokens r.1 r.2.tokens
  := by
  have others := collect_ensures (L.segment_advances false)
    (P := fun s ns s' => Derives L.ending n (.segments false) s.tokens ns s'.tokens)
    (fun s none => .segmentsEnd ((sound.segment false s).of_eq _ none))
    (fun s m s' ns s'' some => .segmentsCons ((sound.segment false s).of_eq _ some))
  apply Ensures.bind (sound.segment true s)
  intro r first
  cases r with
  | none => exact Ensures.ok (.segmentsEnd first)
  | some pair =>
    obtain ⟨m, s₁⟩ := pair
    apply Ensures.bind (others s₁)
    intro (ns, s₂) others
    exact Ensures.ok (.segmentsCons first others)

theorem compound {kind : Kind} (which : kind = .className ∨ kind = .idName) (selector : Bool)
    {s : State} {t : Token} {ts : List Token} (tokens : s.tokens = t :: ts)
    (sigil : Marks [t] kind.opening) (noGroup : kind = .idName → L.ending.atMark '{' ts = .ok false)
    (named : L.ending.atName ts = .ok true) :
  Ensures (L.compound kind s) fun r =>
    Derives L.ending n (.atom selector) s.tokens [r.1] r.2.tokens
  := by
  apply Ensures.bind (L.next_tokens s)
  intro (t', s₁) first
  dsimp only at first ⊢
  rw [tokens] at first ⊢
  cases first
  apply Ensures.bind (sound.segments s₁)
  intro (ns, s₂) segments
  exact Ensures.ok (.atomCompound which sigil noGroup named segments)

theorem target (s : State) (named : L.ending.atName s.tokens = .ok true) :
  Ensures (L.target s) fun r => Derives L.ending n .target s.tokens [r.1] r.2.tokens
  := by
  apply Ensures.bind Ensures.self
  intro opens look
  cases opens with
  | true =>
    apply (sound.group .interpolation s (.of_atInterpolation look)).mono
    intro r interpolation
    exact .targetInterpolation interpolation
  | false =>
    apply Ensures.bind (L.next_tokens s)
    intro (t, s₁) tokens
    dsimp only at tokens ⊢
    apply Ensures.ok
    obtain ⟨t', ts, tokens', name⟩ | interpolation := Ending.exists_of_atName named
    · rw [tokens] at tokens' ⊢
      cases tokens'
      exact .targetName name
    · rw [look] at interpolation
      cases interpolation

omit sound in
/-- The colons that are taken are those that the kind is written with. -/
theorem colons {kind : Kind} (which : kind = .pseudoClass ∨ kind = .pseudoElement) {s : State}
    {c : Token} {cs ts : List Token} (tokens : s.tokens = c :: cs ++ ts)
    (colons : Marks (c :: cs) kind.opening) :
  Ensures (L.colons kind s) fun r => r.1 = c ∧ r.2.tokens = ts
  := by
  apply Ensures.bind (L.next_tokens s)
  intro (c', s₁) first
  dsimp only at first ⊢
  rw [tokens] at first
  obtain ⟨rfl, rest⟩ := List.cons.inj first
  have count := colons.length
  obtain rfl | rfl := which
  · rw [if_neg (by decide)]
    obtain rfl := List.eq_nil_of_length_eq_zero (Nat.succ.inj count)
    exact Ensures.ok ⟨rfl, rest.symm⟩
  · rw [if_pos rfl]
    apply Ensures.bind (L.next_tokens s₁)
    intro (d, s₂) second
    obtain ⟨d', rfl⟩ := List.length_eq_one_iff.mp (Nat.succ.inj count)
    exact Ensures.ok ⟨rfl, (List.cons.inj (second.symm.trans rest.symm)).2⟩

theorem pseudo {kind : Kind} (which : kind = .pseudoClass ∨ kind = .pseudoElement) {s : State}
    {c : Token} (cs : List Token) {ts : List Token} (tokens : s.tokens = c :: cs ++ ts)
    (colons : Marks (c :: cs) kind.opening) (named : L.ending.atName ts = .ok true) :
  Ensures (L.pseudo kind s) fun r => Derives L.ending n (.atom true) s.tokens [r.1] r.2.tokens
  := by
  apply Ensures.bind (Sound.colons which tokens colons)
  rintro ⟨_, s₁⟩ ⟨rfl, rfl⟩
  apply Ensures.bind (sound.target s₁ named)
  intro (m, s₂) target
  apply Ensures.bind (sound.call m s₂)
  intro (m', s₃) call
  rw [tokens]
  exact Ensures.ok (.atomPseudo which colons named target call)

theorem atHash (selector : Bool) {s : State} {t : Token} {ts : List Token}
    (tokens : s.tokens = t :: ts) (mark : t.mark? = some '#') :
  Ensures (L.atHash ts s) fun r =>
    Derives L.ending n (.atom selector) s.tokens [r.1] r.2.tokens
  := by
  apply Ensures.bind Ensures.self
  intro opens look
  cases opens with
  | true =>
    have opening : Group.interpolation.Opens s.tokens := by
      rw [tokens]
      apply Group.Opens.of_atInterpolation (e := L.ending)
      rw [Ending.atInterpolation, if_pos mark]
      exact look
    apply Ensures.bind (sound.group .interpolation s opening)
    rintro ⟨m, s₁⟩ interpolation
    apply (sound.call m s₁).mono
    intro r call
    exact .atomInterpolation interpolation call
  | false =>
    apply Ensures.bind Ensures.self
    intro named look'
    cases named with
    | true =>
      have sigil : Marks [t] Kind.idName.opening := by
        rw [Marks, List.map_singleton, mark]
        rfl
      exact sound.compound (.inr rfl) selector tokens sigil (fun _ => look) look'
    | false =>
      apply sound.single selector s
      intro t' ts' tokens'
      rw [tokens] at tokens'
      cases tokens'
      rw [Ending.Lone, mark]
      exact ⟨look, look'⟩

theorem atPoint (selector : Bool) {s : State} {t : Token} {ts : List Token}
    (tokens : s.tokens = t :: ts) (mark : t.mark? = some '.') :
  Ensures (L.atPoint ts s) fun r =>
    Derives L.ending n (.atom selector) s.tokens [r.1] r.2.tokens
  := by
  apply Ensures.bind Ensures.self
  intro named look
  cases named with
  | true =>
    have sigil : Marks [t] Kind.className.opening := by
      rw [Marks, List.map_singleton, mark]
      rfl
    exact sound.compound (.inl rfl) selector tokens sigil (fun same => Kind.noConfusion same) look
  | false =>
    apply sound.single selector s
    intro t' ts' tokens'
    rw [tokens] at tokens'
    cases tokens'
    rw [Ending.Lone, mark]
    exact look

theorem atColon {s : State} {t : Token} {ts : List Token} (tokens : s.tokens = t :: ts)
    (mark : t.mark? = some ':') :
  Ensures (L.atColon ts s) fun r => Derives L.ending n (.atom true) s.tokens [r.1] r.2.tokens
  := by
  apply Ensures.bind Ensures.self
  intro double look
  have lone (alone : L.ending.atMark ':' ts = .ok true ∧ L.ending.atName ts.tail = .ok false ∨
      L.ending.atMark ':' ts = .ok false ∧ L.ending.atName ts = .ok false) :
      Ensures (L.single s) fun r => Derives L.ending n (.atom true) s.tokens [r.1] r.2.tokens := by
    apply sound.single true s
    intro t' ts' tokens'
    rw [tokens] at tokens'
    cases tokens'
    rw [Ending.Lone, mark]
    exact fun _ => alone
  cases double with
  | true =>
    apply Ensures.bind Ensures.self
    intro named look'
    cases named with
    | true =>
      obtain ⟨u, us, rfl, mark'⟩ := Ending.exists_of_atMark look
      apply sound.pseudo (.inr rfl) [u] tokens _ look'
      rw [Marks, List.map_cons, List.map_singleton, mark, mark']
      rfl
    | false => exact lone (.inl ⟨look, look'⟩)
  | false =>
    apply Ensures.bind Ensures.self
    intro named look'
    cases named with
    | true =>
      apply sound.pseudo (.inl rfl) [] tokens _ look'
      rw [Marks, List.map_singleton, mark]
      rfl
    | false => exact lone (.inr ⟨look, look'⟩)

theorem atom (selector : Bool) (s : State) :
  Ensures (L.atom selector s) fun r =>
    Derives L.ending n (.atom selector) s.tokens [r.1] r.2.tokens
  := by
  unfold Level.atom
  split
  · exact Ensures.error
  next t ts tokens =>
    have group {g : Group} {c : Char} (kind : g = .parentheses ∨ g = .brackets ∨ g = .block)
        (mark : t.mark? = some c) (opening : g.kind.opening.toList = [c]) :
        Ensures (L.group g s) fun r =>
          Derives L.ending n (.atom selector) s.tokens [r.1] r.2.tokens := by
      apply (sound.group g s (tokens ▸ .of_mark mark opening)).mono
      intro r group
      exact .atomGroup kind group
    have single (lone : L.ending.Lone selector t ts) :
        Ensures (L.single s) fun r =>
          Derives L.ending n (.atom selector) s.tokens [r.1] r.2.tokens := by
      apply sound.single selector s
      intro t' ts' tokens'
      rw [tokens] at tokens'
      cases tokens'
      exact lone
    split
    next mark => exact sound.atHash selector tokens mark
    next mark => exact sound.atPoint selector tokens mark
    next mark => exact group (.inl rfl) mark rfl
    next mark => exact group (.inr (.inl rfl)) mark rfl
    next mark => exact group (.inr (.inr rfl)) mark rfl
    next mark =>
      cases selector with
      | true => exact sound.atColon tokens mark
      | false =>
        apply single
        rw [Ending.Lone, mark]
        exact fun selector => absurd selector Bool.false_ne_true
    next c _ _ _ _ _ _ mark =>
      split
      case isTrue => exact Ensures.error
      case isFalse other =>
        apply single
        unfold Ending.Lone
        rw [mark]
        split
        case h_7 same => cases same; exact Bool.eq_false_iff.mpr other
        all_goals simp_all
    next mark =>
      apply single
      rw [Ending.Lone, mark]
      trivial

/-! ### Loops -/

/-- A loop goes on with an atom, or it ends. -/
theorem loopAtom (loop : Loop) (s : State) :
  Ensures (L.loopAtom loop s) fun
    | none => Derives L.ending n (.atoms loop) s.tokens [] s.tokens
    | some (m, s') => (∃ t ts, s.tokens = t :: ts ∧ loop.stops t = false) ∧
        Derives L.ending n (.atom loop.inSelector) s.tokens [m] s'.tokens
  := by
  cases tokens : s.tokens with
  | nil =>
    obtain ⟨mayEnd, ends⟩ | ⟨_, _, fails⟩ := L.loopAtom_nil loop tokens
    · rw [ends]
      apply Ensures.bind Ensures.self
      intro _ reached
      exact Ensures.ok (.atomsEnd mayEnd reached)
    · rw [fails]
      exact Ensures.error
  | cons t ts =>
    rw [L.loopAtom_cons loop tokens]
    split
    case isTrue stops => exact Ensures.ok (.atomsStop stops)
    case isFalse goesOn =>
      apply Ensures.bind (sound.atom loop.inSelector s)
      intro (m, s₁) first
      exact Ensures.ok ⟨⟨t, ts, rfl, Bool.eq_false_iff.mpr goesOn⟩, tokens ▸ first⟩

theorem loop (loop : Loop) (s : State) :
  Ensures (L.loop loop s) fun r => Derives L.ending n (.atoms loop) s.tokens r.1 r.2.tokens
  := by
  apply collect_ensures (L.loopAtom_advances loop)
    (P := fun s ns s' => Derives L.ending n (.atoms loop) s.tokens ns s'.tokens)
  · intro s none
    exact (sound.loopAtom loop s).of_eq _ none
  · intro s m s' ms s'' some others
    obtain ⟨⟨t, ts, tokens, goesOn⟩, first⟩ := (sound.loopAtom loop s).of_eq _ some
    rw [tokens] at first ⊢
    exact .atomsCons goesOn first others

/-! ### Statements -/

omit sound in
theorem terminator (c : Char) (s : State) :
  Ensures (L.terminator c s) fun r => Terminator L.ending [c] s.tokens r.1 r.2.tokens
  := by
  apply Ensures.bind Ensures.self
  intro there look
  cases there with
  | true =>
    obtain ⟨t, ts, tokens, mark⟩ := Ending.exists_of_atMark look
    apply Ensures.bind (L.next_tokens s)
    intro (t', s₁) first
    dsimp only at first ⊢
    rw [tokens] at first ⊢
    cases first
    exact Ensures.ok (.mark List.mem_cons_self mark)
  | false =>
    apply Ensures.ok
    apply Terminator.none
    rintro d mem
    rw [List.mem_singleton.mp mem]
    exact look

omit sound in
/-- The next tokens are the leaves that are read. -/
theorem leaves (k : Nat) (s : State) :
  Ensures (L.leaves k s) fun r =>
    ∃ ts, ts.length = k ∧ s.tokens = ts ++ r.2.tokens ∧ r.1 = ts.map .leaf
  := by
  induction k generalizing s with
  | zero => exact Ensures.ok ⟨[], rfl, rfl, rfl⟩
  | succ k ih =>
    apply Ensures.bind (L.next_tokens s)
    intro (t, s₁) tokens
    apply Ensures.bind (ih s₁)
    rintro ⟨_, s₂⟩ ⟨ts, length, tokens', rfl⟩
    dsimp only at tokens tokens'
    refine Ensures.ok ⟨t :: ts, congrArg Nat.succ length, ?_, rfl⟩
    rw [tokens, tokens']
    rfl

theorem head (s : State) :
  Ensures (L.head s) fun r => Derives L.ending n .head s.tokens r.1 r.2.tokens
  := by
  obtain ⟨blanks, rest, tokens, blank, behind, head⟩ := L.head_eq s
  rw [head]
  apply Ensures.bind Ensures.self
  intro call look
  cases call with
  | true =>
    obtain ⟨t, u, us, rfl, name, mark⟩ := Ending.exists_of_atCall look
    apply Ensures.bind (Sound.leaves (blanks.length + 1) s)
    rintro ⟨_, s₁⟩ ⟨ts, length, tokens', rfl⟩
    rw [tokens] at tokens' ⊢
    rw [← List.singleton_append, ← List.append_assoc] at tokens'
    obtain ⟨rfl, rest⟩ := List.append_inj tokens' (by simp [length])
    dsimp only at rest ⊢
    apply Ensures.bind (sound.group .arguments s₁ (rest ▸ .of_mark mark rfl))
    intro (a, s₂) arguments
    rw [← rest] at arguments
    apply Ensures.ok
    simpa using Derives.headCall blank name arguments
  | false =>
    apply Ensures.ok
    apply Derives.headNone
    rw [behind]
    exact look

theorem atRule (scope : Scope) (s : State)
    (keyword : ∀ t ∈ s.tokens.head?, t.kind = .atKeyword) :
  Ensures (L.atRule scope s) fun r =>
    Derives L.ending n (.statement scope) s.tokens [r.1] r.2.tokens
  := by
  apply Ensures.bind (L.next_tokens s)
  intro (k, s₁) tokens
  dsimp only at tokens
  rw [tokens] at keyword ⊢
  have keyword := keyword k rfl
  apply Ensures.bind (sound.head s₁)
  intro (hs, s₂) head
  apply Ensures.bind (sound.loop (.run scope true) s₂)
  intro (ps, s₃) prelude
  apply Ensures.bind (P := fun r =>
    Derives L.ending n (.statement scope) (k :: s₁.tokens)
      [.spanning .atRule (.leaf k :: (hs ++ ps ++ r.1)) k.start] r.2.tokens)
  · apply Ensures.bind Ensures.self
    intro block look
    cases block with
    | true =>
      apply Ensures.bind (sound.group .block s₃ (.of_atMark look rfl))
      intro (b, s₄) block
      exact Ensures.ok (.atRuleBlock keyword head prelude block)
    | false =>
      apply (Sound.terminator ';' s₃).mono
      intro r final
      exact .atRule keyword head prelude look final
  · intro (fs, s₄) derives
    exact Ensures.ok derives

theorem rule (scope : Scope) {s : State} {t : Token} {ts : List Token} (tokens : s.tokens = t :: ts)
    (start : Surveyed scope t)
    (survey : Statement.plainSurvey L.ending scope s.tokens = .ok .rule) :
  Ensures (L.rule s) fun r => Derives L.ending n (.statement scope) s.tokens [r.1] r.2.tokens
  := by
  apply Ensures.bind (sound.loop .selector s)
  intro (ms, s₁) selector
  have opening : Group.block.Opens s₁.tokens := by
    obtain ⟨u, us, rest, stops⟩ | ⟨_, stops⟩ := selector.atoms_end
    · exact rest ▸ .of_mark (of_decide_eq_true stops) rfl
    · cases stops
  apply Ensures.bind (sound.group .block s₁ opening)
  intro (b, s₂) block
  apply Ensures.ok
  rw [here, tokens]
  rw [tokens] at survey selector
  exact .rule start survey selector block

omit sound in
/-- To look for further marks makes no difference where none of them is. -/
theorem terminator_more {marks marks' : List Char} {ts us : List Token} {ns : List Node}
    (terminator : Terminator L.ending marks ts ns us) (sub : marks ⊆ marks')
    (absent : ∀ c ∈ marks', c ∉ marks → L.ending.atMark c ts = .ok false) :
  Terminator L.ending marks' ts ns us
  := by
  cases terminator with
  | mark mem mark => exact .mark (sub mem) mark
  | none absent' =>
    apply Terminator.none
    intro c mem
    by_cases known : c ∈ marks
    · exact absent' c known
    · exact absent c mem known

theorem conclusion (scope : Scope) (s : State) :
  Ensures (L.conclusion scope s) fun ((blocks, fs), s') =>
    (∃ b us, blocks = [b] ∧ Derives L.ending n (.group .block) s.tokens [b] us ∧
      Terminator L.ending [';'] us fs s'.tokens) ∨
    (blocks = [] ∧ L.ending.atMark '{' s.tokens = .ok false ∧
      Terminator L.ending scope.terminators s.tokens fs s'.tokens)
  := by
  apply Ensures.bind Ensures.self
  intro block look
  cases block with
  | true =>
    apply Ensures.bind (sound.group .block s (.of_atMark look rfl))
    intro (b, s₁) block
    apply Ensures.bind (Sound.terminator ';' s₁)
    intro (fs, s₂) final
    exact Ensures.ok (.inl ⟨b, s₁.tokens, rfl, block, final⟩)
  | false =>
    apply Ensures.bind Ensures.self
    intro semicolon look'
    cases semicolon with
    | true =>
      obtain ⟨t, ts, tokens, mark⟩ := Ending.exists_of_atMark look'
      apply Ensures.bind (Sound.terminator ';' s)
      intro (fs, s₁) final
      refine Ensures.ok (.inr ⟨rfl, look, terminator_more final ?_ ?_⟩)
      · cases scope <;> simp [Scope.terminators]
      · intro c _ other
        rw [tokens, Ending.atMark, mark]
        have differs : ';' ≠ c := by
          rintro rfl
          exact other List.mem_cons_self
        simp [differs]
        rfl
    | false =>
      cases scope with
      | statements =>
        refine Ensures.ok (.inr ⟨rfl, look, .none ?_⟩)
        simpa [Scope.terminators] using look'
      | entries =>
        apply Ensures.bind (Sound.terminator ',' s)
        intro (fs, s₁) final
        refine Ensures.ok (.inr ⟨rfl, look, terminator_more final ?_ ?_⟩)
        · simp [Scope.terminators]
        · intro c mem other
          simp only [Scope.terminators, List.mem_cons, List.not_mem_nil, or_false] at mem other
          obtain rfl | is := mem
          · exact look'
          · exact absurd is other

theorem declaration (scope : Scope) {s : State} {t : Token} {ts : List Token}
    (tokens : s.tokens = t :: ts) (start : Surveyed scope t)
    (survey : Statement.plainSurvey L.ending scope s.tokens = .ok .declaration) :
  Ensures (L.declaration scope s) fun r =>
    Derives L.ending n (.statement scope) s.tokens [r.1] r.2.tokens
  := by
  apply Ensures.bind (sound.loop .property s)
  intro (ps, s₁) property
  apply Ensures.bind (L.next_tokens s₁)
  intro (c, s₂) colon
  apply Ensures.bind (sound.loop (.run scope false) s₂)
  intro (ms, s₃) value
  apply Ensures.bind (sound.conclusion scope s₃)
  intro ((blocks, fs), s₄) conclusion
  apply Ensures.ok
  dsimp only at colon property conclusion ⊢
  rw [here, tokens]
  rw [tokens] at survey property
  rw [colon] at property
  obtain ⟨b, us, rfl, block, final⟩ | ⟨rfl, noBlock, final⟩ := conclusion
  · exact .declarationBlock start survey property value block final
  · rw [List.append_nil]
    exact .declaration start survey property value noBlock final

theorem loose (scope : Scope) {s : State} {t : Token} {ts : List Token}
    (tokens : s.tokens = t :: ts) (start : Surveyed scope t)
    (survey : Statement.plainSurvey L.ending scope s.tokens = .ok .loose) :
  Ensures (L.loose scope s) fun r => Derives L.ending n (.statement scope) s.tokens r.1 r.2.tokens
  := by
  apply Ensures.bind (sound.atom false s)
  intro (m, s₁) first
  dsimp only at first ⊢
  rw [tokens] at survey first ⊢
  split
  case isTrue block => exact Ensures.ok (.looseBlock start survey first block)
  case isFalse noBlock =>
    apply Ensures.bind (sound.loop (.run scope false) s₁)
    intro (ms, s₂) others
    exact Ensures.ok (.loose start survey first noBlock others)

theorem surveyed (scope : Scope) {s : State} {t : Token} {ts : List Token}
    (tokens : s.tokens = t :: ts) (start : Surveyed scope t) :
  Ensures (L.surveyed scope s) fun r =>
    Derives L.ending n (.statement scope) s.tokens r.1 r.2.tokens
  := by
  rw [Level.surveyed, sound.survey]
  apply Ensures.bind Ensures.self
  intro (form, memory) survey
  have survey := Survey.plain_eq_ok survey
  cases form with
  | rule =>
    apply Ensures.bind (sound.rule scope (s := { s with memory }) tokens start survey)
    intro r derives
    exact Ensures.ok derives
  | declaration =>
    apply Ensures.bind (sound.declaration scope (s := { s with memory }) tokens start survey)
    intro r derives
    exact Ensures.ok derives
  | loose => exact sound.loose scope (s := { s with memory }) tokens start survey

theorem statement (scope : Scope) (s : State) :
  Ensures (L.statement scope s) fun r =>
    Derives L.ending n (.statement scope) s.tokens r.1 r.2.tokens
  := by
  unfold Level.statement
  split
  · exact Ensures.error
  next t ts tokens =>
    split
    case isTrue alone =>
      rw [tokens]
      exact Ensures.ok (.statementToken alone)
    case isFalse alone =>
      split
      case isTrue keyword =>
        apply Ensures.bind (sound.atRule scope s (by simpa [tokens] using keyword))
        intro r derives
        exact Ensures.ok derives
      case isFalse noKeyword =>
        exact sound.surveyed scope tokens ⟨Bool.eq_false_iff.mpr alone, noKeyword⟩

/-! ### Sequences and groups -/

/-- A sequence goes on with a statement, or it ends. -/
theorem sequenceStatement (around : Surroundings) (s : State) :
  Ensures (L.sequenceStatement around s) fun
    | none => Derives L.ending n (.sequence around) s.tokens [] s.tokens
    | some (ms, s') =>
      (∃ t ts, s.tokens = t :: ts ∧ t.mark?.all (! isCloser ·) = true) ∧
        Derives L.ending n (.statement around.scope) s.tokens ms s'.tokens
  := by
  have goesOn {t : Token} {ts : List Token} (tokens : s.tokens = t :: ts)
      (noCloser : t.mark?.all (! isCloser ·) = true) :
      Ensures (found (L.statement around.scope) s) fun
        | none => Derives L.ending n (.sequence around) s.tokens [] s.tokens
        | some (ms, s') =>
          (∃ t ts, s.tokens = t :: ts ∧ t.mark?.all (! isCloser ·) = true) ∧
            Derives L.ending n (.statement around.scope) s.tokens ms s'.tokens := by
    apply Ensures.bind (sound.statement around.scope s)
    intro (ms, s₁) first
    exact Ensures.ok ⟨⟨t, ts, tokens, noCloser⟩, first⟩
  unfold Level.sequenceStatement
  split
  next tokens =>
    apply Ensures.bind Ensures.self
    intro _ reached
    cases around with
    | top =>
      apply Ensures.ok
      dsimp only
      rw [tokens]
      exact .sequenceEnd reached
    | inside => exact Ensures.error
  next t ts tokens =>
    split
    next c mark =>
      split
      case isTrue closer =>
        apply Ensures.ok
        dsimp only
        rw [tokens]
        exact .sequenceCloser closer mark
      case isFalse =>
        split
        case isTrue => exact Ensures.error
        case isFalse other => exact goesOn tokens (by simpa [mark] using other)
    next mark => exact goesOn tokens (by simp [mark])

theorem sequence (around : Surroundings) (s : State) :
  Ensures (L.sequence around s) fun r =>
    Derives L.ending n (.sequence around) s.tokens r.1 r.2.tokens
  := by
  have statements := collect_ensures (L.sequenceStatement_advances around)
    (P := fun s nss s' => Derives L.ending n (.sequence around) s.tokens nss.flatten s'.tokens)
    (fun s none => (sound.sequenceStatement around s).of_eq _ none)
    (by
      intro s ms s' nss s'' some others
      obtain ⟨⟨t, ts, tokens, noCloser⟩, first⟩ := (sound.sequenceStatement around s).of_eq _ some
      rw [tokens] at first ⊢
      exact .sequenceCons noCloser first others)
  apply Ensures.bind (statements s)
  intro (nss, s₁) derives
  exact Ensures.ok derives

omit sound in
theorem opened {g : Group} {s : State} {os ts : List Token} (tokens : s.tokens = os ++ ts)
    (count : os.length + 1 = g.openerLength) :
  Ensures (L.opened g s) fun r => r.2.tokens = ts
  := by
  unfold Level.opened
  split
  · apply Ensures.bind (L.next_tokens s)
    intro (o, s₁) next
    obtain ⟨o', rfl⟩ := List.length_eq_one_iff.mp (Nat.succ.inj count)
    rw [next] at tokens
    cases tokens
    exact Ensures.ok rfl
  · next other =>
    have one : g.openerLength = 1 := by
      cases g <;> first | rfl | exact absurd rfl other
    obtain rfl := List.eq_nil_of_length_eq_zero (Nat.succ.inj (count.trans one))
    exact Ensures.ok tokens

/-- A group is read by the rules, if its content is. -/
theorem enclosed (g : Group) (s : State) (opens : g.Opens s.tokens) :
  Ensures (L.enclosed g s) fun r =>
    Derives L.ending (n + 1) (.group g) s.tokens [r.1] r.2.tokens
  := by
  obtain ⟨os, ts, tokens, opening⟩ := opens
  have count : os.length = g.openerLength := opening.length.trans g.length_opening_kind
  apply Ensures.bind (L.next_tokens s)
  intro (o, s₁) first
  have some := Nat.lt_of_lt_of_eq g.openerLength_pos count.symm
  obtain ⟨o', os', rfl⟩ := List.exists_cons_of_length_pos some
  rw [tokens] at first ⊢
  obtain ⟨rfl, rest⟩ := List.cons.inj first
  apply Ensures.bind (Sound.opened rest.symm count)
  rintro ⟨_, s₂⟩ rfl
  apply Ensures.bind (sound.sequence (.inside g o'.start) s₂)
  intro (ns, s₃) inside
  apply Ensures.bind (L.next_tokens s₃)
  intro (c, s₄) last
  obtain ⟨c', us, rest', closing⟩ := inside.sequence_end
  dsimp only at last rest' inside
  rw [last] at rest' inside
  cases rest'
  exact Ensures.ok (.group opening inside closing)

end Level.Sound

/-- All levels read by the rules. -/
theorem levels_sound (e : Ending) (n : Nat) :
  (levels e Survey.plain n).Sound n
  := by
  induction n with
  | zero =>
    refine ⟨rfl, fun g s _ => ?_⟩
    change Ensures (Level.refused e s) _
    unfold Level.refused
    split
    · exact Ensures.error
    · exact Ensures.error
  | succ n ih =>
    refine ⟨rfl, fun g s opens => ?_⟩
    have enclosed := ih.enclosed g s opens
    rw [levels_ending] at enclosed ⊢
    exact enclosed

end LosslessScss
