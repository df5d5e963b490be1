import LosslessScss.Proofs.Likeness

/-!
# Tokens taken at a level

A run of the parser is compared with itself, in states with a property that is kept when a token is
taken (`State.Kept`).  So what is read at a level is read from the front of the tokens, and every
token is counted (`ensures_takes`).  And two levels read the same from few tokens if they allow for
groups in groups as many as these tokens can open (`sequence_levels`).
-/

namespace LosslessScss

/-! ### States -/

/-- The tokens `ts` are taken from the front of those left in a state, and counted. -/
def State.Takes (s : State) (ts : List Token) (s' : State) : Prop :=
  s.tokens = ts ++ s'.tokens ∧ s'.taken = s.taken + ts.length

theorem State.Takes.advance {s s' : State} {t : Token} {ts us : List Token}
    (takes : s.Takes ts s') (tokens : s'.tokens = t :: us) :
  s.Takes (ts ++ [t]) (s'.advance us)
  := by
  constructor
  · rw [takes.1, tokens, List.append_assoc]
    rfl
  · simp only [State.advance, takes.2, List.length_append, List.length_singleton, Nat.add_assoc]

/-- A property of states that is kept when a token is taken, and whatever is remembered. -/
structure State.Kept (P : State → Prop) : Prop where
  advance : ∀ {s t ts}, P s → s.tokens = t :: ts → P (s.advance ts)
  remember : ∀ {s} memory, P s → P { s with memory }

namespace State.Kept

theorem takes (s : State) :
  Kept fun s' => ∃ ts, s.Takes ts s'
  where
  advance := fun ⟨_, takes⟩ some => ⟨_, takes.advance some⟩
  remember := fun _ => id

theorem remaining_le (k : Nat) :
  Kept fun s => s.remaining ≤ k
  where
  advance := fun le some => Nat.le_trans (Nat.le_of_lt (State.remaining_advance_lt some)) le
  remember := fun _ => id

end State.Kept

/-! ### A run beside itself -/

namespace Likeness

variable {P : State → Prop} {α : Type}

/-- A run beside itself, in states with a property that is kept. -/
def unary (kept : State.Kept P) : Likeness :=
  .equal (fun s s' => s = s' ∧ P s) (fun _ => False)
    (by rintro _ _ ⟨rfl, _⟩; rfl)
    (by rintro _ _ _ _ ⟨rfl, holds⟩ some; exact ⟨rfl, kept.advance holds some⟩)

variable (kept : State.Kept P)

/-- What is read agrees with itself where a state with the property is left. -/
theorem unary_self {x : Except Failure (α × State)} (ensures : Ensures x fun r => P r.2) :
  (unary kept).Agree ((unary kept).Answers Eq) x x
  := by
  cases x with
  | error => exact .error rfl
  | ok r => exact .ok ⟨rfl, rfl, ensures.of_eq r rfl⟩

variable {kept}

theorem Agree.ensures {Q : α → α → Prop} {x y : Except Failure (α × State)}
    (agree : (unary kept).Agree ((unary kept).Answers Q) x y) :
  Ensures x fun r => P r.2
  := by
  cases agree with
  | ok answers => exact Ensures.ok answers.2.2
  | error => exact Ensures.error
  | escape => exact Ensures.error

/-- Outcomes that agree on equal results are equal, the states left included. -/
theorem Agree.unary_eq {Q : α → α → Prop} {x y : Except Failure (α × State)}
    (agree : (unary kept).Agree ((unary kept).Answers Q) x y) (equal : ∀ a b, Q a b → a = b) :
  x = y
  := by
  cases agree with
  | ok answers => exact congrArg _ (Prod.ext (equal _ _ answers.1) answers.2.1)
  | error same => exact congrArg _ same
  | escape none => exact none.elim

variable (kept)

theorem unary_survey (survey : Survey) (e : Ending) (scope : Scope) (s s' : State)
    (like : (unary kept).state s s') :
  (unary kept).Agree
    (fun r r' => r.1 = r'.1 ∧
      (unary kept).state { s with memory := r.2 } { s' with memory := r'.2 })
    (survey e scope s.taken s.memory s.tokens) (survey e scope s'.taken s'.memory s'.tokens)
  := by
  obtain ⟨rfl, holds⟩ := like
  cases survey e scope s.taken s.memory s.tokens with
  | error => exact .error rfl
  | ok r => exact .ok ⟨rfl, rfl, kept.remember r.2 holds⟩

end Likeness

section Levels

variable {e : Ending} {survey : Survey} {n m k : Nat}

/-! ### Tokens that are taken -/

/-- At a level that is alike to itself in the states left of a state, whatever takes a token there
takes tokens from the front, one at least, and counts them. -/
theorem ensures_takes {α : Type} {Q : α → α → Prop} {read : State → Except Failure (α × State)}
    (advances : Advances read) {s : State}
    (reads : (Likeness.unary (.takes s)).Reads Q read read) :
  Ensures (read s) fun r => ∃ ts, ts ≠ [] ∧ s.Takes ts r.2
  := by
  have start : (Likeness.unary (.takes s)).state s s := ⟨rfl, [], rfl, rfl⟩
  constructor
  intro r found
  obtain ⟨ts, takes⟩ := (reads s s start).ensures.of_eq r found
  refine ⟨ts, ?_, takes⟩
  rintro rfl
  have lt := (advances s).of_eq r found
  rw [State.remaining, State.remaining, takes.1, List.nil_append] at lt
  exact Nat.lt_irrefl _ lt

theorem levels_alike_self {P : State → Prop} (kept : State.Kept P) :
  (levels e survey n).Alike (.unary kept) (levels e survey n)
  := Likeness.levels (.self rfl rfl e) (Likeness.unary_survey kept survey e) n

theorem statement_takes (scope : Scope) (s : State) :
  Ensures ((levels e survey n).statement scope s) fun r => ∃ ts, ts ≠ [] ∧ s.Takes ts r.2
  := ensures_takes ((levels e survey n).statement_advances scope)
    ((levels_alike_self (.takes s)).statement scope)

theorem atom_takes (selector : Bool) (s : State) :
  Ensures ((levels e survey n).atom selector s) fun r => ∃ ts, ts ≠ [] ∧ s.Takes ts r.2
  := ensures_takes ((levels e survey n).atom_advances selector)
    ((levels_alike_self (.takes s)).atom selector)

/-! ### Groups in groups -/

theorem group_of_nil {a : State} (none : a.tokens = []) (g : Group) :
  (levels e survey n).group g a = .error e.failure
  := by
  cases n with
  | zero => simp only [levels, Level.refused, none]
  | succ n =>
    simp only [levels, Level.enclosed, Level.next, none, levels_ending]
    rfl

/-- Levels that read the same groups from few tokens are alike as long as there are few. -/
theorem alike_of_group_eq (groups : ∀ g a, a.remaining ≤ k →
      (levels e survey n).group g a = (levels e survey m).group g a) :
  (levels e survey n).Alike (.unary (.remaining_le k)) (levels e survey m)
  := by
  constructor
  case ending =>
    rw [levels_ending, levels_ending]
    exact .self rfl rfl e
  case survey =>
    simp only [levels_ending, levels_survey]
    exact Likeness.unary_survey (.remaining_le k) survey e
  case group =>
    rintro g a _ ⟨rfl, le⟩
    rw [groups g a le]
    apply Likeness.unary_self
    apply ((levels e survey m).group_advances g a).mono
    exact fun r lt => Nat.le_trans (Nat.le_of_lt lt) le

/-- A level whose groups may be nested as deep as there are tokens reads a group as any deeper one
does. -/
theorem group_levels (le : k ≤ n) (le' : k ≤ m) (g : Group) {a : State} (few : a.remaining ≤ k) :
  (levels e survey n).group g a = (levels e survey m).group g a
  := by
  -- The first token of a group is one token less for the groups inside.
  induction k generalizing n m g a with
  | zero =>
    have none := List.length_eq_zero_iff.mp (Nat.le_zero.mp few)
    rw [group_of_nil none, group_of_nil none]
  | succ k ih =>
    cases tokens : a.tokens with
    | nil => rw [group_of_nil tokens, group_of_nil tokens]
    | cons t ts =>
      obtain ⟨n, rfl⟩ := Nat.exists_eq_add_of_le' (Nat.le_trans (Nat.succ_pos k) le)
      obtain ⟨m, rfl⟩ := Nat.exists_eq_add_of_le' (Nat.le_trans (Nat.succ_pos k) le')
      have alike := alike_of_group_eq fun g a few =>
        ih (Nat.le_of_succ_le_succ le) (Nat.le_of_succ_le_succ le') g few
      have fewer : (a.advance ts).remaining ≤ k :=
        Nat.le_of_lt_succ (Nat.lt_of_lt_of_le (State.remaining_advance_lt tokens) few)
      have next (n : Nat) : (levels e survey n).next a = .ok (t, a.advance ts) := by
        rw [Level.next, tokens]
      have enclosed (n : Nat) : (levels e survey (n + 1)).group g a
          = (levels e survey n).content g t.start (a.advance ts) := by
        show (levels e survey n).enclosed g a = _
        rw [Level.enclosed_eq, next]
        rfl
      rw [enclosed, enclosed]
      exact (alike.content g rfl _ _ ⟨rfl, fewer⟩).unary_eq fun _ _ => id

/-- A limit on how deep groups may be nested that is no less than the number of tokens changes
nothing. -/
theorem sequence_levels (around : Surroundings) {a : State} (le : a.remaining ≤ n)
    (le' : a.remaining ≤ m) :
  (levels e survey n).sequence around a = (levels e survey m).sequence around a
  := by
  have alike : (levels e survey n).Alike (.unary (.remaining_le a.remaining)) (levels e survey m) :=
    alike_of_group_eq fun g a few => group_levels le le' g few
  have same : Level.Alike.Around (.unary (.remaining_le a.remaining)) around around := by
    cases around with
    | top => exact .top
    | inside g p => exact .inside g rfl
  apply (alike.sequence same a a ⟨rfl, Nat.le_refl _⟩).unary_eq
  intro ms ns nodes
  exact List.forall₂_eq_eq_eq ▸ nodes

end Levels

end LosslessScss
