import LosslessScss.Level

/-!
# Rounds

A loop goes on in rounds, each of which either answers or tells where the next one starts.
`roundsWithin` follows a loop for a limited number of rounds.  If something decreases from round to
round, then so many rounds are enough (`roundsWithin_eq`); so `collect` ends after at most one round
for every token and one more (`roundsWithin_collectRound`).
-/

namespace LosslessScss

variable {σ α β : Type}

/-- What rounds that follow each other come to, each of which starts where the one before it has
left off; nothing if none of the first `n` rounds answers or fails. -/
def roundsWithin (round : σ → Except Failure (β ⊕ σ)) : Nat → σ → Option (Except Failure β)
  | 0, _ => none
  | n + 1, a =>
    match round a with
    | .error f => some (.error f)
    | .ok (.inl answer) => some (.ok answer)
    | .ok (.inr b) => roundsWithin round n b

/-- Rounds that make something smaller come to an end, and to the outcome that is the one of each of
them or of those after it. -/
theorem roundsWithin_eq {round : σ → Except Failure (β ⊕ σ)} (outcome : σ → Except Failure β)
    (unfolds : ∀ a, outcome a = round a >>= Sum.elim .ok outcome) (measure : σ → Nat)
    (decreases : ∀ a b, round a = .ok (.inr b) → measure b < measure a) {n : Nat} {a : σ}
    (enough : measure a < n) :
  roundsWithin round n a = some (outcome a)
  := by
  induction n generalizing a with
  | zero => cases enough
  | succ n ih =>
    rw [roundsWithin, unfolds]
    match step : round a with
    | .error f => rfl
    | .ok (.inl answer) => rfl
    | .ok (.inr b) => exact ih (Nat.lt_of_lt_of_le (decreases a b step) (Nat.le_of_lt_succ enough))

/-- A round of the loop that reads with `read`: what is found is put behind what was found before,
until nothing is found. -/
def collectRound (read : State → Except Failure (Option (α × State))) (r : List α × State) :
    Except Failure ((List α × State) ⊕ (List α × State)) := do
  match ← read r.2 with
  | none => return .inl r
  | some (a, s) => return .inr (r.1 ++ [a], s)

/-- A round after which a loop that takes tokens goes on leaves fewer of them. -/
theorem remaining_lt_of_collectRound {read : State → Except Failure (Option (α × State))}
    (advances : AdvancesIfSome read) {r r' : List α × State}
    (goesOn : collectRound read r = .ok (.inr r')) :
  r'.2.remaining < r.2.remaining
  := by
  unfold collectRound at goesOn
  match step : read r.2 with
  | .error f => rw [step] at goesOn; cases goesOn
  | .ok none => rw [step] at goesOn; cases goesOn
  | .ok (some (a, s)) =>
    rw [step] at goesOn
    cases goesOn
    exact (advances r.2).of_eq _ step a s rfl

/-- What a loop collects from a state on, behind what was found before. -/
def collectBehind (read : State → Except Failure (Option (α × State)))
    (advances : AdvancesIfSome read) (r : List α × State) : Except Failure (List α × State) :=
  (collect read advances r.2).map fun more => (r.1 ++ more.1, more.2)

/-- A loop consists of rounds. -/
theorem collectBehind_eq {read : State → Except Failure (Option (α × State))}
    (advances : AdvancesIfSome read) (r : List α × State) :
  collectBehind read advances r
    = collectRound read r >>= Sum.elim .ok (collectBehind read advances)
  := by
  simp only [collectBehind, collectRound]
  rw [collect_eq]
  simp only [bind, Except.bind, pure, Except.pure]
  cases read r.2 with
  | error f => rfl
  | ok next =>
    cases next with
    | none => simp [Except.map]
    | some next =>
      cases more : collect read advances next.2 with
      | error f => simp [collectBehind, more, Except.map]
      | ok r' => simp [collectBehind, more, Except.map]

/-- A loop that takes a token in each round ends, and collects what it reads. -/
theorem roundsWithin_collectRound {read : State → Except Failure (Option (α × State))}
    (advances : AdvancesIfSome read) {s : State} {n : Nat} (enough : s.remaining < n) :
  roundsWithin (collectRound read) n ([], s) = some (collect read advances s)
  := by
  have first : collectBehind read advances ([], s) = collect read advances s := by
    rw [collectBehind]
    cases collect read advances s <;> rfl
  rw [← first]
  apply roundsWithin_eq _ (collectBehind_eq advances) (fun r => r.2.remaining) _ enough
  exact fun r r' => remaining_lt_of_collectRound advances

end LosslessScss
