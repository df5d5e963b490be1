/-!
# Outcomes

A computation that may fail has an outcome: a result or a failure.  `Ensures x Q` says that
the result of `x`, if there is one, satisfies `Q`, `Yields x Q` that there is one which does,
and `Fails x Q` that the failure of `x`, if it fails, satisfies `Q`.  Of two steps that follow
each other the second one may rely on what the first one ensures.
-/

namespace LosslessScss

instance decidableEqExcept {ε α : Type} [DecidableEq ε] [DecidableEq α] :
    DecidableEq (Except ε α)
  | .ok a, .ok b => decidable_of_iff (a = b) ⟨congrArg _, Except.ok.inj⟩
  | .error e, .error f => decidable_of_iff (e = f) ⟨congrArg _, Except.error.inj⟩
  | .ok _, .error _ => isFalse nofun
  | .error _, .ok _ => isFalse nofun

variable {ε α β : Type}

/-- The result of a computation, if there is one, satisfies `Q`. -/
structure Ensures (x : Except ε α) (Q : α → Prop) : Prop where
  of_eq : ∀ a, x = .ok a → Q a

namespace Ensures

theorem ok {a : α} {Q : α → Prop} (h : Q a) :
  Ensures (.ok a : Except ε α) Q
  := by
  constructor
  rintro b ⟨⟩
  exact h

theorem error {e : ε} {Q : α → Prop} :
  Ensures (.error e) Q
  := by
  constructor
  rintro b ⟨⟩

/-- The result of a computation, if there is one, is its result. -/
theorem self {x : Except ε α} :
  Ensures x fun a => x = .ok a
  := ⟨fun _ => id⟩

/-- What both steps ensure together. -/
theorem bind {x : Except ε α} {f : α → Except ε β} {P : α → Prop} {Q : β → Prop}
    (first : Ensures x P) (second : ∀ a, P a → Ensures (f a) Q) :
  Ensures (x >>= f) Q
  := by
  cases x with
  | error => exact error
  | ok a => exact second a (first.of_eq a rfl)

/-- What the second step ensures whatever the result of the first one is. -/
theorem after {x : Except ε α} {f : α → Except ε β} {Q : β → Prop}
    (second : ∀ a, Ensures (f a) Q) :
  Ensures (x >>= f) Q
  := by
  cases x with
  | error => exact error
  | ok a => exact second a

theorem mono {x : Except ε α} {P Q : α → Prop} (h : Ensures x P) (imp : ∀ a, P a → Q a) :
  Ensures x Q
  := ⟨fun a eq => imp a (h.of_eq a eq)⟩

end Ensures

/-- There is a result of a computation, and it satisfies `Q`. -/
inductive Yields (x : Except ε α) (Q : α → Prop) : Prop where
  | of_eq (a : α) (eq : x = .ok a) (h : Q a) : Yields x Q

namespace Yields

theorem ok {a : α} {Q : α → Prop} (h : Q a) :
  Yields (.ok a : Except ε α) Q
  := of_eq a rfl h

theorem bind {x : Except ε α} {f : α → Except ε β} {P : α → Prop} {Q : β → Prop}
    (first : Yields x P) (second : ∀ a, P a → Yields (f a) Q) :
  Yields (x >>= f) Q
  := by
  obtain ⟨a, rfl, h⟩ := first
  exact second a h

/-- A step whose result is known yields what the next one does. -/
theorem after {x : Except ε α} {f : α → Except ε β} {a : α} {Q : β → Prop} (first : x = .ok a)
    (second : Yields (f a) Q) :
  Yields (x >>= f) Q
  := by
  rw [first]
  exact second

end Yields

/-- The failure of a computation, if it fails, satisfies `Q`. -/
structure Fails (x : Except ε α) (Q : ε → Prop) : Prop where
  of_eq : ∀ e, x = .error e → Q e

namespace Fails

theorem ok {a : α} {Q : ε → Prop} :
  Fails (.ok a) Q
  := by
  constructor
  rintro e ⟨⟩

theorem error {e : ε} {Q : ε → Prop} (h : Q e) :
  Fails (.error e : Except ε α) Q
  := by
  constructor
  rintro _ ⟨⟩
  exact h

/-- One of two steps fails; the second one only after the first one has had a result. -/
theorem bind {x : Except ε α} {f : α → Except ε β} {Q : ε → Prop} (first : Fails x Q)
    (second : ∀ a, x = .ok a → Fails (f a) Q) :
  Fails (x >>= f) Q
  := by
  cases x with
  | error e => exact error (first.of_eq e rfl)
  | ok a => exact second a rfl

theorem mono {x : Except ε α} {P Q : ε → Prop} (h : Fails x P) (imp : ∀ e, P e → Q e) :
  Fails x Q
  := ⟨fun e eq => imp e (h.of_eq e eq)⟩

end Fails

end LosslessScss
