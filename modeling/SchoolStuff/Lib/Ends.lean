import Mathlib.Tactic.Common

/-!
# Ends — computations that may fail in an allowed way

`Ends allowed x P` says that `x` fails with an allowed error, or returns a
value of `P`: no other error is reachable. There is a rule for each way to
put computations together.
-/

namespace SchoolStuff

variable {ε γ : Type*} {α β : Type}

/-- `x` ends in a value of `P`, or in an allowed error. -/
def Ends (allowed : ε → Prop) (x : Except ε α) (P : α → Prop) : Prop :=
  match x with
  | .ok a => P a
  | .error e => allowed e

namespace Ends

variable {allowed : ε → Prop} {x : Except ε α} {P Q : α → Prop}

theorem ok {a : α} (h : P a) : Ends allowed (.ok a : Except ε α) P := h

theorem of_ok {a : α} (h : Ends allowed x P) (hx : x = .ok a) : P a := by
  rw [hx] at h
  exact h

theorem mono (h : Ends allowed x P) (hPQ : ∀ a, P a → Q a) : Ends allowed x Q := by
  cases x with
  | error e => exact h
  | ok a => exact hPQ a h

/-- More errors are allowed. -/
theorem allow {allowed' : ε → Prop} (h : Ends allowed x P)
    (hall : ∀ e, allowed e → allowed' e) : Ends allowed' x P := by
  cases x with
  | error e => exact hall e h
  | ok a => exact h

theorem map {f : α → β} {R : β → Prop} (h : Ends allowed x fun a => R (f a)) :
    Ends allowed (x.map f) R := by
  cases x with
  | error e => exact h
  | ok a => exact h

theorem mapError {ε' : Type*} {g : ε → ε'} {allowed' : ε' → Prop}
    (h : Ends (fun e => allowed' (g e)) x P) : Ends allowed' (x.mapError g) P := by
  cases x with
  | error e => exact h
  | ok a => exact h

/-- One computation after the other. -/
theorem bind {f : α → Except ε β} {R : β → Prop} (h : Ends allowed x P)
    (hf : ∀ a, P a → Ends allowed (f a) R) : Ends allowed (x >>= f) R := by
  cases x with
  | error e => exact h
  | ok a => exact hf a h

/-- A loop over a list, with an invariant over what is done and what is left. -/
theorem foldlM {f : β → γ → Except ε β} {l : List γ} (I : List γ → β → Prop)
    (hstep : ∀ c rest b, I (c :: rest) b → Ends allowed (f b c) (I rest)) {b : β}
    (h : I l b) : Ends allowed (l.foldlM f b) (I []) := by
  induction l generalizing b with
  | nil => exact h
  | cons c rest ih =>
      rw [List.foldlM_cons]
      exact Ends.bind (hstep c rest b h) fun b' h' => ih h'

/-- Without the allowed errors there is a result. -/
theorem exists_ok (h : Ends allowed x P) (hx : ∀ e, allowed e → x ≠ .error e) :
    ∃ a, x = .ok a ∧ P a := by
  cases x with
  | error e => exact absurd rfl (hx e h)
  | ok a => exact ⟨a, rfl, h⟩

/-- A check that the result of a computation passes. -/
theorem exists_of_check [DecidablePred P]
    (h : (match x with | .ok a => decide (P a) | .error _ => false) = true) :
    ∃ a, x = .ok a ∧ P a := by
  cases x with
  | error e => cases h
  | ok a => exact ⟨a, rfl, of_decide_eq_true h⟩

end Ends

end SchoolStuff
