/-
  Computations that may fail, taken apart: when a sequence or a guarded value succeeds.
-/
import Mathlib.Tactic

namespace Fallible

variable {ε α β : Type}

theorem bind_eq_ok {x : Except ε α} {f : α → Except ε β} {b : β} :
    (x >>= f) = .ok b ↔ ∃ a, x = .ok a ∧ f a = .ok b := by
  cases x with
  | error e => simp [bind, Except.bind]
  | ok a => simp [bind, Except.bind]

theorem ite_eq_ok {p : Prop} [Decidable p] {a b : α} {e : ε} :
    (if p then Except.ok a else .error e) = .ok b ↔ p ∧ b = a := by
  split_ifs with h
  · simp only [Except.ok.injEq, h, true_and, eq_comm]
  · simp only [h, false_and]

/-- A guard in front of the rest: it was passed. -/
theorem guard_eq_ok {p : Prop} [Decidable p] {e : ε} {rest : Except ε α} {b : α} :
    (if p then .error e else rest) = .ok b ↔ ¬ p ∧ rest = .ok b := by
  split_ifs with h
  · simp [h]
  · simp [h]

end Fallible
