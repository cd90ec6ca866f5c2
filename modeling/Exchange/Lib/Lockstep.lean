import Mathlib.Logic.Basic

/-!
# Computations in lockstep

Two fallible computations proceed in lockstep when they fail together, and
return related results when they return. The rules are those of a relational
program logic: one for each way of putting computations together.
-/

variable {ε ε' α α' β β' : Type}

/-- Both fail, or both return and `P` holds of what they return. -/
inductive Lockstep (P : α → β → Prop) : Except ε α → Except ε' β → Prop
  | ok {a : α} {b : β} : P a b → Lockstep P (.ok a) (.ok b)
  | error (e : ε) (e' : ε') : Lockstep P (.error e) (.error e')

namespace Lockstep

variable {P : α → β → Prop} {Q : α' → β' → Prop} {x : Except ε α} {y : Except ε' β}

theorem bind {f : α → Except ε α'} {g : β → Except ε' β'} (h : Lockstep P x y)
    (hfg : ∀ a b, P a b → Lockstep Q (f a) (g b)) : Lockstep Q (x >>= f) (y >>= g) := by
  cases h with
  | ok hab => exact hfg _ _ hab
  | error e e' => exact .error e e'

theorem ite {c c' : Prop} [Decidable c] [Decidable c'] {x' : Except ε α} {y' : Except ε' β}
    (hc : c' ↔ c) (h : c → Lockstep P x y) (h' : ¬c → Lockstep P x' y') :
    Lockstep P (if c then x else x') (if c' then y else y') := by
  by_cases hx : c
  · rw [if_pos hx, if_pos (hc.2 hx)]
    exact h hx
  · rw [if_neg hx, if_neg fun hy => hx (hc.1 hy)]
    exact h' hx

/-- An answer of the first is matched by the second. -/
theorem answer (h : Lockstep P x y) {a : α} (hx : x = .ok a) : ∃ b, y = .ok b ∧ P a b := by
  cases h with
  | ok hab =>
    cases hx
    exact ⟨_, rfl, hab⟩
  | error e e' => cases hx

/-- An answer of the second is matched by the first. -/
theorem answer_right (h : Lockstep P x y) {b : β} (hy : y = .ok b) : ∃ a, x = .ok a ∧ P a b := by
  cases h with
  | ok hab =>
    cases hy
    exact ⟨_, rfl, hab⟩
  | error e e' => cases hy

end Lockstep
