import Mathlib.Order.Basic

/-!
# Budgeted computations

A function that need not terminate is computed with a step budget and fails
with a designated error when the budget runs out. Raising the budget can only
turn exhaustion into an answer (`Extends`); hence every budget that yields an
answer yields the same one (`Converges.unique`).
-/

namespace Fuel

variable {ε α β : Type} {oof : ε}

/-- Sequencing of fallible computations: an answer of the whole splits. -/
theorem bind_eq_ok {x : Except ε α} {g : α → Except ε β} {r : β} :
    x >>= g = .ok r ↔ ∃ a, x = .ok a ∧ g a = .ok r := by
  cases x with
  | error e => simp [bind, Except.bind]
  | ok a => simp [bind, Except.bind]

@[simp] theorem ok_bind (a : α) (g : α → Except ε β) : (Except.ok a >>= g) = g a := rfl

@[simp] theorem error_bind (e : ε) (g : α → Except ε β) :
    (Except.error e >>= g) = Except.error e := rfl

@[simp] theorem pure_eq_ok (a : α) : (pure a : Except ε α) = .ok a := rfl

/-- `y` answers at least as much as `x`: they are equal unless `x` is out of
budget. -/
def Extends (oof : ε) (x y : Except ε α) : Prop := x = .error oof ∨ y = x

namespace Extends

theorem refl (x : Except ε α) : Extends oof x x := .inr rfl

theorem exhausted (y : Except ε α) : Extends oof (.error oof) y := .inl rfl

theorem trans {x y z : Except ε α} (hxy : Extends oof x y) (hyz : Extends oof y z) :
    Extends oof x z := by
  rcases hxy with h | rfl
  · exact .inl h
  · exact hyz

theorem eq_of_ok {x y : Except ε α} (h : Extends oof x y) {a : α} (hx : x = .ok a) :
    y = .ok a := by
  rcases h with he | he
  · rw [hx] at he
    cases he
  · rw [he, hx]

/-- Both halves of a sequence may answer more. -/
theorem bind {x y : Except ε α} {g h : α → Except ε β} (hxy : Extends oof x y)
    (hgh : ∀ a, Extends oof (g a) (h a)) : Extends oof (x >>= g) (y >>= h) := by
  rcases hxy with rfl | rfl
  · exact .inl rfl
  · cases y with
    | error e => exact .inr rfl
    | ok a => exact hgh a

end Extends

/-- The budgets of `f` agree wherever they answer. -/
def Stable (oof : ε) (f : Nat → Except ε α) : Prop := ∀ n, Extends oof (f n) (f (n + 1))

theorem Stable.le {f : Nat → Except ε α} (hf : Stable oof f) {n m : Nat} (h : n ≤ m) :
    Extends oof (f n) (f m) := by
  induction h with
  | refl => exact .refl _
  | step _ ih => exact ih.trans (hf _)

/-- Some budget yields the answer `a`. -/
def Converges (f : Nat → Except ε α) (a : α) : Prop := ∃ n, f n = .ok a

/-- A stable computation has at most one answer. -/
theorem Converges.unique {f : Nat → Except ε α} (hf : Stable oof f) {a b : α}
    (ha : Converges f a) (hb : Converges f b) : a = b := by
  obtain ⟨n, hn⟩ := ha
  obtain ⟨m, hm⟩ := hb
  rcases Nat.le_total n m with h | h
  · have := (hf.le h).eq_of_ok hn
    exact Except.ok.inj (this.symm.trans hm)
  · have := (hf.le h).eq_of_ok hm
    exact Except.ok.inj (hn.symm.trans this)

/-- A computation that converges fails at no budget for another reason than
exhaustion. -/
theorem Converges.ne_error {f : Nat → Except ε α} (hf : Stable oof f) {a : α}
    (ha : Converges f a) {e : ε} (he : e ≠ oof) (n : Nat) : f n ≠ .error e := by
  obtain ⟨m, hm⟩ := ha
  intro hn
  rcases Nat.le_total n m with h | h
  · rcases hf.le h with hx | hx
    · rw [hn] at hx
      exact he (Except.error.inj hx)
    · rw [hm, hn] at hx
      cases hx
  · have := (hf.le h).eq_of_ok hm
    rw [hn] at this
    cases this

/-- A call that answers only when another call of the same kind answers within a
smaller budget never answers. -/
theorem diverges {σ : Type} {f : Nat → σ → Except ε α} {P : σ → Prop}
    (hzero : ∀ s a, P s → f 0 s ≠ .ok a)
    (hstep : ∀ n s a, P s → f (n + 1) s = .ok a → ∃ s' a', P s' ∧ f n s' = .ok a') {s : σ}
    (hs : P s) (n : Nat) (a : α) : f n s ≠ .ok a := by
  induction n generalizing s a with
  | zero => exact hzero s a hs
  | succ n ih =>
    intro h
    obtain ⟨s', a', hs', h'⟩ := hstep n s a hs h
    exact ih hs' a' h'

end Fuel
