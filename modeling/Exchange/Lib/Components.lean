import Mathlib.Logic.Function.Basic
import Exchange.Lib.Transition

/-!
# Independent components

A system of components that share nothing: every label is routed to one component and
moves only that one. What such a system does depends on the labels of each component
alone and not on how they interleave.
-/

namespace Transition

variable {ι σ ℓ : Type} [DecidableEq ι]

/-- A step of the component that a label is routed to. -/
def Components (route : ℓ → ι) (step : σ → ℓ → σ → Prop) (ss : ι → σ) (l : ℓ) (ss' : ι → σ) :
    Prop :=
  ∃ s', step (ss (route l)) l s' ∧ ss' = Function.update ss (route l) s'

/-- The labels of one component. -/
def routed (route : ℓ → ι) (i : ι) (ls : List ℓ) : List ℓ := ls.filter fun l => route l = i

section Routed

variable {route : ℓ → ι} {i : ι}

@[simp] theorem routed_nil : routed route i [] = [] := rfl

@[simp] theorem routed_append (ls ls' : List ℓ) :
    routed route i (ls ++ ls') = routed route i ls ++ routed route i ls' :=
  List.filter_append ..

@[simp] theorem routed_singleton_self (l : ℓ) : routed route (route l) [l] = [l] :=
  List.filter_cons_of_pos (by simp)

theorem routed_singleton_of_ne {l : ℓ} (h : route l ≠ i) : routed route i [l] = [] :=
  List.filter_cons_of_neg (by simpa using h)

end Routed

/-- A run over one label is a step. -/
theorem Run.of_singleton {step : σ → ℓ → σ → Prop} {s s' : σ} {l : ℓ}
    (h : Run step s [l] s') : step s l s' := by
  generalize hls : [l] = ls at h
  cases h with
  | nil => cases hls
  | snoc hrun hl =>
    rw [← List.nil_append [l]] at hls
    obtain ⟨rfl, hlast⟩ := List.append_inj' hls rfl
    obtain ⟨rfl, -⟩ := List.cons.inj hlast
    rwa [hrun.eq_of_nil] at hl

/-- A run begins with a step. -/
theorem Run.of_cons {step : σ → ℓ → σ → Prop} {s s' : σ} {l : ℓ} {ls : List ℓ}
    (h : Run step s (l :: ls) s') : ∃ s₁, step s l s₁ ∧ Run step s₁ ls s' := by
  rw [← List.singleton_append] at h
  obtain ⟨s₁, hfirst, hrest⟩ := h.split
  exact ⟨s₁, hfirst.of_singleton, hrest⟩

/-- **Components run on their own.** A run of the system is a run of each component
over the labels routed to it. -/
theorem run_components_iff {route : ℓ → ι} {step : σ → ℓ → σ → Prop} {ss ss' : ι → σ}
    {ls : List ℓ} :
    Run (Components route step) ss ls ss' ↔ ∀ i, Run step (ss i) (routed route i ls) (ss' i) := by
  constructor
  · intro h i
    refine h.invariant (I := fun ls ss' => Run step (ss i) (routed route i ls) (ss' i)) .nil ?_
    rintro ls ss₁ l ss₂ - ih ⟨s', hl, rfl⟩
    rw [routed_append]
    by_cases hi : route l = i
    · subst hi
      rw [routed_singleton_self, Function.update_self]
      exact ih.snoc hl
    · rw [routed_singleton_of_ne hi, List.append_nil, Function.update_of_ne (Ne.symm hi)]
      exact ih
  · intro h
    induction ls using List.reverseRecOn generalizing ss' with
    | nil =>
      obtain rfl : ss' = ss := funext fun i => (h i).eq_of_nil
      exact .nil
    | append_singleton ls l ih =>
      -- the last label takes its component from `s₁` to where it ends
      have hlast := h (route l)
      rw [routed_append, routed_singleton_self] at hlast
      obtain ⟨s₁, hfirst, hstep⟩ := hlast.split
      have hrun : Run (Components route step) ss ls (Function.update ss' (route l) s₁) := by
        refine ih fun i => ?_
        by_cases hi : i = route l
        · subst hi
          rw [Function.update_self]
          exact hfirst
        · have hrest := h i
          rw [routed_append, routed_singleton_of_ne (Ne.symm hi), List.append_nil] at hrest
          rw [Function.update_of_ne hi]
          exact hrest
      refine hrun.snoc ⟨ss' (route l), ?_, ?_⟩
      · rw [Function.update_self]
        exact hstep.of_singleton
      · rw [Function.update_idem, Function.update_eq_self]

end Transition
