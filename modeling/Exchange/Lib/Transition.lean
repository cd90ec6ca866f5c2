import Mathlib.Order.Basic
import Mathlib.Data.List.Induction

/-!
# Labelled transition systems

Finite runs of a labelled step relation, grown at the end, with the rules the
proofs about them use: an invariant (which may speak about the labels so far),
a simulation, and restriction of the steps.
-/

namespace Transition

variable {σ τ ℓ : Type}

/-- `Run step s₀ ls s`: from `s₀` the labels `ls` lead to `s`. -/
inductive Run (step : σ → ℓ → σ → Prop) (s₀ : σ) : List ℓ → σ → Prop
  | nil : Run step s₀ [] s₀
  | snoc {ls : List ℓ} {s s' : σ} {l : ℓ} :
      Run step s₀ ls s → step s l s' → Run step s₀ (ls ++ [l]) s'

/-- The steps of a system whose state and label satisfy `P`. -/
def restrict (P : σ → ℓ → Prop) (step : σ → ℓ → σ → Prop) : σ → ℓ → σ → Prop :=
  fun s l s' => P s l ∧ step s l s'

namespace Run

variable {step : σ → ℓ → σ → Prop} {s₀ s s' : σ} {ls : List ℓ}

/-- What holds initially and is kept by every step from a state reached so far
holds of every run. -/
theorem invariant {I : List ℓ → σ → Prop} (hinit : I [] s₀)
    (hstep : ∀ ls s l s', Run step s₀ ls s → I ls s → step s l s' → I (ls ++ [l]) s')
    (h : Run step s₀ ls s) : I ls s := by
  induction h with
  | nil => exact hinit
  | snoc hrun hl ih => exact hstep _ _ _ _ hrun ih hl

/-- Every run is matched by a run of a system that simulates each step. -/
theorem simulate {step' : τ → ℓ → τ → Prop} {R : σ → τ → Prop} {t₀ : τ} (hinit : R s₀ t₀)
    (hstep : ∀ s t l s', R s t → step s l s' → ∃ t', step' t l t' ∧ R s' t')
    (h : Run step s₀ ls s) : ∃ t, Run step' t₀ ls t ∧ R s t := by
  induction h with
  | nil => exact ⟨t₀, .nil, hinit⟩
  | snoc _ hl ih =>
    obtain ⟨t, ht, hR⟩ := ih
    obtain ⟨t', hl', hR'⟩ := hstep _ _ _ _ hR hl
    exact ⟨t', ht.snoc hl', hR'⟩

/-- A run without steps stays where it is. -/
theorem eq_of_nil (h : Run step s₀ [] s) : s = s₀ :=
  invariant (I := fun ls s => ls = [] → s = s₀) (fun _ => rfl)
    (fun _ _ _ _ _ _ _ h => absurd h (by simp)) h rfl

/-- Folding a computed step over the labels makes a run. -/
theorem of_foldlM {step? : σ → ℓ → Option σ} (h : ls.foldlM step? s₀ = some s) :
    Run (fun s l s' => step? s l = some s') s₀ ls s := by
  induction ls using List.reverseRecOn generalizing s with
  | nil =>
    cases h
    exact .nil
  | append_singleton ls l ih =>
    rw [List.foldlM_append] at h
    obtain ⟨s₁, h₁, hl⟩ := Option.bind_eq_some_iff.1 h
    refine .snoc (ih h₁) ?_
    simpa using hl

theorem mono {step' : σ → ℓ → σ → Prop} (hstep : ∀ s l s', step s l s' → step' s l s')
    (h : Run step s₀ ls s) : Run step' s₀ ls s := by
  induction h with
  | nil => exact .nil
  | snoc _ hl ih => exact ih.snoc (hstep _ _ _ hl)

/-- When the `key` of a label determines the step, the keys determine the run. -/
theorem unique {κ : Type} {key : ℓ → κ}
    (hstep : ∀ s l s' l' s'', step s l s' → step s l' s'' → key l = key l' → l = l' ∧ s' = s'')
    (h : Run step s₀ ls s) {ls' : List ℓ} (h' : Run step s₀ ls' s')
    (hkeys : ls.map key = ls'.map key) : ls = ls' ∧ s = s' := by
  induction h generalizing ls' s' with
  | nil =>
    have hnil : ls' = [] := by simpa using hkeys.symm
    subst hnil
    exact ⟨rfl, h'.eq_of_nil.symm⟩
  | snoc _ hl ih =>
    cases h' with
    | nil => simp at hkeys
    | snoc h' hl' =>
      rw [List.map_append, List.map_append] at hkeys
      obtain ⟨hkeys, hkey⟩ := List.append_inj' hkeys rfl
      obtain ⟨rfl, rfl⟩ := ih h' hkeys
      obtain ⟨rfl, rfl⟩ := hstep _ _ _ _ _ hl hl' (List.cons.inj hkey).1
      exact ⟨rfl, rfl⟩

theorem append {ls' : List ℓ} (h : Run step s₀ ls s) (h' : Run step s ls' s') :
    Run step s₀ (ls ++ ls') s' := by
  induction h' with
  | nil => simpa using h
  | snoc _ hl ih =>
    rw [← List.append_assoc]
    exact ih.snoc hl

/-- A run passes through a state after each part of its labels. -/
theorem split {ls' : List ℓ} (h : Run step s₀ (ls ++ ls') s) :
    ∃ s₁, Run step s₀ ls s₁ ∧ Run step s₁ ls' s := by
  generalize hall : ls ++ ls' = all at h
  induction h generalizing ls' with
  | nil =>
    obtain ⟨rfl, rfl⟩ := List.append_eq_nil_iff.1 hall
    exact ⟨s₀, .nil, .nil⟩
  | snoc hrun hl ih =>
    rcases List.eq_nil_or_concat ls' with rfl | ⟨ls'', l, rfl⟩
    · rw [List.append_nil] at hall
      subst hall
      exact ⟨_, hrun.snoc hl, .nil⟩
    · rw [List.concat_eq_append, ← List.append_assoc] at hall
      obtain ⟨rfl, hlast⟩ := List.append_inj' hall rfl
      obtain ⟨rfl, -⟩ := List.cons.inj hlast
      obtain ⟨s₁, hfirst, hrest⟩ := ih rfl
      exact ⟨s₁, hfirst, by simpa using hrest.snoc hl⟩

end Run

end Transition
