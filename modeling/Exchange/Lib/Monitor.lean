import Mathlib.Data.List.Induction

/-!
# Monitors

A monitor reads a trace event by event and either moves on or rejects. `run`
reads a trace; `blockStep` is the monitor of traces that are sequences of
blocks, an opening event, then inner events, then a closing event, and
`blocks_of_run` cuts an accepted trace into its blocks.
-/

namespace Monitor

variable {σ τ α β : Type}

def run (step : σ → α → Option σ) (s : σ) (l : List α) : Option σ := l.foldlM step s

variable {step : σ → α → Option σ} {s s' : σ} {l : List α}

@[simp] theorem run_nil : run step s [] = some s := rfl

theorem run_cons (a : α) (l : List α) :
    run step s (a :: l) = (step s a).bind fun s' => run step s' l := rfl

theorem run_cons_of_eq {a : α} (h : step s a = some s') : run step s (a :: l) = run step s' l := by
  rw [run_cons, h, Option.bind_some]

theorem run_append (l₁ l₂ : List α) :
    run step s (l₁ ++ l₂) = (run step s l₁).bind fun s' => run step s' l₂ :=
  List.foldlM_append ..

/-- Two accepted stretches make an accepted trace. -/
theorem run_append_of_eq {l₁ l₂ : List α} (h : run step s l₁ = some s') :
    run step s (l₁ ++ l₂) = run step s' l₂ := by
  rw [run_append, h, Option.bind_some]

/-- An accepted trace is accepted up to any point of it. -/
theorem run_append_eq_some {l₁ l₂ : List α} (h : run step s (l₁ ++ l₂) = some s') :
    ∃ t, run step s l₁ = some t ∧ run step t l₂ = some s' := by
  rw [run_append] at h
  exact Option.bind_eq_some_iff.1 h

theorem run_cons_eq_some {a : α} (h : run step s (a :: l) = some s') :
    ∃ t, step s a = some t ∧ run step t l = some s' :=
  Option.bind_eq_some_iff.1 h

/-- Events that a monitor ignores may be there or not. -/
theorem run_filter (P : α → Bool) (hP : ∀ s a, P a = false → step s a = some s) :
    run step s (l.filter P) = run step s l := by
  induction l generalizing s with
  | nil => rfl
  | cons a l ih =>
    cases h : P a with
    | true =>
      rw [List.filter_cons_of_pos h, run_cons, run_cons]
      exact congrArg _ (funext fun _ => ih)
    | false =>
      rw [List.filter_cons_of_neg (by simp [h]), ih, run_cons_of_eq (hP s a h)]

theorem run_of_ignored (hl : ∀ a ∈ l, step s a = some s) : run step s l = some s := by
  induction l with
  | nil => rfl
  | cons a l ih =>
    rw [run_cons_of_eq (hl a List.mem_cons_self)]
    exact ih fun b hb => hl b (List.mem_cons_of_mem a hb)

/-- A coarser monitor accepts what a finer one accepts. -/
theorem run_image {step' : τ → β → Option τ} (f : σ → τ) (g : α → β)
    (hstep : ∀ a ∈ l, ∀ s s', step s a = some s' → step' (f s) (g a) = some (f s'))
    (h : run step s l = some s') : run step' (f s) (l.map g) = some (f s') := by
  induction l generalizing s with
  | nil =>
    cases h
    rfl
  | cons a l ih =>
    obtain ⟨t, ht, h⟩ := run_cons_eq_some h
    rw [List.map_cons, run_cons_of_eq (hstep a List.mem_cons_self s t ht)]
    exact ih (fun b hb => hstep b (List.mem_cons_of_mem a hb)) h

/-! ## Blocks -/

section Blocks

variable (opens inner closes : α → Bool)

/-- The monitor of block sequences; the state is whether a block is open. -/
def blockStep : Bool → α → Option Bool
  | false, a => if opens a then some true else none
  | true, a => if inner a then some true else if closes a then some false else none

/-- A finished block. -/
def IsBlock (l : List α) : Prop :=
  ∃ a body c, l = a :: (body ++ [c]) ∧ opens a = true ∧ (∀ e ∈ body, inner e = true) ∧
    closes c = true

/-- A block that is not finished. -/
def IsOpenBlock (l : List α) : Prop :=
  ∃ a body, l = a :: body ∧ opens a = true ∧ ∀ e ∈ body, inner e = true

/-- **Block decomposition.** An accepted trace is a sequence of finished blocks and
an unfinished one, which is there exactly when the monitor ends open. -/
theorem blocks_of_run {s : Bool} {l : List α}
    (h : run (blockStep opens inner closes) false l = some s) :
    ∃ (blocks : List (List α)) (last : List α), l = blocks.flatten ++ last ∧
      (∀ k ∈ blocks, IsBlock opens inner closes k) ∧
      (s = false ∧ last = [] ∨ s = true ∧ IsOpenBlock opens inner last) := by
  induction l using List.reverseRecOn generalizing s with
  | nil =>
    cases h
    exact ⟨[], [], rfl, nofun, .inl ⟨rfl, rfl⟩⟩
  | append_singleton l a ih =>
    obtain ⟨t, ht, hlast⟩ := run_append_eq_some h
    obtain ⟨u, hstep, hu⟩ := run_cons_eq_some hlast
    cases hu
    obtain ⟨blocks, last, rfl, hblocks, hend⟩ := ih ht
    rcases hend with ⟨rfl, rfl⟩ | ⟨rfl, x, body, rfl, hx, hbody⟩
    · -- no block is open, so the event opens one
      have ha : opens a = true := by
        by_contra ha
        simp [blockStep, ha] at hstep
      have hs : s = true := by simpa [blockStep, ha] using hstep.symm
      exact ⟨blocks, [a], by simp, hblocks, .inr ⟨hs, a, [], rfl, ha, nofun⟩⟩
    · by_cases ha : inner a = true
      · have hs : s = true := by simpa [blockStep, ha] using hstep.symm
        refine ⟨blocks, x :: (body ++ [a]), by simp, hblocks,
          .inr ⟨hs, x, body ++ [a], rfl, hx, ?_⟩⟩
        intro e he
        rcases List.mem_append.1 he with he | he
        · exact hbody e he
        · rw [List.mem_singleton.1 he]
          exact ha
      · have hc : closes a = true := by
          by_contra hc
          simp [blockStep, ha, hc] at hstep
        have hs : s = false := by simpa [blockStep, ha, hc] using hstep.symm
        refine ⟨blocks ++ [x :: (body ++ [a])], [], by simp, ?_, .inl ⟨hs, rfl⟩⟩
        intro k hk
        rcases List.mem_append.1 hk with hk | hk
        · exact hblocks k hk
        · rw [List.mem_singleton.1 hk]
          exact ⟨x, body, a, rfl, hx, hbody, hc⟩

variable {opens inner closes}

/-- After an event that neither opens nor continues a block comes one that opens. -/
theorem opens_of_run {s s' : Bool} {l₁ l₂ : List α} {a c : α}
    (h : run (blockStep opens inner closes) s (l₁ ++ c :: a :: l₂) = some s')
    (hopens : opens c = false) (hinner : inner c = false) : opens a = true := by
  obtain ⟨t, -, h⟩ := run_append_eq_some h
  obtain ⟨u, hu, h⟩ := run_cons_eq_some h
  obtain ⟨v, hv, -⟩ := run_cons_eq_some h
  cases t with
  | false => simp [blockStep, hopens] at hu
  | true =>
    have hclosed : u = false := by
      by_cases hc : closes c = true
      · simpa [blockStep, hinner, hc] using hu.symm
      · simp [blockStep, hinner, hc] at hu
    rw [hclosed] at hv
    by_contra ha
    simp [blockStep, ha] at hv

end Blocks

end Monitor
