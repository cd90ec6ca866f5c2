import Mathlib.Data.List.Basic
import Mathlib.Algebra.BigOperators.Group.List.Basic
import Mathlib.Algebra.Order.Ring.Nat
import Mathlib.Algebra.Order.BigOperators.Group.List

/-!
# Greedy consumption

A need is met from a list of sources, in order: each source gives what it has,
up to what is still needed, until the need is met or the next source is not
acceptable. `fills` is what each source gives and `rest` what remains.
-/

namespace Greedy

variable {α : Type} (amount : α → Nat) (ok : α → Bool)

/-- The sources used and what each gave. -/
def fills : Nat → List α → List (α × Nat)
  | _, [] => []
  | need, m :: ms =>
    if need = 0 ∨ ok m = false then []
    else (m, min need (amount m)) :: fills (need - min need (amount m)) ms

/-- The sources left: used up ones are gone, a partly used one is reduced. -/
def rest (reduce : α → Nat → α) : Nat → List α → List α
  | _, [] => []
  | need, m :: ms =>
    if need = 0 ∨ ok m = false then m :: ms
    else if amount m ≤ need then rest reduce (need - amount m) ms
    else reduce m need :: ms

def supply (l : List α) : Nat := (l.map amount).sum

/-- What has been consumed. -/
def total (fs : List (α × Nat)) : Nat := (fs.map Prod.snd).sum

variable {amount ok}

@[simp] theorem total_nil : total ([] : List (α × Nat)) = 0 := rfl

@[simp] theorem total_cons (f : α × Nat) (fs : List (α × Nat)) :
    total (f :: fs) = f.2 + total fs := by
  simp [total]

@[simp] theorem supply_nil : supply amount ([] : List α) = 0 := rfl

@[simp] theorem supply_cons (m : α) (ms : List α) :
    supply amount (m :: ms) = amount m + supply amount ms := by
  simp [supply]

@[simp] theorem fills_zero (ms : List α) : fills amount ok 0 ms = [] := by
  cases ms <;> simp [fills]

/-- The need is met as far as the acceptable supply in front goes. -/
theorem total_fills (need : Nat) (ms : List α) :
    total (fills amount ok need ms) = min need (supply amount (ms.takeWhile ok)) := by
  induction ms generalizing need with
  | nil => simp [fills]
  | cons m ms ih =>
    unfold fills
    split
    · next h =>
      rcases h with rfl | h
      · simp
      · simp [h]
    · next h =>
      obtain ⟨_, hok⟩ := not_or.1 h
      have hok : ok m = true := by simpa using hok
      rw [total_cons, ih, List.takeWhile_cons_of_pos hok, supply_cons]
      dsimp only
      omega

/-- A laxer test makes no difference when the strict one finds enough. -/
theorem fills_eq_of_enough {ok' : α → Bool} {need : Nat} {ms : List α}
    (hok : ∀ m ∈ ms, ok m = true → ok' m = true)
    (h : need ≤ supply amount (ms.takeWhile ok)) :
    fills amount ok' need ms = fills amount ok need ms := by
  induction ms generalizing need with
  | nil => rfl
  | cons m ms ih =>
    by_cases hn : need = 0
    · subst hn
      simp
    · by_cases hm : ok m = true
      · have hm' := hok m List.mem_cons_self hm
        rw [List.takeWhile_cons_of_pos hm, supply_cons] at h
        have hrest := @ih (need - min need (amount m))
          (fun r hr => hok r (List.mem_cons_of_mem m hr)) (by omega)
        simp [fills, hn, hm, hm', hrest]
      · rw [List.takeWhile_cons_of_neg hm] at h
        exact absurd h (by simpa using hn)

/-- What a lax test takes passes the strict one exactly when everything does, or when
the need is met in front of the first source that does not. -/
theorem forall_fills_iff {ok' : α → Bool} {need : Nat} {ms : List α}
    (hok : ∀ m ∈ ms, ok' m = true) :
    (∀ f ∈ fills amount ok' need ms, ok f.1 = true) ↔
      (∀ m ∈ ms, ok m = true) ∨ need ≤ supply amount (ms.takeWhile ok) := by
  induction ms generalizing need with
  | nil => simp [fills]
  | cons m ms ih =>
    have htail := @ih (need - min need (amount m)) fun r hr => hok r (List.mem_cons_of_mem m hr)
    have hm' := hok m List.mem_cons_self
    by_cases hn : need = 0
    · simp [hn]
    · have hfills : fills amount ok' need (m :: ms) =
          (m, min need (amount m)) :: fills amount ok' (need - min need (amount m)) ms := by
        rw [fills, if_neg (by simp [hn, hm'])]
      rw [hfills, List.forall_mem_cons, List.forall_mem_cons, htail]
      by_cases hm : ok m = true
      · rw [List.takeWhile_cons_of_pos hm, supply_cons]
        have hle : need - min need (amount m) ≤ supply amount (ms.takeWhile ok) ↔
            need ≤ amount m + supply amount (ms.takeWhile ok) := by omega
        simp only [hm, true_and, hle]
      · rw [List.takeWhile_cons_of_neg hm]
        simp [hm, hn]

theorem rest_eq_of_enough {ok' : α → Bool} (reduce : α → Nat → α) {need : Nat} {ms : List α}
    (hok : ∀ m ∈ ms, ok m = true → ok' m = true)
    (h : need ≤ supply amount (ms.takeWhile ok)) :
    rest amount ok' reduce need ms = rest amount ok reduce need ms := by
  induction ms generalizing need with
  | nil => rfl
  | cons m ms ih =>
    by_cases hn : need = 0
    · simp [rest, hn]
    · by_cases hm : ok m = true
      · have hm' := hok m List.mem_cons_self hm
        rw [List.takeWhile_cons_of_pos hm, supply_cons] at h
        have hrest := @ih (need - amount m)
          (fun r hr => hok r (List.mem_cons_of_mem m hr)) (by omega)
        simp [rest, hn, hm, hm', hrest]
      · rw [List.takeWhile_cons_of_neg hm] at h
        exact absurd h (by simpa using hn)

/-- Every source used gives something, and no more than it has. -/
theorem fills_bounds (hpos : ∀ m ∈ (ms : List α), 0 < amount m) {need : Nat} :
    ∀ f ∈ fills amount ok need ms, f.1 ∈ ms ∧ ok f.1 = true ∧ 0 < f.2 ∧ f.2 ≤ amount f.1 := by
  induction ms generalizing need with
  | nil => simp [fills]
  | cons m ms ih =>
    intro f hf
    unfold fills at hf
    split at hf
    · cases hf
    · next h =>
      obtain ⟨hn, hok⟩ := not_or.1 h
      rcases List.mem_cons.1 hf with rfl | hf
      · have hm := hpos m List.mem_cons_self
        exact ⟨List.mem_cons_self, by simpa using hok, by dsimp only; omega, by dsimp only; omega⟩
      · obtain ⟨hmem, hrest⟩ := ih (fun r hr => hpos r (List.mem_cons_of_mem m hr)) f hf
        exact ⟨List.mem_cons_of_mem m hmem, hrest⟩

/-! ## Groups

Sources ordered by a key: those of one key stand together, and a need may be met inside
such a group. -/

section Groups

variable {κ : Type} [LinearOrder κ] {key : α → κ}

/-- What the sources of smaller keys have. -/
def before (amount : α → Nat) (key : α → κ) (k : κ) (ms : List α) : Nat :=
  supply amount (ms.filter fun m => key m < k)

/-- What the sources of a key have. -/
def group (amount : α → Nat) (key : α → κ) (k : κ) (ms : List α) : Nat :=
  supply amount (ms.filter fun m => key m = k)

theorem before_cons (k : κ) (m : α) (ms : List α) :
    before amount key k (m :: ms) =
      (if key m < k then amount m else 0) + before amount key k ms := by
  by_cases h : key m < k <;> simp [before, h]

theorem group_cons (k : κ) (m : α) (ms : List α) :
    group amount key k (m :: ms) = (if key m = k then amount m else 0) + group amount key k ms := by
  by_cases h : key m = k <;> simp [group, h]

/-- What the sources up to a key have. -/
theorem through_cons (k : κ) (m : α) (ms : List α) :
    before amount key k (m :: ms) + group amount key k (m :: ms) =
      (if key m ≤ k then amount m else 0) + (before amount key k ms + group amount key k ms) := by
  rw [before_cons, group_cons]
  rcases lt_trichotomy (key m) k with h | h | h
  · rw [if_pos h, if_neg h.ne, if_pos h.le]
    omega
  · rw [if_neg h.not_lt, if_pos h, if_pos h.le]
    omega
  · rw [if_neg h.not_gt, if_neg h.ne', if_neg h.not_ge]
    omega

/-- Nothing is before the least key. -/
theorem before_eq_zero {k : κ} {ms : List α} (h : ∀ m ∈ ms, k ≤ key m) :
    before amount key k ms = 0 := by
  rw [before, List.filter_eq_nil_iff.2 fun m hm => by simpa using h m hm]
  rfl

theorem le_group {m : α} {ms : List α} (hm : m ∈ ms) : amount m ≤ group amount key (key m) ms :=
  List.le_sum_of_mem (List.mem_map_of_mem (List.mem_filter.2 ⟨hm, decide_eq_true rfl⟩))

theorem exists_of_group_ne_zero {k : κ} {ms : List α} (h : group amount key k ms ≠ 0) :
    ∃ m ∈ ms, key m = k := by
  have hne : ms.filter (fun m => key m = k) ≠ [] := fun e => h (by rw [group, e]; rfl)
  obtain ⟨m, hm⟩ := List.exists_mem_of_ne_nil _ hne
  exact ⟨m, (List.mem_filter.1 hm).1, of_decide_eq_true (List.mem_filter.1 hm).2⟩

variable {need : Nat} {ms : List α}
  (hord : ms.Pairwise fun a b => key a ≤ key b)
  (hok : ∀ a b, key a ≤ key b → ok b = true → ok a = true)

include hord hok

/-- A group is used when its sources are acceptable and those before it fall short. -/
theorem exists_fill_iff (k : κ) :
    (∃ f ∈ fills amount ok need ms, key f.1 = k) ↔
      ∃ m ∈ ms, key m = k ∧ ok m = true ∧ before amount key k ms < need := by
  induction ms generalizing need with
  | nil => simp [fills]
  | cons m ms ih =>
    obtain ⟨hm, hord'⟩ := List.pairwise_cons.1 hord
    have hleast : ∀ r ∈ m :: ms, key m ≤ key r := List.forall_mem_cons.2 ⟨le_refl _, hm⟩
    by_cases hstop : need = 0 ∨ ok m = false
    · rw [fills, if_pos hstop]
      refine ⟨fun ⟨_, hf, _⟩ => absurd hf List.not_mem_nil, ?_⟩
      rintro ⟨r, hr, -, hrok, hlt⟩
      have hmok := hok m r (hleast r hr) hrok
      rcases hstop with rfl | hfalse
      · omega
      · rw [hmok] at hfalse
        cases hfalse
    · obtain ⟨hn, hmok⟩ := not_or.1 hstop
      have hmok : ok m = true := by simpa using hmok
      rw [fills, if_neg hstop]
      simp only [List.mem_cons, exists_eq_or_imp]
      by_cases hk : key m = k
      · subst hk
        refine iff_of_true (.inl rfl) (.inl ⟨rfl, hmok, ?_⟩)
        rw [before_eq_zero hleast]
        omega
      · rw [ih hord', before_cons]
        constructor
        · rintro (h | ⟨r, hr, rfl, hrok, hlt⟩)
          · exact absurd h hk
          · rw [if_pos (lt_of_le_of_ne (hm r hr) hk)]
            exact .inr ⟨r, hr, rfl, hrok, by omega⟩
        · rintro (⟨h, -⟩ | ⟨r, hr, rfl, hrok, hlt⟩)
          · exact absurd h hk
          · rw [if_pos (lt_of_le_of_ne (hm r hr) hk)] at hlt
            exact .inr ⟨r, hr, rfl, hrok, by omega⟩

/-- Something of a group is left when its sources are not acceptable, or more than enough
with those before it. -/
theorem exists_rest_iff {reduce : α → Nat → α} (hreduce : ∀ m n, key (reduce m n) = key m)
    (hpos : ∀ m ∈ ms, 0 < amount m) (k : κ) :
    (∃ r ∈ rest amount ok reduce need ms, key r = k) ↔
      ∃ m ∈ ms, key m = k ∧
        (ok m = true → need < before amount key k ms + group amount key k ms) := by
  induction ms generalizing need with
  | nil => simp [rest]
  | cons m ms ih =>
    obtain ⟨hm, hord'⟩ := List.pairwise_cons.1 hord
    have hleast : ∀ r ∈ m :: ms, key m ≤ key r := List.forall_mem_cons.2 ⟨le_refl _, hm⟩
    obtain ⟨hmpos, hpos'⟩ := List.forall_mem_cons.1 hpos
    by_cases hstop : need = 0 ∨ ok m = false
    · rw [rest, if_pos hstop]
      refine exists_congr fun r => and_congr_right fun hr => (and_iff_left_of_imp ?_).symm
      rintro rfl hrok
      rcases hstop with rfl | hfalse
      · exact lt_of_lt_of_le (hpos r hr) (le_trans (le_group hr) (Nat.le_add_left _ _))
      · rw [hok m r (hleast r hr) hrok] at hfalse
        cases hfalse
    · obtain ⟨hn, hmok⟩ := not_or.1 hstop
      have hmok : ok m = true := by simpa using hmok
      have hbefore : key m = k → before amount key k (m :: ms) = 0 := fun e =>
        before_eq_zero (e ▸ hleast)
      rw [rest, if_neg hstop]
      split
      · next hle =>
        rw [ih hord' hpos']
        simp only [List.mem_cons, exists_eq_or_imp]
        constructor
        · rintro ⟨r, hr, rfl, hlt⟩
          refine .inr ⟨r, hr, rfl, fun hrok => ?_⟩
          have hlt := hlt hrok
          rw [through_cons, if_pos (hm r hr)]
          omega
        · rintro (⟨hk, hlt⟩ | ⟨r, hr, rfl, hlt⟩)
          · have hlt := hlt hmok
            rw [hbefore hk, group_cons, if_pos hk] at hlt
            obtain ⟨r, hr, hrk⟩ := exists_of_group_ne_zero (show group amount key k ms ≠ 0 by omega)
            exact ⟨r, hr, hrk, fun _ => by omega⟩
          · refine ⟨r, hr, rfl, fun hrok => ?_⟩
            have hlt := hlt hrok
            rw [through_cons, if_pos (hm r hr)] at hlt
            omega
      · next hgt =>
        simp only [List.mem_cons, exists_eq_or_imp, hreduce]
        constructor
        · rintro (hk | ⟨r, hr, rfl⟩)
          · refine .inl ⟨hk, fun _ => ?_⟩
            rw [through_cons, if_pos hk.le]
            omega
          · refine .inr ⟨r, hr, rfl, fun _ => ?_⟩
            rw [through_cons, if_pos (hm r hr)]
            omega
        · rintro (⟨hk, -⟩ | ⟨r, hr, hk, -⟩)
          · exact .inl hk
          · exact .inr ⟨r, hr, hk⟩

end Groups
end Greedy
