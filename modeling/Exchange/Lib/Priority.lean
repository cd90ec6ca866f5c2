import Mathlib.Algebra.Order.Ring.Nat
import Mathlib.Data.List.Basic
import Mathlib.Data.List.Pairwise
import Mathlib.Algebra.BigOperators.Group.List.Basic

/-!
# Priority lists

Lists ordered by a key, least key first, elements of one key in the order of
their arrival. `enqueue` adds an arrival; what is queued at one key only ever
grows at its end.
-/

namespace Priority

variable {α κ : Type}

/-! ## Arrivals -/

section Enqueue

variable [LinearOrder κ] (key : α → κ)

def Ordered (l : List α) : Prop := l.Pairwise fun a b => key a ≤ key b

/-- Insert behind every element that is not worse. -/
def enqueue (x : α) : List α → List α
  | [] => [x]
  | y :: l => if key y ≤ key x then y :: enqueue x l else x :: y :: l

variable {key} {x : α} {l : List α}

theorem enqueue_perm : (enqueue key x l).Perm (x :: l) := by
  induction l with
  | nil => exact List.Perm.refl _
  | cons y l ih =>
    unfold enqueue
    split
    · exact (ih.cons y).trans (List.Perm.swap x y l)
    · exact List.Perm.refl _

theorem mem_enqueue {y : α} : y ∈ enqueue key x l ↔ y = x ∨ y ∈ l := by
  rw [enqueue_perm.mem_iff, List.mem_cons]

/-- A relation that orders the list also orders it after an arrival that it
places behind what is not worse and before what is worse. -/
theorem pairwise_enqueue {R : α → α → Prop} (hl : l.Pairwise R) (ho : Ordered key l)
    (hbehind : ∀ y ∈ l, key y ≤ key x → R y x) (hbefore : ∀ y ∈ l, key x < key y → R x y) :
    (enqueue key x l).Pairwise R := by
  induction l with
  | nil => exact List.pairwise_singleton R x
  | cons y l ih =>
    obtain ⟨hy, hl⟩ := List.pairwise_cons.1 hl
    obtain ⟨hoy, ho⟩ := List.pairwise_cons.1 ho
    unfold enqueue
    split
    · next hle =>
      refine List.pairwise_cons.2 ⟨fun z hz => ?_, ?_⟩
      · rcases mem_enqueue.1 hz with rfl | hz
        · exact hbehind y List.mem_cons_self hle
        · exact hy z hz
      · exact ih hl ho (fun z hz => hbehind z (List.mem_cons_of_mem y hz))
          fun z hz => hbefore z (List.mem_cons_of_mem y hz)
    · next hlt =>
      have hlt : key x < key y := lt_of_not_ge hlt
      refine List.pairwise_cons.2 ⟨fun z hz => ?_, List.pairwise_cons.2 ⟨hy, hl⟩⟩
      refine hbefore z hz ?_
      rcases List.mem_cons.1 hz with rfl | hz
      · exact hlt
      · exact lt_of_lt_of_le hlt (hoy z hz)

theorem ordered_enqueue (ho : Ordered key l) : Ordered key (enqueue key x l) :=
  pairwise_enqueue ho ho (fun _ _ h => h) fun _ _ h => le_of_lt h

/-- An arrival is last among the elements of its key. -/
theorem filter_enqueue {P : α → Bool} (ho : Ordered key l)
    (hP : ∀ y ∈ l, P y = true → key y ≤ key x) (hx : P x = true) :
    (enqueue key x l).filter P = l.filter P ++ [x] := by
  induction l with
  | nil => simp [enqueue, hx]
  | cons y l ih =>
    obtain ⟨hoy, ho⟩ := List.pairwise_cons.1 ho
    unfold enqueue
    split
    · have hrest := ih ho fun z hz => hP z (List.mem_cons_of_mem y hz)
      by_cases hy : P y = true
      · simp [hy, hrest]
      · simp [hy, hrest]
    · next hlt =>
      have hlt : key x < key y := lt_of_not_ge hlt
      have hnone : ∀ z ∈ y :: l, ¬P z = true := by
        intro z hz hPz
        refine absurd (hP z hz hPz) (not_le_of_gt ?_)
        rcases List.mem_cons.1 hz with rfl | hz
        · exact hlt
        · exact lt_of_lt_of_le hlt (hoy z hz)
      rw [List.filter_cons_of_pos hx, List.filter_eq_nil_iff.2 hnone]
      rfl

/-- An arrival leaves the queues of other keys alone. -/
theorem filter_enqueue_of_not {P : α → Bool} (hx : ¬P x = true) :
    (enqueue key x l).filter P = l.filter P := by
  induction l with
  | nil => simp [enqueue, hx]
  | cons y l ih =>
    unfold enqueue
    split
    · by_cases hy : P y = true
      · simp [hy, ih]
      · simp [hy, ih]
    · rw [List.filter_cons_of_neg hx]

/-- In an ordered list a property of the better keys cuts off a prefix. -/
theorem takeWhile_eq_filter {P : α → Bool} (ho : Ordered key l)
    (hP : ∀ a b, key a ≤ key b → P b = true → P a = true) : l.takeWhile P = l.filter P := by
  induction l with
  | nil => rfl
  | cons y l ih =>
    obtain ⟨hoy, ho⟩ := List.pairwise_cons.1 ho
    by_cases hy : P y = true
    · rw [List.takeWhile_cons_of_pos hy, List.filter_cons_of_pos hy, ih ho]
    · rw [List.takeWhile_cons_of_neg hy, List.filter_cons_of_neg hy,
        List.filter_eq_nil_iff.2 fun z hz hPz => hy (hP y z (hoy z hz) hPz)]

end Enqueue

/-- Of two entries of a list without repetition only one comes first. -/
theorem pair_antisymm {l : List α} (hnd : l.Nodup) {a c : α} (h : [a, c].Sublist l)
    (h' : [c, a].Sublist l) : a = c := by
  induction l with
  | nil => cases h
  | cons x l ih =>
    obtain ⟨hx, hnd⟩ := List.nodup_cons.1 hnd
    rcases List.sublist_cons_iff.1 h with hl | ⟨r, hr, -⟩
    · rcases List.sublist_cons_iff.1 h' with hl' | ⟨r', hr', -⟩
      · exact ih hnd hl hl'
      · obtain ⟨rfl, -⟩ := List.cons.inj hr'
        exact absurd (hl.subset (by simp : c ∈ [a, c])) hx
    · obtain ⟨rfl, -⟩ := List.cons.inj hr
      rcases List.sublist_cons_iff.1 h' with hl' | ⟨r', hr', -⟩
      · exact absurd (hl'.subset (by simp : a ∈ [c, a])) hx
      · exact (List.cons.inj hr').1.symm

/-- Two arrangements whose pairs come in the order of one list are the same. -/
theorem eq_of_pairs {l l' k : List α} (hnd : k.Nodup) (hperm : l.Perm l')
    (h : ∀ a c, [a, c].Sublist l → [a, c].Sublist k)
    (h' : ∀ a c, [a, c].Sublist l' → [a, c].Sublist k) : l = l' := by
  have hl : l.Pairwise fun a c => [a, c].Sublist k :=
    List.pairwise_iff_forall_sublist.2 fun hac => h _ _ hac
  have hl' : l'.Pairwise fun a c => [a, c].Sublist k :=
    List.pairwise_iff_forall_sublist.2 fun hac => h' _ _ hac
  exact List.Perm.eq_of_pairwise (fun _ _ _ _ hac hca => pair_antisymm hnd hac hca) hl hl' hperm

/-- Sorting finds the arrangement in which every element strictly precedes all later
ones. -/
theorem mergeSort_eq_of_perm {le : α → α → Bool} {l l' : List α}
    (htrans : ∀ a b c, le a b = true → le b c = true → le a c = true)
    (htotal : ∀ a b, (le a b || le b a) = true) (hperm : l.Perm l')
    (hl' : l'.Pairwise fun a b => le b a = false) : l.mergeSort le = l' := by
  have hsymm : Std.Symm fun a b => ¬(le a b = true ∧ le b a = true) :=
    ⟨fun a b h hle => h hle.symm⟩
  have hstrict : l'.Pairwise fun a b => ¬(le a b = true ∧ le b a = true) :=
    hl'.imp fun h hle => by
      rw [h] at hle
      cases hle.2
  have hanti : ∀ a b, a ∈ l' → b ∈ l' → le a b = true → le b a = true → a = b := by
    intro a b ha hb hab hba
    by_contra h
    exact hstrict.forall ha hb h ⟨hab, hba⟩
  have hmem : ∀ {a}, a ∈ l.mergeSort le → a ∈ l' := fun h =>
    hperm.mem_iff.1 (List.mem_mergeSort.1 h)
  refine List.Perm.eq_of_pairwise (fun a b ha hb => hanti a b (hmem ha) hb)
    (List.pairwise_mergeSort htrans htotal l) (hl'.imp fun {a b} h => ?_)
    ((List.mergeSort_perm l le).trans hperm)
  have := htotal a b
  rw [h, Bool.or_false] at this
  exact this

/-! ## Sums by key -/

/-- Summing key by key is summing over the elements with one of the keys. -/
theorem sum_groups [DecidableEq κ] (key : α → κ) (f : α → Nat) (l : List α) {ks : List κ}
    (hnd : ks.Nodup) :
    (ks.map fun k => ((l.filter fun a => key a = k).map f).sum).sum =
      ((l.filter fun a => key a ∈ ks).map f).sum := by
  induction ks with
  | nil => simp
  | cons k ks ih =>
    obtain ⟨hk, hnd⟩ := List.nodup_cons.1 hnd
    rw [List.map_cons, List.sum_cons, ih hnd]
    clear ih
    induction l with
    | nil => rfl
    | cons a l ih =>
      by_cases hak : key a = k
      · have hks : key a ∉ ks := hak ▸ hk
        simp only [List.filter_cons, hak, List.mem_cons, true_or, decide_true, if_true,
          List.map_cons, List.sum_cons, hk, decide_false]
        simp only [List.mem_cons] at ih
        rw [← ih]
        simp [Nat.add_assoc]
      · by_cases hks : key a ∈ ks
        · simp only [List.filter_cons, hak, hks, List.mem_cons, or_true, decide_true, if_true,
            List.map_cons, List.sum_cons, decide_false]
          simp only [List.mem_cons] at ih
          rw [← ih]
          simp [Nat.add_left_comm]
        · simpa [List.filter_cons, hak, hks] using ih

end Priority
