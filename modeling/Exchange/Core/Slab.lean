import Mathlib.Data.List.Nodup

/-!
# The arena

`slab::Slab` as the book uses it: a store addressed by slot numbers that are
handed out by the slab and reused after a removal. Which vacant slot an
insertion takes is the slab's own choice, so the book is modelled over any
`Slab`; `VecSlab` is the crate's documented one, a vector of entries with a
stack of vacated slots.
-/

namespace Exchange

/-- A slab of `α`s. `remove` and `set` (a write through `IndexMut`) are
specified on occupied slots only: on a vacant one the crate panics. -/
class Slab (S : Type) (α : outParam Type) where
  new : S
  get? : S → Nat → Option α
  vacantKey : S → Nat
  insert : S → α → S
  remove : S → Nat → S
  set : S → Nat → α → S
  get?_new : ∀ k, get? new k = none
  get?_vacantKey : ∀ s, get? s (vacantKey s) = none
  get?_insert : ∀ s a k, get? (insert s a) k = if k = vacantKey s then some a else get? s k
  get?_remove : ∀ s k j, (get? s k).isSome →
    get? (remove s k) j = if j = k then none else get? s j
  get?_set : ∀ s k a j, (get? s k).isSome →
    get? (set s k a) j = if j = k then some a else get? s j

/-- The slot vacated last is handed out first. -/
class LifoSlab (S : Type) (α : outParam Type) [Slab S α] : Prop where
  vacantKey_remove : ∀ (s : S) k, (Slab.get? s k).isSome → Slab.vacantKey (Slab.remove s k) = k

/-- Vacant slots are kept on a stack: an insertion pops one, a removal pushes its
own. `vacant` names them from the top. -/
class StackSlab (S : Type) (α : outParam Type) [Slab S α] where
  vacant : S → Nat → Nat
  vacant_zero : ∀ s, vacant s 0 = Slab.vacantKey s
  vacant_inj : ∀ s i j, vacant s i = vacant s j → i = j
  get?_vacant : ∀ s i, Slab.get? s (vacant s i) = none
  vacant_insert : ∀ s a i, vacant (Slab.insert s a) i = vacant s (i + 1)
  vacant_remove_zero : ∀ s k, (Slab.get? s k).isSome → vacant (Slab.remove s k) 0 = k
  vacant_remove_succ : ∀ s k i, (Slab.get? s k).isSome →
    vacant (Slab.remove s k) (i + 1) = vacant s i
  vacant_set : ∀ s k a i, (Slab.get? s k).isSome → vacant (Slab.set s k a) i = vacant s i

/-- The crate's slab: the entries and the stack of vacated slots. -/
structure VecSlab (α : Type) where
  entries : List (Option α)
  free : List Nat
  free_vacant : ∀ k ∈ free, entries[k]? = some none
  free_nodup : free.Nodup

namespace VecSlab

variable {α : Type}

def new : VecSlab α := ⟨[], [], by simp, List.nodup_nil⟩

def get? (s : VecSlab α) (k : Nat) : Option α := s.entries[k]?.join

/-- The slot the next insertion takes: the one vacated last, or a new one. -/
def vacantKey (s : VecSlab α) : Nat := s.free.headD s.entries.length

def insert (s : VecSlab α) (a : α) : VecSlab α :=
  match hf : s.free with
  | [] => ⟨s.entries ++ [some a], [], by simp, List.nodup_nil⟩
  | k :: rest =>
    ⟨s.entries.set k (some a), rest, by
      intro j hj
      have hnd : (k :: rest).Nodup := hf ▸ s.free_nodup
      have hkj : k ≠ j := fun e => (List.nodup_cons.1 hnd).1 (e ▸ hj)
      rw [List.getElem?_set_ne hkj]
      exact s.free_vacant j (hf ▸ List.mem_cons_of_mem k hj),
      (List.nodup_cons.1 (hf ▸ s.free_nodup)).2⟩

def remove (s : VecSlab α) (k : Nat) : VecSlab α :=
  if h : (s.get? k).isSome then
    ⟨s.entries.set k none, k :: s.free, by
      have hk : k < s.entries.length := by
        by_contra hk
        simp [get?, List.getElem?_eq_none (Nat.le_of_not_lt hk)] at h
      intro j hj
      by_cases hkj : k = j
      · subst hkj
        simp [hk]
      · rw [List.getElem?_set_ne hkj]
        exact s.free_vacant j ((List.mem_cons.1 hj).resolve_left (Ne.symm hkj)), by
      refine List.nodup_cons.2 ⟨fun hk => ?_, s.free_nodup⟩
      simp [get?, s.free_vacant k hk] at h⟩
  else s

def set (s : VecSlab α) (k : Nat) (a : α) : VecSlab α :=
  if h : (s.get? k).isSome then
    ⟨s.entries.set k (some a), s.free, by
      intro j hj
      have hkj : k ≠ j := by
        rintro rfl
        simp [get?, s.free_vacant k hj] at h
      rw [List.getElem?_set_ne hkj]
      exact s.free_vacant j hj, s.free_nodup⟩
  else s

theorem lt_length_of_get? {s : VecSlab α} {k : Nat} (h : (s.get? k).isSome) :
    k < s.entries.length := by
  by_contra hk
  simp [get?, List.getElem?_eq_none (Nat.le_of_not_lt hk)] at h

theorem get?_vacantKey (s : VecSlab α) : s.get? s.vacantKey = none := by
  unfold vacantKey get?
  cases hf : s.free with
  | nil => simp
  | cons k rest => simp [s.free_vacant k (hf ▸ List.mem_cons_self)]

theorem get?_insert (s : VecSlab α) (a : α) (k : Nat) :
    (s.insert a).get? k = if k = s.vacantKey then some a else s.get? k := by
  unfold insert get?
  split
  · next hf =>
    have hkey : s.vacantKey = s.entries.length := by rw [vacantKey, hf, List.headD_nil]
    rw [hkey]
    by_cases hk : k < s.entries.length
    · simp [List.getElem?_append_left hk, Nat.ne_of_lt hk]
    · by_cases he : k = s.entries.length
      · simp [he]
      · have hk' : s.entries.length + 1 ≤ k := by omega
        rw [if_neg he, List.getElem?_eq_none (by simpa using hk'),
          List.getElem?_eq_none (by omega)]
  · next j rest hf =>
    have hkey : s.vacantKey = j := by rw [vacantKey, hf, List.headD_cons]
    have hj : j < s.entries.length := by
      have := s.free_vacant j (hf ▸ List.mem_cons_self)
      exact (List.getElem?_eq_some_iff.1 this).1
    rw [hkey]
    by_cases hk : k = j
    · subst hk
      simp [hj]
    · simp [List.getElem?_set_ne (Ne.symm hk), hk]

theorem get?_remove (s : VecSlab α) (k j : Nat) (h : (s.get? k).isSome) :
    (s.remove k).get? j = if j = k then none else s.get? j := by
  unfold remove
  rw [dif_pos h]
  have hk := lt_length_of_get? h
  by_cases hj : j = k
  · subst hj
    simp [get?, hk]
  · simp [get?, List.getElem?_set_ne (Ne.symm hj), hj]

theorem get?_set (s : VecSlab α) (k : Nat) (a : α) (j : Nat) (h : (s.get? k).isSome) :
    (s.set k a).get? j = if j = k then some a else s.get? j := by
  unfold set
  rw [dif_pos h]
  have hk := lt_length_of_get? h
  by_cases hj : j = k
  · subst hj
    simp [get?, hk]
  · simp [get?, List.getElem?_set_ne (Ne.symm hj), hj]

instance : Slab (VecSlab α) α where
  new := new
  get? := get?
  vacantKey := vacantKey
  insert := insert
  remove := remove
  set := set
  get?_new := fun k => by simp [get?, new]
  get?_vacantKey := get?_vacantKey
  get?_insert := get?_insert
  get?_remove := get?_remove
  get?_set := get?_set

/-- The `i`-th slot the next insertions take: the vacated ones, then new ones. -/
def vacant (s : VecSlab α) (i : Nat) : Nat :=
  s.free[i]?.getD (s.entries.length + (i - s.free.length))

theorem vacant_of_lt {s : VecSlab α} {i : Nat} (h : i < s.free.length) :
    s.vacant i = s.free[i] := by
  simp [vacant, h]

theorem vacant_of_ge {s : VecSlab α} {i : Nat} (h : s.free.length ≤ i) :
    s.vacant i = s.entries.length + (i - s.free.length) := by
  simp [vacant, h]

theorem lt_length_of_free {s : VecSlab α} {i : Nat} (h : i < s.free.length) :
    s.free[i] < s.entries.length :=
  (List.getElem?_eq_some_iff.1 (s.free_vacant _ (List.getElem_mem h))).1

theorem vacant_inj (s : VecSlab α) (i j : Nat) (h : s.vacant i = s.vacant j) : i = j := by
  rcases Nat.lt_or_ge i s.free.length with hi | hi
  · rw [vacant_of_lt hi] at h
    rcases Nat.lt_or_ge j s.free.length with hj | hj
    · rw [vacant_of_lt hj] at h
      exact (List.Nodup.getElem_inj_iff s.free_nodup).1 h
    · rw [vacant_of_ge hj] at h
      have := lt_length_of_free hi
      omega
  · rw [vacant_of_ge hi] at h
    rcases Nat.lt_or_ge j s.free.length with hj | hj
    · rw [vacant_of_lt hj] at h
      have := lt_length_of_free hj
      omega
    · rw [vacant_of_ge hj] at h
      omega

theorem get?_vacant (s : VecSlab α) (i : Nat) : s.get? (s.vacant i) = none := by
  rcases Nat.lt_or_ge i s.free.length with hi | hi
  · rw [vacant_of_lt hi, get?, s.free_vacant _ (List.getElem_mem hi)]
    rfl
  · rw [vacant_of_ge hi, get?, List.getElem?_eq_none (Nat.le_add_right _ _)]
    rfl

theorem vacant_insert (s : VecSlab α) (a : α) (i : Nat) :
    (s.insert a).vacant i = s.vacant (i + 1) := by
  unfold insert
  split
  · next hf =>
    simp only [vacant, hf, List.length_append, List.length_nil, List.length_singleton,
      List.getElem?_nil, Option.getD_none]
    omega
  · next k rest hf =>
    simp only [vacant, hf, List.length_set, List.length_cons, List.getElem?_cons_succ]
    congr 1
    omega

theorem vacant_remove_zero (s : VecSlab α) (k : Nat) (h : (s.get? k).isSome) :
    (s.remove k).vacant 0 = k := by
  unfold remove
  rw [dif_pos h]
  rfl

theorem vacant_remove_succ (s : VecSlab α) (k i : Nat) (h : (s.get? k).isSome) :
    (s.remove k).vacant (i + 1) = s.vacant i := by
  unfold remove
  rw [dif_pos h]
  simp only [vacant, List.length_set, List.length_cons, List.getElem?_cons_succ]
  congr 1
  omega

theorem vacant_set (s : VecSlab α) (k : Nat) (a : α) (i : Nat) (h : (s.get? k).isSome) :
    (s.set k a).vacant i = s.vacant i := by
  unfold set
  rw [dif_pos h]
  simp [vacant]

instance : StackSlab (VecSlab α) α where
  vacant := vacant
  vacant_zero := fun s => by
    cases hf : s.free with
    | nil => simp [vacant, Slab.vacantKey, vacantKey, hf]
    | cons k rest => simp [vacant, Slab.vacantKey, vacantKey, hf]
  vacant_inj := vacant_inj
  get?_vacant := get?_vacant
  vacant_insert := vacant_insert
  vacant_remove_zero := vacant_remove_zero
  vacant_remove_succ := vacant_remove_succ
  vacant_set := vacant_set

instance : LifoSlab (VecSlab α) α where
  vacantKey_remove s k h := by
    have h : (s.get? k).isSome := h
    change (remove s k).vacantKey = k
    unfold remove
    rw [dif_pos h]
    rfl

end VecSlab

end Exchange
