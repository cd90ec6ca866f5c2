import Std.Data.ExtTreeMap
import Mathlib.Data.List.Forall2
import Mathlib.Data.List.Induction
import Mathlib.Logic.Function.Basic

/-!
# Ordered maps

Lookup lemmas for `Std.ExtTreeMap` stated with equality of keys, the first entry of
an ordered map: the one an iterator yields before all others, and the greatest of a
list of keys.
-/

namespace OrderedMap

open Std

variable {κ ν : Type} {cmp : κ → κ → Ordering} [TransCmp cmp]

theorem nodup_keys [LawfulEqCmp cmp] (m : ExtTreeMap κ ν cmp) : m.keys.Nodup := by
  refine (ExtTreeMap.distinct_keys (t := m)).imp fun {a b} h => ?_
  rintro rfl
  exact h (LawfulEqCmp.compare_eq_iff_eq.2 rfl)

/-- The entry with the least key, `iter().next()`. -/
def first? (m : ExtTreeMap κ ν cmp) : Option (κ × ν) := m.toList.head?

variable [LawfulEqCmp cmp]

theorem getElem?_insert [DecidableEq κ] (m : ExtTreeMap κ ν cmp) (k a : κ) (v : ν) :
    (m.insert k v)[a]? = if a = k then some v else m[a]? := by
  rw [ExtTreeMap.getElem?_insert]
  by_cases h : a = k
  · rw [if_pos h, if_pos (LawfulEqCmp.compare_eq_iff_eq.2 h.symm)]
  · rw [if_neg h, if_neg fun e => h (LawfulEqCmp.eq_of_compare e).symm]

theorem getElem?_erase [DecidableEq κ] (m : ExtTreeMap κ ν cmp) (k a : κ) :
    (m.erase k)[a]? = if a = k then none else m[a]? := by
  rw [ExtTreeMap.getElem?_erase]
  by_cases h : a = k
  · rw [if_pos h, if_pos (LawfulEqCmp.compare_eq_iff_eq.2 h.symm)]
  · rw [if_neg h, if_neg fun e => h (LawfulEqCmp.eq_of_compare e).symm]

theorem getElem?_modify [DecidableEq κ] (m : ExtTreeMap κ ν cmp) (k a : κ) (f : ν → ν) :
    (m.modify k f)[a]? = if a = k then m[k]?.map f else m[a]? := by
  rw [ExtTreeMap.getElem?_modify]
  by_cases h : a = k
  · rw [if_pos h, if_pos (LawfulEqCmp.compare_eq_iff_eq.2 h.symm)]
  · rw [if_neg h, if_neg fun e => h (LawfulEqCmp.eq_of_compare e).symm]

/-- The lookup function after an insertion. -/
theorem lookup_insert [DecidableEq κ] (m : ExtTreeMap κ ν cmp) (k : κ) (v : ν) :
    (fun a => (m.insert k v)[a]?) = Function.update (fun a => m[a]?) k (some v) := by
  funext a
  rw [getElem?_insert, Function.update_apply]

/-- The lookup function after a removal. -/
theorem lookup_erase [DecidableEq κ] (m : ExtTreeMap κ ν cmp) (k : κ) :
    (fun a => (m.erase k)[a]?) = Function.update (fun a => m[a]?) k none := by
  funext a
  rw [getElem?_erase, Function.update_apply]

theorem getElem?_filter (m : ExtTreeMap κ ν cmp) (f : κ → Bool) (k : κ) :
    (m.filter fun k _ => f k)[k]? = if f k then m[k]? else none := by
  rw [ExtTreeMap.getElem?_filter]
  simp only [ExtTreeMap.getKey_eq]
  generalize m[k]? = o
  cases o with
  | none => simp
  | some v => cases f k <;> rfl

theorem mem_toList_iff {m : ExtTreeMap κ ν cmp} {k : κ} {v : ν} :
    (k, v) ∈ m.toList ↔ m[k]? = some v :=
  ExtTreeMap.mem_toList_iff_getElem?_eq_some

theorem first?_eq_none_iff {m : ExtTreeMap κ ν cmp} :
    first? m = none ↔ ∀ k : κ, m[k]? = none := by
  unfold first?
  rw [List.head?_eq_none_iff]
  constructor
  · intro h k
    cases hv : m[k]? with
    | none => rfl
    | some v =>
      have hm : (k, v) ∈ m.toList := mem_toList_iff.2 hv
      rw [h] at hm
      cases hm
  · intro h
    refine List.eq_nil_iff_forall_not_mem.2 fun e he => ?_
    have hv := mem_toList_iff.1 (show (e.1, e.2) ∈ m.toList from he)
    rw [h] at hv
    cases hv

/-- The first entry is an entry, and no key precedes its key. -/
theorem first?_spec {m : ExtTreeMap κ ν cmp} {k : κ} {v : ν} (h : first? m = some (k, v)) :
    m[k]? = some v ∧ ∀ k' v', m[k']? = some v' → k' = k ∨ cmp k k' = .lt := by
  unfold first? at h
  obtain ⟨es, hes⟩ := List.head?_eq_some_iff.1 h
  have hsorted := ExtTreeMap.ordered_keys_toList (t := m)
  rw [hes] at hsorted
  refine ⟨mem_toList_iff.1 (hes ▸ List.mem_cons_self), ?_⟩
  intro k' v' h'
  have hm : (k', v') ∈ m.toList := mem_toList_iff.2 h'
  rw [hes] at hm
  rcases List.mem_cons.1 hm with he | hm
  · exact .inl (congrArg Prod.fst he)
  · exact .inr ((List.pairwise_cons.1 hsorted).1 _ hm)

/-- An entry that no other key precedes is the first one. -/
theorem first?_eq_some {m : ExtTreeMap κ ν cmp} {k : κ} {v : ν} (hv : m[k]? = some v)
    (hmin : ∀ k' v', m[k']? = some v' → k' = k ∨ cmp k k' = .lt) : first? m = some (k, v) := by
  cases hf : first? m with
  | none =>
    rw [first?_eq_none_iff] at hf
    rw [hf] at hv
    cases hv
  | some e =>
    obtain ⟨k', v'⟩ := e
    obtain ⟨hv', hmin'⟩ := first?_spec hf
    have hk : k' = k := by
      rcases hmin k' v' hv' with h | h
      · exact h
      · rcases hmin' k v hv with h' | h'
        · exact h'.symm
        · have hswap : cmp k k' = (cmp k' k).swap := OrientedCmp.eq_swap
          rw [h, h'] at hswap
          cases hswap
    subst hk
    rw [hv] at hv'
    cases hv'
    rfl

/-! ## Related maps -/

section Related

variable {ν' : Type} {P : ν → ν' → Prop} {m : ExtTreeMap κ ν cmp} {m' : ExtTreeMap κ ν' cmp}

/-- Maps with the same keys list them alike. -/
theorem keys_eq (h : ∀ k : κ, (m[k]?).isSome = (m'[k]?).isSome) :
    m.toList.map Prod.fst = m'.toList.map Prod.fst := by
  have hmem : ∀ k, k ∈ m.toList.map Prod.fst ↔ k ∈ m'.toList.map Prod.fst := fun k => by
    rw [ExtTreeMap.map_fst_toList_eq_keys, ExtTreeMap.map_fst_toList_eq_keys,
      ExtTreeMap.mem_keys, ExtTreeMap.mem_keys, ExtTreeMap.mem_iff_isSome_getElem?,
      ExtTreeMap.mem_iff_isSome_getElem?, h]
  have hnodup : (m.toList.map Prod.fst).Nodup := by
    rw [ExtTreeMap.map_fst_toList_eq_keys]
    exact nodup_keys m
  have hnodup' : (m'.toList.map Prod.fst).Nodup := by
    rw [ExtTreeMap.map_fst_toList_eq_keys]
    exact nodup_keys m'
  have hasymm : ∀ a b, cmp a b = .lt → cmp b a = .lt → a = b := fun a b hab hba => by
    have hswap : cmp a b = (cmp b a).swap := OrientedCmp.eq_swap
    rw [hab, hba] at hswap
    cases hswap
  have hsorted : (m.toList.map Prod.fst).Pairwise fun a b => cmp a b = .lt :=
    List.pairwise_map.2 ExtTreeMap.ordered_keys_toList
  have hsorted' : (m'.toList.map Prod.fst).Pairwise fun a b => cmp a b = .lt :=
    List.pairwise_map.2 ExtTreeMap.ordered_keys_toList
  exact List.Perm.eq_of_pairwise (fun a b _ _ => hasymm a b) hsorted hsorted'
    ((List.perm_ext_iff_of_nodup hnodup hnodup').2 hmem)

/-- Maps that are related key by key are related entry by entry. -/
theorem forall₂_toList (h : ∀ k : κ, Option.Rel P m[k]? m'[k]?) :
    List.Forall₂ (fun e e' => e.1 = e'.1 ∧ P e.2 e'.2) m.toList m'.toList := by
  have hkeys : m.toList.map Prod.fst = m'.toList.map Prod.fst := keys_eq fun k => by
    cases hk : m[k]? with
    | none =>
      have hrel := h k
      rw [hk] at hrel
      generalize m'[k]? = v at hrel
      cases hrel
      rfl
    | some v =>
      have hrel := h k
      rw [hk] at hrel
      generalize m'[k]? = v at hrel
      cases hrel
      rfl
  have hfst : List.Forall₂ (fun e e' => e.1 = e'.1) m.toList m'.toList := by
    have heq : List.Forall₂ (· = ·) (m.toList.map Prod.fst) (m'.toList.map Prod.fst) := by
      rw [hkeys]
      exact List.forall₂_refl _
    exact List.forall₂_map_right_iff.1 (List.forall₂_map_left_iff.1 heq)
  obtain ⟨hlen, hfst⟩ := List.forall₂_iff_zip.1 hfst
  refine List.forall₂_iff_zip.2 ⟨hlen, fun {e e'} hzip => ⟨hfst hzip, ?_⟩⟩
  obtain ⟨hm, hm'⟩ := List.of_mem_zip hzip
  have hv := mem_toList_iff.1 (show (e.1, e.2) ∈ m.toList from hm)
  have hv' := mem_toList_iff.1 (show (e'.1, e'.2) ∈ m'.toList from hm')
  have hrel := h e.1
  rw [hv, hfst hzip, hv'] at hrel
  cases hrel with
  | some hP => exact hP

/-- Maps list the same images when every key has the same image. -/
theorem map_toList_eq_iff {μ : Type} {f : ν → μ} {f' : ν' → μ} :
    m.toList.map (fun e => (e.1, f e.2)) = m'.toList.map (fun e => (e.1, f' e.2)) ↔
      ∀ k : κ, m[k]?.map f = m'[k]?.map f' := by
  constructor
  · intro h k
    have hmem : ∀ v, (∃ a, m[k]? = some a ∧ f a = v) ↔ ∃ a, m'[k]? = some a ∧ f' a = v := by
      intro v
      have hin : (k, v) ∈ m.toList.map (fun e => (e.1, f e.2)) ↔
          (k, v) ∈ m'.toList.map (fun e => (e.1, f' e.2)) := by rw [h]
      simpa [List.mem_map, mem_toList_iff] using hin
    refine Option.ext fun v => ?_
    rw [Option.map_eq_some_iff, Option.map_eq_some_iff]
    exact hmem v
  · intro h
    have hrel : ∀ k : κ, Option.Rel (fun v v' => f v = f' v') m[k]? m'[k]? := by
      intro k
      have hk := h k
      generalize m[k]? = x at hk
      generalize m'[k]? = y at hk
      cases x with
      | none =>
        cases y with
        | none => exact .none
        | some v' => cases hk
      | some v =>
        cases y with
        | none => cases hk
        | some v' => exact .some (Option.some.inj hk)
    refine List.forall₂_eq_eq_eq ▸ List.forall₂_map_left_iff.2 (List.forall₂_map_right_iff.2 ?_)
    exact (forall₂_toList hrel).imp fun e e' h => Prod.ext h.1 h.2

end Related

/-! ## Collected maps -/

/-- `collect()` of key-value pairs into a map: a later pair replaces an earlier one
with the same key. -/
def collect (l : List (κ × ν)) : ExtTreeMap κ ν cmp := l.foldl (fun m e => m.insert e.1 e.2) ∅

omit [LawfulEqCmp cmp] in
theorem collect_append (l : List (κ × ν)) (e : κ × ν) :
    (collect (l ++ [e]) : ExtTreeMap κ ν cmp) = (collect l).insert e.1 e.2 := by
  simp [collect]

theorem mem_of_collect [DecidableEq κ] {l : List (κ × ν)} {k : κ} {v : ν}
    (h : (collect l : ExtTreeMap κ ν cmp)[k]? = some v) : (k, v) ∈ l := by
  induction l using List.reverseRecOn with
  | nil => simp [collect] at h
  | append_singleton l e ih =>
    rw [collect_append, getElem?_insert] at h
    split at h
    · next hk =>
      cases h
      exact List.mem_append_right _ (by rw [hk]; exact List.mem_cons_self)
    · exact List.mem_append_left _ (ih h)

theorem isSome_collect [DecidableEq κ] {l : List (κ × ν)} {k : κ} :
    ((collect l : ExtTreeMap κ ν cmp)[k]?).isSome = true ↔ k ∈ l.map Prod.fst := by
  induction l using List.reverseRecOn with
  | nil => simp [collect]
  | append_singleton l e ih =>
    rw [collect_append, getElem?_insert, List.map_append, List.mem_append, ← ih]
    by_cases hk : k = e.1
    · simp [hk]
    · simp [hk]

/-- Only the pairs with its key decide a look-up. -/
theorem getElem?_collect_filter [DecidableEq κ] {l : List (κ × ν)} {k : κ} {f : κ × ν → Bool}
    (hf : ∀ e : κ × ν, e.1 = k → f e = true) :
    (collect (l.filter f) : ExtTreeMap κ ν cmp)[k]? = (collect l : ExtTreeMap κ ν cmp)[k]? := by
  induction l using List.reverseRecOn with
  | nil => rfl
  | append_singleton l e ih =>
    rw [List.filter_append, collect_append, getElem?_insert]
    by_cases hk : k = e.1
    · rw [List.filter_cons_of_pos (hf e hk.symm), List.filter_nil, collect_append,
        getElem?_insert, if_pos hk, if_pos hk]
    · rw [if_neg hk, ← ih]
      cases h : f e with
      | true =>
        rw [List.filter_cons_of_pos h, List.filter_nil, collect_append, getElem?_insert,
          if_neg hk]
      | false => simp [h]

/-- A map all of whose keys are `k` has one entry. -/
theorem toList_eq_singleton {m : ExtTreeMap κ ν cmp} {k : κ} {v : ν} (hv : m[k]? = some v)
    (hk : ∀ k' v', m[k']? = some v' → k' = k) : m.toList = [(k, v)] := by
  have hmem : ∀ e ∈ m.toList, e = (k, v) := by
    rintro ⟨k', v'⟩ he
    have hv' := mem_toList_iff.1 he
    obtain rfl := hk k' v' hv'
    rw [hv] at hv'
    cases hv'
    rfl
  have hsorted := ExtTreeMap.ordered_keys_toList (t := m)
  match hl : m.toList with
  | [] =>
    have he : (k, v) ∈ m.toList := mem_toList_iff.2 hv
    rw [hl] at he
    cases he
  | [e] => rw [hmem e (hl ▸ List.mem_cons_self)]
  | e :: e' :: es =>
    rw [hl] at hmem hsorted
    have hlt := (List.pairwise_cons.1 hsorted).1 e' List.mem_cons_self
    rw [hmem e List.mem_cons_self,
      hmem e' (List.mem_cons_of_mem _ List.mem_cons_self)] at hlt
    rw [show cmp k k = .eq from LawfulEqCmp.compare_eq_iff_eq.2 rfl] at hlt
    cases hlt

/-! ## The greatest key of a list -/

/-- `max()` of an iterator over keys. -/
def greatest? (cmp : κ → κ → Ordering) : List κ → Option κ
  | [] => none
  | k :: ks =>
    match greatest? cmp ks with
    | none => some k
    | some best => if cmp k best = .gt then some k else some best

omit [TransCmp cmp] [LawfulEqCmp cmp] in
theorem isSome_greatest? {k : κ} {ks : List κ} (h : k ∈ ks) :
    (greatest? cmp ks).isSome = true := by
  cases ks with
  | nil => cases h
  | cons first ks =>
    rw [greatest?]
    cases greatest? cmp ks with
    | none => rfl
    | some best =>
      dsimp only
      split <;> rfl

omit [TransCmp cmp] [LawfulEqCmp cmp] in
theorem mem_of_greatest? {k : κ} {ks : List κ} (h : greatest? cmp ks = some k) : k ∈ ks := by
  induction ks generalizing k with
  | nil => cases h
  | cons first ks ih =>
    rw [greatest?] at h
    cases hbest : greatest? cmp ks with
    | none =>
      rw [hbest] at h
      cases h
      exact List.mem_cons_self
    | some best =>
      rw [hbest] at h
      dsimp only at h
      split at h
      · cases h
        exact List.mem_cons_self
      · cases h
        exact List.mem_cons_of_mem _ (ih hbest)

omit [LawfulEqCmp cmp] in
theorem isLE_greatest? {k a : κ} {ks : List κ} (h : greatest? cmp ks = some k) (ha : a ∈ ks) :
    (cmp a k).isLE = true := by
  induction ks generalizing k with
  | nil => cases ha
  | cons first ks ih =>
    rw [greatest?] at h
    cases hbest : greatest? cmp ks with
    | none =>
      rw [hbest] at h
      cases h
      rcases List.mem_cons.1 ha with rfl | ha
      · exact ReflCmp.isLE_rfl
      · have hsome : (greatest? cmp ks).isSome = true := isSome_greatest? ha
        rw [hbest] at hsome
        cases hsome
    | some best =>
      rw [hbest] at h
      dsimp only at h
      split at h
      · next hgt =>
        cases h
        rcases List.mem_cons.1 ha with rfl | ha
        · exact ReflCmp.isLE_rfl
        · have hlt : cmp best first = .lt := OrientedCmp.lt_of_gt hgt
          exact TransCmp.isLE_trans (ih hbest ha) (by rw [hlt]; rfl)
      · next hgt =>
        cases h
        rcases List.mem_cons.1 ha with rfl | ha
        · exact Ordering.isLE_iff_ne_gt.2 hgt
        · exact ih hbest ha

theorem greatest?_eq_some_iff {k : κ} {ks : List κ} :
    greatest? cmp ks = some k ↔ k ∈ ks ∧ ∀ a ∈ ks, (cmp a k).isLE = true := by
  refine ⟨fun h => ⟨mem_of_greatest? h, fun _ => isLE_greatest? h⟩, fun ⟨hmem, hle⟩ => ?_⟩
  obtain ⟨best, hbest⟩ : ∃ best, greatest? cmp ks = some best :=
    Option.isSome_iff_exists.1 (isSome_greatest? hmem)
  have heq : cmp k best = .eq :=
    OrientedCmp.isLE_antisymm (isLE_greatest? hbest hmem) (hle best (mem_of_greatest? hbest))
  rw [hbest, LawfulEqCmp.eq_of_compare heq]

end OrderedMap
