import Mathlib.Data.List.Forall2
import Exchange.Verify.Wiring

/-!
# Arena, index and queues agree

The bookkeeping of the book without its links. `Filed` relates the orders of the
arena (`core`), the id index, the slots queued at each price with the orders
they hold, and the held stop orders; one slot may be hidden: the order being
matched, in the arena but not filed yet. Each update of the book is one update
of these functions.
-/

namespace Exchange

/-- How `id_index` files the order of a slot. -/
def Order.location (o : Order) (s : Nat) : Location :=
  ⟨if o.kind.isStop then o.stopPrice else o.price, o.side, s⟩

@[simp] theorem Order.location_slot (o : Order) (s : Nat) : (o.location s).slot = s := rfl

/-- Every occupied slot is hidden, queued at its price or held, and the index
names exactly the slots that are not hidden. -/
structure Filed (core : Nat → Option Order) (index : OrderId → Option Location) (σ : Queues Nat)
    (queue : Queues Order) (held : Nat → Option Order) (hidden : Option Nat) : Prop where
  queued : ∀ side p, List.Forall₂ (fun s o => core s = some o) (σ side p) (queue side p)
  nodup : ∀ side p, (σ side p).Nodup
  placed : ∀ side p, ∀ o ∈ queue side p, o.side = side ∧ o.price = p ∧ o.kind.isStop = false
  held_core : ∀ s o, held s = some o → core s = some o ∧ o.kind.isStop = true
  covered : ∀ s o, core s = some o →
    hidden = some s ∨ s ∈ σ o.side o.price ∨ held s = some o
  loose : ∀ s, hidden = some s → (∀ side p, s ∉ σ side p) ∧ held s = none
  index_iff : ∀ id loc, index id = some loc ↔
    ∃ o, core loc.slot = some o ∧ hidden ≠ some loc.slot ∧ o.id = id ∧
      o.location loc.slot = loc

theorem forall₂_imp_mem {α β : Type} {R S : α → β → Prop} {l₁ : List α} {l₂ : List β}
    (h : List.Forall₂ R l₁ l₂) (himp : ∀ a ∈ l₁, ∀ b, R a b → S a b) : List.Forall₂ S l₁ l₂ := by
  induction h with
  | nil => exact .nil
  | cons hab _ ih =>
    exact .cons (himp _ List.mem_cons_self _ hab)
      (ih fun a ha => himp a (List.mem_cons_of_mem _ ha))

theorem forall₂_mem_left {α β : Type} {R : α → β → Prop} {l₁ : List α} {l₂ : List β}
    (h : List.Forall₂ R l₁ l₂) {a : α} (ha : a ∈ l₁) : ∃ b ∈ l₂, R a b := by
  induction h with
  | nil => cases ha
  | cons hab _ ih =>
    rcases List.mem_cons.1 ha with rfl | ha
    · exact ⟨_, List.mem_cons_self, hab⟩
    · obtain ⟨b, hb, hR⟩ := ih ha
      exact ⟨b, List.mem_cons_of_mem _ hb, hR⟩

theorem forall₂_mem_right {α β : Type} {R : α → β → Prop} {l₁ : List α} {l₂ : List β}
    (h : List.Forall₂ R l₁ l₂) {b : β} (hb : b ∈ l₂) : ∃ a ∈ l₁, R a b :=
  forall₂_mem_left h.flip hb

theorem forall₂_split {α β : Type} {R : α → β → Prop} {l₁ l₂ : List α} {a : α} {u : List β}
    (h : List.Forall₂ R (l₁ ++ a :: l₂) u) :
    ∃ u₁ b u₂, u = u₁ ++ b :: u₂ ∧ l₁.length = u₁.length ∧ R a b := by
  induction l₁ generalizing u with
  | nil =>
    obtain ⟨b, u₂, hab, -, rfl⟩ := List.forall₂_cons_left_iff.1 h
    exact ⟨[], b, u₂, rfl, rfl, hab⟩
  | cons c l₁ ih =>
    obtain ⟨d, u', -, hu', rfl⟩ := List.forall₂_cons_left_iff.1 h
    obtain ⟨u₁, b, u₂, rfl, hlen, hab⟩ := ih hu'
    exact ⟨d :: u₁, b, u₂, rfl, by simp [hlen], hab⟩

namespace Filed

variable {core : Nat → Option Order} {index : OrderId → Option Location} {σ : Queues Nat}
  {queue : Queues Order} {held : Nat → Option Order} {hidden : Option Nat}

section Facts

variable (hf : Filed core index σ queue held hidden)
include hf

theorem core_of_mem {side : Side} {p : Price} {s : Nat} (hs : s ∈ σ side p) :
    ∃ o ∈ queue side p, core s = some o :=
  forall₂_mem_left (hf.queued side p) hs

theorem slot_of_mem {side : Side} {p : Price} {o : Order} (ho : o ∈ queue side p) :
    ∃ s ∈ σ side p, core s = some o :=
  forall₂_mem_right (hf.queued side p) ho

theorem side_price {side : Side} {p : Price} {s : Nat} {o : Order} (hs : s ∈ σ side p)
    (ho : core s = some o) : o.side = side ∧ o.price = p ∧ o.kind.isStop = false := by
  obtain ⟨o', ho', hc⟩ := hf.core_of_mem hs
  rw [ho] at hc
  cases hc
  exact hf.placed side p o ho'

theorem not_hidden {side : Side} {p : Price} {s : Nat} (hs : s ∈ σ side p) : hidden ≠ some s :=
  fun h => (hf.loose s h).1 side p hs

theorem not_held {side : Side} {p : Price} {s : Nat} (hs : s ∈ σ side p) : held s = none := by
  cases h : held s with
  | none => rfl
  | some o =>
    obtain ⟨hc, hstop⟩ := hf.held_core s o h
    rw [(hf.side_price hs hc).2.2] at hstop
    cases hstop

theorem held_not_hidden {s : Nat} {o : Order} (hs : held s = some o) : hidden ≠ some s :=
  fun h => by
    rw [(hf.loose s h).2] at hs
    cases hs

/-- The index gives the slot of every filed order. -/
theorem index_eq {s : Nat} {o : Order} (ho : core s = some o) (hs : hidden ≠ some s) :
    index o.id = some (o.location s) :=
  (hf.index_iff _ _).2 ⟨o, ho, hs, rfl, rfl⟩

/-- Filed orders have distinct ids. -/
theorem slot_eq {s s' : Nat} {o o' : Order} (ho : core s = some o) (hs : hidden ≠ some s)
    (ho' : core s' = some o') (hs' : hidden ≠ some s') (hid : o.id = o'.id) : s = s' := by
  have h := hf.index_eq ho hs
  rw [hid, hf.index_eq ho' hs'] at h
  exact (congrArg Location.slot (Option.some.inj h)).symm

/-- An id that is not filed is carried by no filed order. -/
theorem id_ne {id : OrderId} (hid : index id = none) {s : Nat} {o : Order} (ho : core s = some o)
    (hs : hidden ≠ some s) : o.id ≠ id := by
  rintro rfl
  rw [hf.index_eq ho hs] at hid
  cases hid

/-- An order found by id is queued or held. -/
theorem of_index {id : OrderId} {loc : Location} (h : index id = some loc) :
    ∃ o, core loc.slot = some o ∧ o.id = id ∧ o.location loc.slot = loc ∧
      (loc.slot ∈ σ o.side o.price ∨ held loc.slot = some o) := by
  obtain ⟨o, ho, hs, hid, hloc⟩ := (hf.index_iff id loc).1 h
  exact ⟨o, ho, hid, hloc, (hf.covered _ o ho).resolve_left hs⟩

/-- The index after a filed order is struck off. -/
theorem index_erase {s : Nat} {o : Order} (ho : core s = some o) (hs : hidden ≠ some s)
    (id : OrderId) (loc : Location) :
    Function.update index o.id none id = some loc ↔
      ∃ o', Function.update core s none loc.slot = some o' ∧ hidden ≠ some loc.slot ∧
        o'.id = id ∧ o'.location loc.slot = loc := by
  by_cases hi : id = o.id
  · subst hi
    rw [Function.update_self]
    constructor
    · rintro ⟨⟩
    · rintro ⟨o', ho', hvis, hid, -⟩
      by_cases hne : loc.slot = s
      · rw [hne, Function.update_self] at ho'
        cases ho'
      · rw [Function.update_of_ne hne] at ho'
        exact absurd (hf.slot_eq ho' hvis ho hs hid) hne
  · rw [Function.update_of_ne hi, hf.index_iff]
    refine exists_congr fun o' => ?_
    by_cases hne : loc.slot = s
    · rw [hne, Function.update_self, ho]
      constructor
      · rintro ⟨h, -, hid, -⟩
        cases h
        exact absurd hid.symm hi
      · rintro ⟨⟨⟩, -⟩
    · rw [Function.update_of_ne hne]

end Facts

/-! ## The hidden order -/

section Hidden

variable {s : Nat} {o : Order}

/-- An order enters a vacant slot and is not filed yet. -/
theorem enter (hf : Filed core index σ queue held none) (hs : core s = none) :
    Filed (Function.update core s (some o)) index σ queue held (some s) := by
  have hσ : ∀ side p, s ∉ σ side p := fun side p h => by
    obtain ⟨o, -, ho⟩ := hf.core_of_mem h
    rw [hs] at ho
    cases ho
  have hheld : ∀ s' o, held s' = some o → s' ≠ s := by
    rintro s' o h rfl
    rw [(hf.held_core s' o h).1] at hs
    cases hs
  refine ⟨fun side p => ?_, hf.nodup, hf.placed, fun s' o' h => ?_, fun s' o' h => ?_,
    fun s' h => ?_, fun id loc => ?_⟩
  · refine forall₂_imp_mem (hf.queued side p) fun r hr o' ho' => ?_
    rwa [Function.update_of_ne (ne_of_mem_of_not_mem hr (hσ side p))]
  · rw [Function.update_of_ne (hheld s' o' h)]
    exact hf.held_core s' o' h
  · by_cases hss : s' = s
    · exact .inl (by rw [hss])
    · rw [Function.update_of_ne hss] at h
      rcases hf.covered s' o' h with h | h
      · cases h
      · exact .inr h
  · cases h
    refine ⟨hσ, ?_⟩
    cases h : held s with
    | none => rfl
    | some o' => exact absurd rfl (hheld s o' h)
  · rw [hf.index_iff]
    constructor
    · rintro ⟨o', ho', -, hid, hloc⟩
      have hne : loc.slot ≠ s := fun e => by
        rw [e, hs] at ho'
        cases ho'
      exact ⟨o', by rw [Function.update_of_ne hne, ho'], fun e => hne (Option.some.inj e).symm,
        hid, hloc⟩
    · rintro ⟨o', ho', hne, hid, hloc⟩
      have hne : loc.slot ≠ s := fun e => hne (by rw [e])
      rw [Function.update_of_ne hne] at ho'
      exact ⟨o', ho', nofun, hid, hloc⟩

/-- The hidden order may be changed. -/
theorem touch (hf : Filed core index σ queue held (some s)) :
    Filed (Function.update core s (some o)) index σ queue held (some s) := by
  obtain ⟨hσ, hheld⟩ := hf.loose s rfl
  refine ⟨fun side p => ?_, hf.nodup, hf.placed, fun s' o' h => ?_, fun s' o' h => ?_,
    hf.loose, fun id loc => ?_⟩
  · refine forall₂_imp_mem (hf.queued side p) fun r hr o' ho' => ?_
    rwa [Function.update_of_ne (ne_of_mem_of_not_mem hr (hσ side p))]
  · have hne : s' ≠ s := fun e => by
      rw [e, hheld] at h
      cases h
    rw [Function.update_of_ne hne]
    exact hf.held_core s' o' h
  · by_cases hss : s' = s
    · exact .inl (by rw [hss])
    · rw [Function.update_of_ne hss] at h
      exact hf.covered s' o' h
  · rw [hf.index_iff]
    refine exists_congr fun o' => and_congr_left fun ⟨hne, _⟩ => ?_
    rw [Function.update_of_ne fun e => hne (by rw [e])]

/-- The hidden order leaves. -/
theorem leave (hf : Filed core index σ queue held (some s)) :
    Filed (Function.update core s none) index σ queue held none := by
  obtain ⟨hσ, hheld⟩ := hf.loose s rfl
  refine ⟨fun side p => ?_, hf.nodup, hf.placed, fun s' o' h => ?_, fun s' o' h => ?_,
    nofun, fun id loc => ?_⟩
  · refine forall₂_imp_mem (hf.queued side p) fun r hr o' ho' => ?_
    rwa [Function.update_of_ne (ne_of_mem_of_not_mem hr (hσ side p))]
  · have hne : s' ≠ s := fun e => by
      rw [e, hheld] at h
      cases h
    rw [Function.update_of_ne hne]
    exact hf.held_core s' o' h
  · have hne : s' ≠ s := fun e => by
      rw [e, Function.update_self] at h
      cases h
    rw [Function.update_of_ne hne] at h
    rcases hf.covered s' o' h with h | h
    · exact absurd (Option.some.inj h).symm hne
    · exact .inr h
  · rw [hf.index_iff]
    constructor
    · rintro ⟨o', ho', hne, hid, hloc⟩
      exact ⟨o', by rwa [Function.update_of_ne fun e => hne (by rw [e])], nofun, hid, hloc⟩
    · rintro ⟨o', ho', -, hid, hloc⟩
      have hne : loc.slot ≠ s := fun e => by
        rw [e, Function.update_self] at ho'
        cases ho'
      rw [Function.update_of_ne hne] at ho'
      exact ⟨o', ho', fun e => hne (Option.some.inj e).symm, hid, hloc⟩

/-- The hidden order is filed at the back of its queue. -/
theorem rest (hf : Filed core index σ queue held (some s)) (ho : core s = some o)
    (hkind : o.kind.isStop = false) (hid : index o.id = none) :
    Filed core (Function.update index o.id (some (o.location s)))
      (σ.set o.side o.price (σ o.side o.price ++ [s]))
      (queue.set o.side o.price (queue o.side o.price ++ [o])) held none := by
  obtain ⟨hσ, hheld⟩ := hf.loose s rfl
  refine ⟨fun side p => ?_, fun side p => ?_, fun side p x hx => ?_, hf.held_core,
    fun s' o' h => ?_, nofun, fun id loc => ?_⟩
  · by_cases h : side = o.side ∧ p = o.price
    · obtain ⟨rfl, rfl⟩ := h
      rw [Queues.set_self, Queues.set_self]
      exact List.rel_append (hf.queued _ _) (.cons ho .nil)
    · rw [Queues.set_of_ne h, Queues.set_of_ne h]
      exact hf.queued side p
  · by_cases h : side = o.side ∧ p = o.price
    · obtain ⟨rfl, rfl⟩ := h
      rw [Queues.set_self]
      refine List.nodup_append.2 ⟨hf.nodup _ _, List.nodup_singleton s, fun a ha b hb e => ?_⟩
      rw [List.mem_singleton.1 hb] at e
      exact hσ _ _ (e ▸ ha)
    · rw [Queues.set_of_ne h]
      exact hf.nodup side p
  · by_cases h : side = o.side ∧ p = o.price
    · obtain ⟨rfl, rfl⟩ := h
      rw [Queues.set_self] at hx
      rcases List.mem_append.1 hx with hx | hx
      · exact hf.placed _ _ x hx
      · rw [List.mem_singleton.1 hx]
        exact ⟨rfl, rfl, hkind⟩
    · rw [Queues.set_of_ne h] at hx
      exact hf.placed side p x hx
  · by_cases hss : s' = s
    · subst hss
      rw [ho] at h
      cases h
      exact .inr (.inl (by simp))
    · rcases hf.covered s' o' h with h | h | h
      · exact absurd (Option.some.inj h).symm hss
      · refine .inr (.inl ?_)
        by_cases hsp : o'.side = o.side ∧ o'.price = o.price
        · rw [hsp.1, hsp.2, Queues.set_self]
          exact List.mem_append_left _ (hsp.1 ▸ hsp.2 ▸ h)
        · rwa [Queues.set_of_ne hsp]
      · exact .inr (.inr h)
  · by_cases hi : id = o.id
    · subst hi
      rw [Function.update_self]
      constructor
      · rintro ⟨⟩
        exact ⟨o, ho, nofun, rfl, rfl⟩
      · rintro ⟨o', ho', -, hid', hloc⟩
        by_cases hne : loc.slot = s
        · rw [hne, ho] at ho'
          cases ho'
          rw [← hloc, hne]
        · exact absurd hid' (hf.id_ne hid ho' fun e => hne (Option.some.inj e).symm)
    · rw [Function.update_of_ne hi, hf.index_iff]
      refine exists_congr fun o' => and_congr_right fun ho' => ?_
      constructor
      · rintro ⟨-, h⟩
        exact ⟨nofun, h⟩
      · rintro ⟨-, hid', hloc⟩
        refine ⟨fun e => ?_, hid', hloc⟩
        rw [← Option.some.inj e, ho] at ho'
        cases ho'
        exact hi hid'.symm

end Hidden

/-! ## Makers -/

section Makers

variable {s : Nat} {o o' : Order} {side : Side} {p : Price} {q₁ q₂ : List Nat}
  {m₁ m₂ : List Order}

/-- A queue at one of its slots. -/
theorem queued_split (hf : Filed core index σ queue held hidden) (hq : σ side p = q₁ ++ s :: q₂)
    (hm : queue side p = m₁ ++ o :: m₂) (hlen : q₁.length = m₁.length) :
    core s = some o ∧ List.Forall₂ (fun s o => core s = some o) q₁ m₁ ∧
      List.Forall₂ (fun s o => core s = some o) q₂ m₂ := by
  have hrel := hf.queued side p
  rw [hq, hm] at hrel
  have hrel₁ := List.forall₂_take q₁.length hrel
  have hrel₂ := List.forall₂_drop q₁.length hrel
  rw [List.take_left, hlen, List.take_left] at hrel₁
  rw [List.drop_left, hlen, List.drop_left] at hrel₂
  obtain ⟨hcore, hrel₂⟩ := List.forall₂_cons.1 hrel₂
  exact ⟨hcore, hrel₁, hrel₂⟩

/-- A queued order leaves. -/
theorem remove (hf : Filed core index σ queue held hidden) (hq : σ side p = q₁ ++ s :: q₂)
    (hm : queue side p = m₁ ++ o :: m₂) (hlen : q₁.length = m₁.length) :
    Filed (Function.update core s none) (Function.update index o.id none)
      (σ.set side p (q₁ ++ q₂)) (queue.set side p (m₁ ++ m₂)) held hidden := by
  obtain ⟨hcore, hrel₁, hrel₂⟩ := hf.queued_split hq hm hlen
  have hs : s ∈ σ side p := by rw [hq]; simp
  have hnd := hf.nodup side p
  rw [hq, List.nodup_middle, List.nodup_cons] at hnd
  have hslots := Queues.set_sublist
    (hq ▸ (List.sublist_cons_self s q₂).append_left q₁ : (q₁ ++ q₂).Sublist (σ side p))
  have horders := Queues.set_sublist
    (hm ▸ (List.sublist_cons_self o m₂).append_left m₁ : (m₁ ++ m₂).Sublist (queue side p))
  have hne : ∀ side' p' r, r ∈ (σ.set side p (q₁ ++ q₂)) side' p' → r ≠ s := by
    rintro side' p' r hr rfl
    obtain ⟨rfl, rfl, -⟩ := hf.side_price ((hslots side' p').subset hr) hcore
    obtain ⟨rfl, rfl, -⟩ := hf.side_price hs hcore
    rw [Queues.set_self] at hr
    exact hnd.1 hr
  refine ⟨fun side' p' => ?_, fun side' p' => (hf.nodup side' p').sublist (hslots side' p'),
    fun side' p' x hx => hf.placed side' p' x ((horders side' p').subset hx),
    fun s' o' h => ?_, fun s' o' h => ?_,
    fun s' h => ⟨fun side' p' hs' => (hf.loose s' h).1 side' p' ((hslots side' p').subset hs'),
      (hf.loose s' h).2⟩, hf.index_erase hcore (hf.not_hidden hs)⟩
  · refine forall₂_imp_mem (R := fun s o => core s = some o) ?_ fun r hr o' ho' => ?_
    · by_cases h : side' = side ∧ p' = p
      · obtain ⟨rfl, rfl⟩ := h
        rw [Queues.set_self, Queues.set_self]
        exact List.rel_append hrel₁ hrel₂
      · rw [Queues.set_of_ne h, Queues.set_of_ne h]
        exact hf.queued side' p'
    · rwa [Function.update_of_ne (hne side' p' r hr)]
  · have hss : s' ≠ s := by
      rintro rfl
      rw [hf.not_held hs] at h
      cases h
    rw [Function.update_of_ne hss]
    exact hf.held_core s' o' h
  · have hss : s' ≠ s := by
      rintro rfl
      rw [Function.update_self] at h
      cases h
    rw [Function.update_of_ne hss] at h
    exact (hf.covered s' o' h).imp_right (Or.imp_left (Queues.mem_set_of_ne hq hss))

/-- A queued order changes its quantities. -/
theorem reduce (hf : Filed core index σ queue held hidden) (hq : σ side p = q₁ ++ s :: q₂)
    (hm : queue side p = m₁ ++ o :: m₂) (hlen : q₁.length = m₁.length) (hid : o'.id = o.id)
    (hside : o'.side = o.side) (hprice : o'.price = o.price) (hkind : o'.kind = o.kind) :
    Filed (Function.update core s (some o')) index σ
      (queue.set side p (m₁ ++ o' :: m₂)) held hidden := by
  obtain ⟨hcore, hrel₁, hrel₂⟩ := hf.queued_split hq hm hlen
  have hs : s ∈ σ side p := by rw [hq]; simp
  have hnd := hf.nodup side p
  rw [hq, List.nodup_middle, List.nodup_cons] at hnd
  have hne : ∀ r ∈ q₁ ++ q₂, r ≠ s := fun r hr => ne_of_mem_of_not_mem hr hnd.1
  obtain ⟨hside', hprice', hkind'⟩ := hf.side_price hs hcore
  have hloc : ∀ r, o'.location r = o.location r := fun r => by
    simp [Order.location, hside, hprice, hkind, hkind']
  refine ⟨fun side' p' => ?_, hf.nodup, fun side' p' x hx => ?_, fun s' x h => ?_,
    fun s' x h => ?_, hf.loose, fun id loc => ?_⟩
  · by_cases h : side' = side ∧ p' = p
    · obtain ⟨rfl, rfl⟩ := h
      rw [Queues.set_self, hq]
      refine List.rel_append (forall₂_imp_mem hrel₁ fun r hr x hx => ?_)
        (.cons (Function.update_self ..) (forall₂_imp_mem hrel₂ fun r hr x hx => ?_))
      · rwa [Function.update_of_ne (hne r (List.mem_append_left _ hr))]
      · rwa [Function.update_of_ne (hne r (List.mem_append_right _ hr))]
    · rw [Queues.set_of_ne h]
      refine forall₂_imp_mem (hf.queued side' p') fun r hr x hx => ?_
      rwa [Function.update_of_ne]
      rintro rfl
      obtain ⟨h₁, h₂, -⟩ := hf.side_price hr hcore
      exact h ⟨h₁.symm.trans hside', h₂.symm.trans hprice'⟩
  · by_cases h : side' = side ∧ p' = p
    · obtain ⟨rfl, rfl⟩ := h
      rw [Queues.set_self] at hx
      rcases List.mem_append.1 hx with hx | hx
      · exact hf.placed side' p' x (hm ▸ List.mem_append_left _ hx)
      · rcases List.mem_cons.1 hx with rfl | hx
        · exact ⟨hside.trans hside', hprice.trans hprice', hkind ▸ hkind'⟩
        · exact hf.placed side' p' x (hm ▸ List.mem_append_right _ (List.mem_cons_of_mem o hx))
    · rw [Queues.set_of_ne h] at hx
      exact hf.placed side' p' x hx
  · have hss : s' ≠ s := fun e => by
      rw [e, hf.not_held hs] at h
      cases h
    rw [Function.update_of_ne hss]
    exact hf.held_core s' x h
  · by_cases hss : s' = s
    · subst hss
      rw [Function.update_self] at h
      cases h
      rw [hside, hprice, hside', hprice']
      exact .inr (.inl hs)
    · rw [Function.update_of_ne hss] at h
      exact hf.covered s' x h
  · rw [hf.index_iff]
    by_cases hss : loc.slot = s
    · rw [hss, Function.update_self, hcore]
      constructor
      · rintro ⟨x, ⟨⟩, hvis, rfl, h⟩
        exact ⟨o', rfl, hvis, hid, (hloc s).trans h⟩
      · rintro ⟨x, ⟨⟩, hvis, rfl, h⟩
        exact ⟨o, rfl, hvis, hid.symm, (hloc s).symm.trans h⟩
    · rw [Function.update_of_ne hss]

theorem remove_head (hf : Filed core index σ queue held hidden) (hq : σ side p = s :: q₂)
    (hm : queue side p = o :: m₂) :
    Filed (Function.update core s none) (Function.update index o.id none)
      (σ.set side p q₂) (queue.set side p m₂) held hidden := by
  have hq' : σ side p = [] ++ s :: q₂ := hq
  have hm' : queue side p = [] ++ o :: m₂ := hm
  exact hf.remove hq' hm' rfl

theorem reduce_head (hf : Filed core index σ queue held hidden) (hq : σ side p = s :: q₂)
    (hm : queue side p = o :: m₂) (hid : o'.id = o.id) (hside : o'.side = o.side)
    (hprice : o'.price = o.price) (hkind : o'.kind = o.kind) :
    Filed (Function.update core s (some o')) index σ (queue.set side p (o' :: m₂)) held
      hidden := by
  have hq' : σ side p = [] ++ s :: q₂ := hq
  have hm' : queue side p = [] ++ o :: m₂ := hm
  exact hf.reduce hq' hm' rfl hid hside hprice hkind

end Makers

/-! ## Held stops -/

section Held

variable {s : Nat} {o : Order}

/-- A stop order enters a vacant slot and is held there. -/
theorem hold (hf : Filed core index σ queue held none) (hs : core s = none)
    (hkind : o.kind.isStop = true) (hid : index o.id = none) :
    Filed (Function.update core s (some o)) (Function.update index o.id (some (o.location s)))
      σ queue (Function.update held s (some o)) none := by
  have hσ : ∀ side p, s ∉ σ side p := fun side p h => by
    obtain ⟨o, -, ho⟩ := hf.core_of_mem h
    rw [hs] at ho
    cases ho
  refine ⟨fun side p => ?_, hf.nodup, hf.placed, fun s' o' h => ?_, fun s' o' h => ?_,
    nofun, fun id loc => ?_⟩
  · refine forall₂_imp_mem (hf.queued side p) fun r hr o' ho' => ?_
    rwa [Function.update_of_ne (ne_of_mem_of_not_mem hr (hσ side p))]
  · by_cases hss : s' = s
    · subst hss
      rw [Function.update_self] at h ⊢
      cases h
      exact ⟨rfl, hkind⟩
    · rw [Function.update_of_ne hss] at h ⊢
      exact hf.held_core s' o' h
  · by_cases hss : s' = s
    · subst hss
      rw [Function.update_self] at h ⊢
      exact .inr (.inr h)
    · rw [Function.update_of_ne hss] at h ⊢
      exact hf.covered s' o' h
  · by_cases hi : id = o.id
    · subst hi
      rw [Function.update_self]
      constructor
      · rintro ⟨⟩
        exact ⟨o, Function.update_self .., nofun, rfl, rfl⟩
      · rintro ⟨o', ho', -, hid', hloc⟩
        by_cases hne : loc.slot = s
        · rw [hne, Function.update_self] at ho'
          cases ho'
          rw [← hloc, hne]
        · rw [Function.update_of_ne hne] at ho'
          exact absurd hid' (hf.id_ne hid ho' nofun)
    · rw [Function.update_of_ne hi, hf.index_iff]
      refine exists_congr fun o' => ?_
      by_cases hne : loc.slot = s
      · rw [hne, Function.update_self, hs]
        constructor
        · rintro ⟨⟨⟩, -⟩
        · rintro ⟨⟨⟩, -, hid', -⟩
          exact absurd hid'.symm hi
      · rw [Function.update_of_ne hne]

/-- A held stop order leaves. -/
theorem release (hf : Filed core index σ queue held hidden) (ho : held s = some o) :
    Filed (Function.update core s none) (Function.update index o.id none) σ queue
      (Function.update held s none) hidden := by
  obtain ⟨hcore, -⟩ := hf.held_core s o ho
  have hσ : ∀ side p, s ∉ σ side p := fun side p h => by
    rw [hf.not_held h] at ho
    cases ho
  refine ⟨fun side p => ?_, hf.nodup, hf.placed, fun s' o' h => ?_, fun s' o' h => ?_,
    fun s' h => ?_, hf.index_erase hcore (hf.held_not_hidden ho)⟩
  · refine forall₂_imp_mem (hf.queued side p) fun r hr o' ho' => ?_
    rwa [Function.update_of_ne (ne_of_mem_of_not_mem hr (hσ side p))]
  · have hss : s' ≠ s := fun e => by
      rw [e, Function.update_self] at h
      cases h
    rw [Function.update_of_ne hss] at h ⊢
    exact hf.held_core s' o' h
  · have hss : s' ≠ s := fun e => by
      rw [e, Function.update_self] at h
      cases h
    rw [Function.update_of_ne hss] at h ⊢
    exact hf.covered s' o' h
  · refine ⟨(hf.loose s' h).1, ?_⟩
    by_cases hss : s' = s
    · rw [hss, Function.update_self]
    · rw [Function.update_of_ne hss]
      exact (hf.loose s' h).2

end Held

end Filed

end Exchange
