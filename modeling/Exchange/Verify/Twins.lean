import Exchange.Verify.AlikeRuns

/-!
# Books of the same orders

Two books without stops whose priority books queue the same orders, level by level
and with the same cached totals, are alike: their slots are paired by the position
of the order in its queue.
-/

namespace Exchange

open Links PriorityBook

variable {A : Type} [Slab A Order] [StackSlab A Order]

/-- The same order but for what the matcher only copies. -/
def Order.Same (o o' : Order) : Prop :=
  ∃ symbol status, o' = { o with symbol := symbol, status := status }

omit [Slab A Order] [StackSlab A Order] in
theorem Order.Same.alike {R : Nat → Nat → Prop} {x x' : Order}
    (h : Order.Same x.unlinked x'.unlinked) (hnext : Option.Rel R x.next x'.next)
    (hprev : Option.Rel R x.prev x'.prev) : Order.Alike R x x' := by
  obtain ⟨symbol, status, hu⟩ := h
  exact ⟨(congrArg Order.id hu :), (congrArg Order.side hu :), (congrArg Order.kind hu :),
    (congrArg Order.tif hu :), (congrArg Order.price hu :), (congrArg Order.stopPrice hu :),
    (congrArg Order.remaining hu :), hnext, hprev⟩

theorem forall₂_getElem? {α β : Type} {P : α → β → Prop} {l : List α} {l' : List β}
    (h : List.Forall₂ P l l') {i : Nat} {x : α} {y : β} (hx : l[i]? = some x)
    (hy : l'[i]? = some y) : P x y := by
  obtain ⟨hi, hxi⟩ := List.getElem?_eq_some_iff.1 hx
  obtain ⟨hi', hyi⟩ := List.getElem?_eq_some_iff.1 hy
  have hP := (List.forall₂_iff_get.1 h).2 i hi hi'
  rwa [List.get_eq_getElem, List.get_eq_getElem, hxi, hyi] at hP

/-- The slots at the same position of a queue, and the vacant slots in the order in
which they will be taken. -/
def SlotPairs (b b' : OrderBook A) (σ σ' : Queues Nat) (s s' : Nat) : Prop :=
  (∃ (side : Side) (p : Price) (i : Nat), (σ side p)[i]? = some s ∧ (σ' side p)[i]? = some s') ∨
    ∃ i, s = StackSlab.vacant b.arena i ∧ s' = StackSlab.vacant b'.arena i

variable {b b' : OrderBook A} {σ σ' : Queues Nat} {q q' : PriorityBook} {s s' : Nat}

theorem SlotPairs.symm (h : SlotPairs b b' σ σ' s s') : SlotPairs b' b σ' σ s' s := by
  rcases h with ⟨side, p, i, hs, hs'⟩ | ⟨i, hs, hs'⟩
  · exact .inl ⟨side, p, i, hs', hs⟩
  · exact .inr ⟨i, hs', hs⟩

namespace Refines

omit [StackSlab A Order] in
/-- A queued slot holds the order at its position. -/
theorem core_of_getElem? (hr : Refines b σ none q) {side : Side} {p : Price} {i : Nat}
    (hs : (σ side p)[i]? = some s) :
    ∃ o, (q.queue side p)[i]? = some o ∧ coreOf b.arena s = some o := by
  have hqueued := hr.filed.queued side p
  obtain ⟨hi, rfl⟩ := List.getElem?_eq_some_iff.1 hs
  have hi' : i < (q.queue side p).length := hqueued.length_eq ▸ hi
  exact ⟨_, List.getElem?_eq_getElem hi', (List.forall₂_iff_get.1 hqueued).2 i hi hi'⟩

theorem vacant_not_queued (hr : Refines b σ none q) {side : Side} {p : Price} {i j : Nat}
    (hs : (σ side p)[i]? = some s) : s ≠ StackSlab.vacant b.arena j := by
  rintro rfl
  obtain ⟨o, -, ho⟩ := hr.core_of_getElem? hs
  rw [coreOf, StackSlab.get?_vacant] at ho
  cases ho

/-- A slot of the second book is paired with one slot. -/
theorem leftUnique (hr' : Refines b' σ' none q') :
    Relator.LeftUnique (SlotPairs b b' σ σ') := by
  intro s t u hs ht
  rcases hs with ⟨side, p, i, hs, hu⟩ | ⟨i, rfl, hu⟩
  · rcases ht with ⟨side', p', j, ht, hu'⟩ | ⟨j, -, hu'⟩
    · obtain ⟨rfl, rfl⟩ :=
        hr'.wired.disjoint (List.mem_of_getElem? hu) (List.mem_of_getElem? hu')
      obtain ⟨hi, rfl⟩ := List.getElem?_eq_some_iff.1 hu
      obtain ⟨hj, he⟩ := List.getElem?_eq_some_iff.1 hu'
      obtain rfl := (List.Nodup.getElem_inj_iff (hr'.filed.nodup side' p')).1 he
      exact Option.some.inj (hs.symm.trans ht)
    · exact absurd hu' (hr'.vacant_not_queued hu)
  · rcases ht with ⟨side', p', j, -, hu'⟩ | ⟨j, rfl, hu'⟩
    · exact absurd hu (hr'.vacant_not_queued hu')
    · rw [StackSlab.vacant_inj _ _ _ (hu.symm.trans hu')]

theorem biUnique (hr : Refines b σ none q) (hr' : Refines b' σ' none q') :
    Relator.BiUnique (SlotPairs b b' σ σ') :=
  ⟨hr'.leftUnique, fun _ _ _ hs ht => hr.leftUnique hs.symm ht.symm⟩

section Twins

variable (hr : Refines b σ none q) (hr' : Refines b' σ' none q')
  (hqueue : ∀ side p, List.Forall₂ Order.Same (q.queue side p) (q'.queue side p))
include hr hr' hqueue

omit [StackSlab A Order] in
theorem length_eq (side : Side) (p : Price) : (σ' side p).length = (σ side p).length := by
  rw [(hr'.filed.queued side p).length_eq, ← (hqueue side p).length_eq,
    (hr.filed.queued side p).length_eq]

theorem rel_getElem? (side : Side) (p : Price) (i : Nat) :
    Option.Rel (SlotPairs b b' σ σ') (σ side p)[i]? (σ' side p)[i]? := by
  have hlen := length_eq hr hr' hqueue side p
  by_cases hi : i < (σ side p).length
  · have hi' : i < (σ' side p).length := hlen ▸ hi
    rw [List.getElem?_eq_getElem hi, List.getElem?_eq_getElem hi']
    exact .some (.inl ⟨side, p, i, List.getElem?_eq_getElem hi, List.getElem?_eq_getElem hi'⟩)
  · rw [List.getElem?_eq_none (Nat.le_of_not_lt hi),
      List.getElem?_eq_none (hlen ▸ Nat.le_of_not_lt hi)]
    exact .none

/-- Slots at the same position hold the same order, linked to paired slots. -/
theorem queued_alike {side : Side} {p : Price} {i : Nat} (hs : (σ side p)[i]? = some s)
    (hs' : (σ' side p)[i]? = some s') :
    Option.Rel (Order.Alike (SlotPairs b b' σ σ')) (Slab.get? b.arena s)
      (Slab.get? b'.arena s') := by
  obtain ⟨o, hoq, ho⟩ := hr.core_of_getElem? hs
  obtain ⟨o', hoq', ho'⟩ := hr'.core_of_getElem? hs'
  have hsame : Order.Same o o' := forall₂_getElem? (hqueue side p) hoq hoq'
  obtain ⟨x, hx, rfl⟩ := get?_of_core ho
  obtain ⟨x', hx', rfl⟩ := get?_of_core ho'
  obtain ⟨l, hl⟩ : ∃ l, b.level? side p = some l := by
    refine Option.isSome_iff_exists.1 ((hr.present side p).2 fun hnil => ?_)
    rw [hnil] at hoq
    cases hoq
  obtain ⟨l', hl'⟩ : ∃ l, b'.level? side p = some l := by
    refine Option.isSome_iff_exists.1 ((hr'.present side p).2 fun hnil => ?_)
    rw [hnil] at hoq'
    cases hoq'
  have hlinks := (hr.wired.chain side p l hl).links_getElem? hs
  have hlinks' := (hr'.wired.chain side p l' hl').links_getElem? hs'
  rw [linksOf, hx] at hlinks
  rw [linksOf, hx'] at hlinks'
  obtain ⟨hprev, hnext⟩ := Prod.mk.inj (Option.some.inj hlinks)
  obtain ⟨hprev', hnext'⟩ := Prod.mk.inj (Option.some.inj hlinks')
  have hrel := rel_getElem? hr hr' hqueue side p
  rw [hx, hx']
  refine .some (hsame.alike ?_ ?_)
  · rw [hnext, hnext']
    exact hrel (i + 1)
  · rw [hprev, hprev']
    split
    · exact .none
    · exact hrel (i - 1)

/-- An order of the first book is indexed by the second. -/
theorem index_alike (hq : q.StopFree) {id : OrderId} {loc : Location}
    (hloc : b.idIndex[id]? = some loc) :
    ∃ loc', b'.idIndex[id]? = some loc' ∧ Location.Alike (SlotPairs b b' σ σ') loc loc' := by
  obtain ⟨o, ho, rfl, hplace, hmem⟩ := hr.filed.of_index hloc
  have hmem := hmem.resolve_right (by simp [hq.held])
  obtain ⟨i, hi⟩ := List.mem_iff_getElem?.1 hmem
  obtain ⟨x, hx, hxc⟩ := hr.core_of_getElem? hi
  cases ho.symm.trans hxc
  obtain ⟨s', hs'⟩ : ∃ s', (σ' o.side o.price)[i]? = some s' := by
    have hrel := rel_getElem? hr hr' hqueue o.side o.price i
    rw [hi] at hrel
    exact Option.isSome_iff_exists.1 (rel_isSome hrel)
  obtain ⟨o', ho', hc'⟩ := hr'.core_of_getElem? hs'
  obtain ⟨symbol, status, rfl⟩ : Order.Same o o' := forall₂_getElem? (hqueue _ _) hx ho'
  refine ⟨o.location s', hr'.filed.index_eq (o := { o with symbol, status }) hc' nofun, ?_⟩
  rw [← hplace]
  exact ⟨rfl, rfl, .inl ⟨o.side, o.price, i, hi, hs'⟩⟩

end Twins

/-- **Twins.** Books that queue the same orders with the same totals are alike. -/
theorem alike (hr : Refines b σ none q) (hq : q.StopFree) (hr' : Refines b' σ' none q')
    (hq' : q'.StopFree)
    (hqueue : ∀ side p, List.Forall₂ Order.Same (q.queue side p) (q'.queue side p))
    (htotal : ∀ side p, (q'.tally side p).totalQty = (q.tally side p).totalQty)
    (hlast : q'.lastTrade = q.lastTrade) : b.Alike (SlotPairs b b' σ σ') b' := by
  have hback : ∀ side p, List.Forall₂ Order.Same (q'.queue side p) (q.queue side p) :=
    fun side p => (hqueue side p).flip.imp fun o o' ⟨symbol, status, h⟩ => by
      subst h
      exact ⟨_, _, rfl⟩
  refine ⟨⟨fun s s' hs => ?_, fun i => .inr ⟨i, rfl, rfl⟩⟩, fun side p => ?_, fun id => ?_,
    fun side t => ?_, by rw [hr.lastTrade, hr'.lastTrade, hlast]⟩
  · rcases hs with ⟨side, p, i, hs, hs'⟩ | ⟨i, rfl, rfl⟩
    · exact queued_alike hr hr' hqueue hs hs'
    · rw [StackSlab.get?_vacant, StackSlab.get?_vacant]
      exact .none
  · have hpresent : (b'.level? side p).isSome = (b.level? side p).isSome := by
      rw [Bool.eq_iff_iff, hr.present, hr'.present, Ne, Ne, not_iff_not,
        ← List.length_eq_zero_iff, ← List.length_eq_zero_iff, (hqueue side p).length_eq]
    cases hl : b.level? side p with
    | none =>
      rw [hl] at hpresent
      cases hl' : b'.level? side p with
      | none => exact .none
      | some l' =>
        rw [hl'] at hpresent
        cases hpresent
    | some l =>
      rw [hl] at hpresent
      obtain ⟨l', hl'⟩ := Option.isSome_iff_exists.1 hpresent
      rw [hl']
      have hc := hr.wired.chain side p l hl
      have hc' := hr'.wired.chain side p l' hl'
      have hrel := rel_getElem? hr hr' hqueue side p
      refine .some ⟨?_, ?_, ?_⟩
      · rw [hc.head_eq, hc'.head_eq, List.head?_eq_getElem?, List.head?_eq_getElem?]
        exact hrel 0
      · rw [hc.tail_eq, hc'.tail_eq, List.getLast?_eq_getElem?, List.getLast?_eq_getElem?,
          length_eq hr hr' hqueue]
        exact hrel _
      · have ht := congrArg Tally.totalQty (hr.tally side p l hl)
        have ht' := congrArg Tally.totalQty (hr'.tally side p l' hl')
        exact ht'.symm.trans ((htotal side p).trans ht)
  · cases hloc : b.idIndex[id]? with
    | some loc =>
      obtain ⟨loc', hloc', hal⟩ := index_alike hr hr' hqueue hq hloc
      rw [hloc']
      exact .some hal
    | none =>
      cases hloc' : b'.idIndex[id]? with
      | none => exact .none
      | some loc' =>
        obtain ⟨loc, hloc₁, -⟩ := index_alike hr' hr hback hq' hloc'
        rw [hloc] at hloc₁
        cases hloc₁
  · have hnone : ∀ {c : OrderBook A} {r : PriorityBook}, c.stopBuys = r.stopBuys →
        c.stopSells = r.stopSells → r.StopFree → (c.stops side)[t]? = none := by
      intro c r hbuys hsells hfree
      cases side
      · change c.stopBuys[t]? = none
        rw [hbuys, hfree.buys]
        simp
      · change c.stopSells[t]? = none
        rw [hsells, hfree.sells]
        simp
    rw [hnone hr.stopBuys hr.stopSells hq, hnone hr'.stopBuys hr'.stopSells hq']
    exact .none

end Refines

end Exchange
