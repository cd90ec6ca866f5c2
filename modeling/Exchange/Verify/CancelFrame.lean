import Exchange.Verify.StopListing
import Exchange.Verify.SnapshotPriority

/-!
# Cancel removes exactly one order

On a book without stops the unlink works at any position of a queue: the walks from
head to tail and back are the old ones without the order, and nothing else changes.
-/

namespace Exchange

open Fuel Links PriorityBook

variable {A : Type} [Slab A Order] {b b' : OrderBook A} {σ : Queues Nat} {q : PriorityBook}
  {side : Side} {p : Price} {ids : List OrderId} {id : OrderId} {loc : Location} {seq : Seq}
  {ts : Ts} {symbol symbol' : SymbolId} {tick : Price} {log : List Entry}

/-! ## Walks -/

/-- The ids of a level's orders as met from the head by `next`, and in reverse order from
the tail by `prev`. -/
def OrderBook.Threads (b : OrderBook A) (side : Side) (p : Price) (ids : List OrderId) : Prop :=
  ∃ l slots, b.level? side p = some l ∧ Forward (linksOf b.arena) l.head slots ∧
    Backward (linksOf b.arena) l.tail slots.reverse ∧
    List.Forall₂ (fun s id => ∃ o, b.slot? s = some o ∧ o.id = id) slots ids

theorem Refines.threads_iff (hr : Refines b σ none q) :
    b.Threads side p ids ↔ b.HasQueue side p ids := by
  constructor
  · rintro ⟨l, slots, hl, hforward, -, hids⟩
    have hc := hr.wired.chain side p l hl
    obtain rfl := hforward.unique hc.seg.forward
    exact ⟨l, _, hl, hc, hids⟩
  · rintro ⟨l, slots, hl, hc, hids⟩
    exact ⟨l, slots, hl, hc.seg.forward, hc.seg.backward, hids⟩

/-! ## What a cancel changes -/

/-- The order `id` at `loc` is gone from its queue, the arena and the index, and its level
with it if it was the only one there. Nothing else has changed. -/
structure CancelledOnly (b b' : OrderBook A) (id : OrderId) (loc : Location) : Prop where
  queue : ∃ ids, b.Threads loc.side loc.price ids ∧ ids.Nodup ∧ id ∈ ids ∧
    if ids = [id] then b'.level? loc.side loc.price = none
    else b'.Threads loc.side loc.price (ids.erase id)
  levels : ∀ side p, ¬(side = loc.side ∧ p = loc.price) →
    b'.level? side p = b.level? side p ∧ ∀ ids, b.Threads side p ids → b'.Threads side p ids
  order : b'.slot? loc.slot = none
  orders : ∀ s, s ≠ loc.slot →
    (b'.slot? s).map Order.unlinked = (b.slot? s).map Order.unlinked
  index : ∀ id', b'.idIndex[id']? = if id' = id then none else b.idIndex[id']?
  stopBuys : b'.stopBuys = b.stopBuys
  stopSells : b'.stopSells = b.stopSells
  lastTrade : b'.lastTrade = b.lastTrade
  symbol : b'.symbol = b.symbol
  tick : b'.tick = b.tick

/-- Unlinking touches one level. -/
theorem level?_removeSlot {s : Nat} {qty : Qty} {side' : Side} {p' : Price}
    (h : b.removeSlot s side p qty = .ok b') (hne : ¬(side' = side ∧ p' = p)) :
    b'.level? side' p' = b.level? side' p' := by
  obtain ⟨o, -, h⟩ := bind_eq_ok.1 h
  obtain ⟨b₁, h₁, h⟩ := bind_eq_ok.1 h
  obtain ⟨b₂, h₂, h⟩ := bind_eq_ok.1 h
  obtain ⟨a₁, rfl⟩ := modifyLinked_setArena h₁
  obtain ⟨a₂, rfl⟩ := modifyLinked_setArena h₂
  split at h
  · cases h
    rfl
  · dsimp only at h
    split at h
    · cases h
      rw [OrderBook.level?_eraseLevel, if_neg hne, OrderBook.level?_setArena,
        OrderBook.level?_setArena]
    · cases h
      rw [OrderBook.level?_putLevel, if_neg hne, OrderBook.level?_setArena,
        OrderBook.level?_setArena]

/-- Taking an order out of the priority book erases its id from its queue. -/
theorem PriorityBook.WF.queue_drop (hq : q.WF) {o : Order} (ho : o ∈ q.makers o.side) :
    ((q.drop o).queue o.side o.price).map (·.id) =
      ((q.queue o.side o.price).map (·.id)).erase o.id := by
  have hids : ((q.queue o.side o.price).map (·.id)).Nodup :=
    (hq.ids o.side).sublist (List.filter_sublist.map _)
  obtain ⟨l₁, l₂, hl⟩ := List.append_of_mem (mem_queue.2 ⟨ho, rfl⟩ : o ∈ q.queue o.side o.price)
  have hdrop : (q.drop o).queue o.side o.price = l₁ ++ l₂ := by
    rw [PriorityBook.queue, PriorityBook.drop, makers_put_self]
    exact filter_drop_self hq hl
  rw [hl, List.map_append, List.map_cons] at hids
  have hnot : o.id ∉ l₁.map (·.id) := fun hmem =>
    List.disjoint_of_nodup_append hids hmem List.mem_cons_self
  rw [hdrop, hl, List.map_append, List.map_append, List.map_cons,
    List.erase_append_right _ hnot, List.erase_cons_head]

theorem PriorityBook.queue_drop_of_ne (hq : q.WF) {o : Order} (ho : o ∈ q.makers o.side)
    (hne : ¬(side = o.side ∧ p = o.price)) : (q.drop o).queue side p = q.queue side p := by
  rw [PriorityBook.queue, PriorityBook.drop]
  by_cases hside : side = o.side
  · subst hside
    rw [makers_put_self]
    exact filter_drop_of_ne hq ho fun hp => hne ⟨rfl, hp⟩
  · rw [makers_put_of_ne hside]
    rfl

/-- **Cancel.** -/
theorem stopFree_cancelledOnly (h : ReachesStopFree symbol tick log b)
    (hlive : b.idIndex[id]? = some loc) :
    ∃ b', Applies b ⟨seq, ts, .cancel id symbol'⟩ b' [.cancelled id seq] ∧
      CancelledOnly b b' id loc := by
  obtain ⟨q, -, ⟨σ, hr⟩, hfree⟩ := reaches_refines h
  obtain ⟨o, hid⟩ : ∃ o, q.live? id = some o := by
    cases hid : q.live? id with
    | some o => exact ⟨o, rfl⟩
    | none =>
      rw [(hr.index_none_iff hfree.held).2 hid] at hlive
      cases hlive
  obtain ⟨s, hidx, ho, hs⟩ := hr.locate hid
  obtain ⟨⟨side, hmem⟩, rfl⟩ := hr.wf.live?_eq_some.1 hid
  obtain ⟨-, rfl, -⟩ := hr.wf.maker side o hmem
  cases hlive.symm.trans hidx
  obtain ⟨b₁, b₂, σ', h₁, h₂, hr', hcore, -⟩ := hr.takeOut_maker hidx ho hs
  obtain ⟨o', ho', hu, -⟩ := order_of_core ho
  have hrem : o'.remaining = o.remaining := by rw [← hu]; rfl
  have ho'' : (b.setIndex (b.idIndex.erase o.id)).order s = .ok o' := ho'
  refine ⟨b₂, ⟨0, ?_⟩, ?_⟩
  · simp only [applyWithin, applyCancel, hidx, ho'', Fuel.ok_bind, hrem, h₁, h₂]
    rfl
  have hrewired := Rewired.removeSlot h₁
  obtain ⟨x, -, hb₂⟩ := removeOrder_inv h₂
  have hids := hr.nodup_ids o.side o.price
  have hqueue : o ∈ q.queue o.side o.price := mem_queue.2 ⟨hmem, rfl⟩
  refine ⟨⟨_, hr.threads_iff.2 (hr.hasQueue_iff.2 ⟨List.ne_nil_of_mem hqueue, rfl⟩), hids,
    List.mem_map_of_mem hqueue, ?_⟩, fun side p hne => ⟨?_, fun ids hthreads => ?_⟩, ?_,
    fun r hr => ?_, fun id' => ?_, ?_, ?_, ?_, hr'.symbol.trans hr.symbol.symm,
    hr'.tick.trans hr.tick.symm⟩
  · dsimp only
    have hdrop := hr.wf.queue_drop hmem
    split
    · next halone =>
      rw [halone, List.erase_cons_head, List.map_eq_nil_iff] at hdrop
      have hpresent := hr'.present o.side o.price
      rw [hdrop] at hpresent
      simpa using hpresent
    · next halone =>
      refine hr'.threads_iff.2 (hr'.hasQueue_iff.2 ⟨fun hnil => ?_, hdrop.symm⟩)
      rw [hnil] at hdrop
      rcases List.erase_eq_nil_iff.1 hdrop.symm with hempty | honly
      · exact List.ne_nil_of_mem (List.mem_map_of_mem hqueue) hempty
      · exact halone honly
  · rw [hb₂, OrderBook.level?_setArena, level?_removeSlot h₁ hne, OrderBook.level?_setIndex]
  · obtain ⟨hne', rfl⟩ := hr.hasQueue_iff.1 (hr.threads_iff.1 hthreads)
    rw [← queue_drop_of_ne hr.wf hmem hne] at hne' ⊢
    exact hr'.threads_iff.2 (hr'.hasQueue_iff.2 ⟨hne', rfl⟩)
  · have hvacant := congrFun hcore s
    rw [Function.update_self] at hvacant
    exact Option.map_eq_none_iff.1 hvacant
  · exact (congrFun hcore r).trans (Function.update_of_ne hr _ _)
  · have hindex : b₂.idIndex = b.idIndex.erase o.id := by
      rw [hb₂]
      exact hrewired.idIndex
    rw [hindex, OrderedMap.getElem?_erase]
  · rw [hb₂]
    exact hrewired.stopBuys
  · rw [hb₂]
    exact hrewired.stopSells
  · rw [hb₂]
    exact hrewired.lastTrade

/-- Three bids at 100, of which the first is partly filled and re-inserted. -/
def threeBids : List Sequenced :=
  [⟨1, 0, .new ⟨1, 0, .buy, .limit, .gtc, 100, 0, 5⟩⟩,
   ⟨2, 0, .new ⟨2, 0, .buy, .limit, .gtc, 100, 0, 5⟩⟩,
   ⟨3, 0, .new ⟨3, 0, .buy, .limit, .gtc, 100, 0, 5⟩⟩,
   ⟨4, 0, .new ⟨4, 0, .sell, .market, .gtc, 0, 0, 2⟩⟩]

/-- The bid in the middle is cancelled. -/
theorem stopFree_cancelledOnly_sample : ∃ (b b' : OrderBook (VecSlab Order)) (log : List Entry),
    ReachesStopFree 0 1 log b ∧ log.map Prod.fst = threeBids ∧
      Applies b ⟨5, 0, .cancel 2 0⟩ b' [.cancelled 2 5] ∧ CancelledOnly b b' 2 ⟨100, .buy, 1⟩ := by
  have hok : ∃ r, applyAll 9 (OrderBook.new 0 1 : OrderBook (VecSlab Order)) threeBids = .ok r ∧
      r.2.map Prod.fst = threeBids ∧ r.1.idIndex[(2 : OrderId)]? = some ⟨100, .buy, 1⟩ := by
    refine ⟨_, rfl, ?_⟩
    decide +kernel
  obtain ⟨⟨b, log⟩, hrun, hlog, hlive⟩ := hok
  have hreach := reachesStopFree_applyAll hrun (by decide)
  obtain ⟨b', happ, honly⟩ : ∃ b', Applies b ⟨5, 0, .cancel 2 0⟩ b' [.cancelled 2 5] ∧
      CancelledOnly b b' 2 ⟨100, .buy, 1⟩ := stopFree_cancelledOnly hreach hlive
  exact ⟨b, b', log, hreach, hlog, happ, honly⟩

end Exchange
