import Exchange.Verify.StopListing
import Exchange.Verify.Indexed
import Exchange.Verify.SnapshotPriority

/-!
# Cancel and Replace of a held stop

Both were written for resting orders. They take the order out of the arena, the index
and the level at its trigger price, where it never was, and leave its slot in the stop
map. Replace files the slot again, without a trigger price.
-/

namespace Exchange

open Fuel

variable {A : Type} [Slab A Order] {b b' : OrderBook A} {seq : Seq} {ts : Ts}
  {events : List OutputEvent} {s : Nat} {symbol symbol' : SymbolId} {tick : Price}
  {log : List Entry} {id : OrderId} {o : Order}

/-! ## Cancelling a held stop -/

/-- The live order `id` is a stop that has not been triggered, in slot `s`. -/
structure OrderBook.HoldsStop (b : OrderBook A) (id : OrderId) (s : Nat) (o : Order) : Prop where
  indexed : (b.idIndex[id]?).map (·.slot) = some s
  stored : b.slot? s = some o
  stop : o.kind.isStop = true

/-- The stop order `o` in slot `s` is gone and nothing else is. -/
structure StopCancelled (b b' : OrderBook A) (s : Nat) (o : Order) : Prop where
  levels : ∀ side p, b'.level? side p = b.level? side p
  queues : ∀ side p ids, b'.HasQueue side p ids ↔ b.HasQueue side p ids
  unlisted : ¬b'.Lists o.side o.stopPrice s

/-- **Cancelling a held stop.** The slot stays in the stop map whatever the book. -/
theorem reaches_cancelStop (h : Reaches symbol tick log b) (hstop : b.HoldsStop id s o) :
    ¬∃ b' events, Applies b ⟨seq, ts, .cancel id symbol'⟩ b' events ∧
      StopCancelled b b' s o := by
  rintro ⟨b', events, ⟨fuel, happ⟩, hgone⟩
  have hlisted := reaches_listed h s _ (coreOf_of_slot? hstop.stored) hstop.stop
  refine hgone.unlisted ?_
  unfold OrderBook.Lists
  rw [(applyCancel_depletes happ).stops]
  exact hlisted

/-- A bid of five at 100, and a stop order to buy three at 100 or above. -/
def bidAndStop : List Sequenced :=
  [⟨1, 0, .new ⟨1, 0, .buy, .limit, .gtc, 100, 0, 5⟩⟩,
   ⟨2, 0, .new ⟨2, 0, .buy, .stopMarket, .gtc, 0, 100, 3⟩⟩]

theorem reaches_cancelStop_sample : ∃ (b : OrderBook (VecSlab Order)) (log : List Entry)
    (o : Order), Reaches 0 1 log b ∧ log.map Prod.fst = bidAndStop ∧ b.HoldsStop 2 1 o ∧
      ¬∃ b' events, Applies b ⟨3, 0, .cancel 2 0⟩ b' events ∧ StopCancelled b b' 1 o := by
  have hok : ∃ r, applyAll 9 (OrderBook.new 0 1 : OrderBook (VecSlab Order)) bidAndStop = .ok r ∧
      r.2.map Prod.fst = bidAndStop ∧ (r.1.idIndex[(2 : OrderId)]?).map (·.slot) = some 1 ∧
      ∃ o, r.1.slot? 1 = some o ∧ o.kind.isStop = true := by
    refine ⟨_, rfl, ?_, ?_, _, rfl, ?_⟩ <;> decide +kernel
  obtain ⟨⟨b, log⟩, hrun, hlog, hindexed, o, hstored, hstop⟩ := hok
  have hreach := reaches_applyAll hrun
  have hheld : b.HoldsStop 2 1 o := ⟨hindexed, hstored, hstop⟩
  exact ⟨b, log, o, hreach, hlog, hheld, reaches_cancelStop hreach hheld⟩

/-- Cancelling the stop takes three off the level of the bid, counts no order there, and
leaves the slot in the stop map. -/
theorem cancel_stop_discounts : ∃ (b b' : OrderBook (VecSlab Order)) (log : List Entry)
    (events : List OutputEvent), Reaches 0 1 log b ∧ log.map Prod.fst = bidAndStop ∧
      Applies b ⟨3, 0, .cancel 2 0⟩ b' events ∧ events = [.cancelled 2 3] ∧
      b.level? .buy 100 = some ⟨some 0, some 0, 5, 1⟩ ∧
      b'.level? .buy 100 = some ⟨some 0, some 0, 2, 0⟩ ∧
      b.stopBuys.toList = [(100, [1])] ∧ b'.stopBuys.toList = [(100, [1])] ∧
      ∃ o, b.HoldsStop 2 1 o ∧ ¬StopCancelled b b' 1 o := by
  have hok : ∃ r r', applyAll 9 (OrderBook.new 0 1 : OrderBook (VecSlab Order)) bidAndStop = .ok r ∧
      applyWithin 9 r.1 ⟨3, 0, .cancel 2 0⟩ = .ok r' ∧ r.2.map Prod.fst = bidAndStop ∧
      r'.2 = [.cancelled 2 3] ∧ r.1.level? .buy 100 = some ⟨some 0, some 0, 5, 1⟩ ∧
      r'.1.level? .buy 100 = some ⟨some 0, some 0, 2, 0⟩ ∧
      r.1.stopBuys.toList = [(100, [1])] ∧ r'.1.stopBuys.toList = [(100, [1])] ∧
      (r.1.idIndex[(2 : OrderId)]?).map (·.slot) = some 1 ∧
      ∃ o, r.1.slot? 1 = some o ∧ o.kind.isStop = true := by
    refine ⟨_, _, rfl, rfl, ?_, ?_, ?_, ?_, ?_, ?_, ?_, _, rfl, ?_⟩ <;> decide +kernel
  obtain ⟨⟨b, log⟩, ⟨b', events⟩, hrun, happ, hlog, hevents, hlevel, hlevel', hstops, hstops',
    hindexed, o, hstored, hstop⟩ := hok
  refine ⟨b, b', log, events, reaches_applyAll hrun, hlog, ⟨9, happ⟩, hevents, hlevel, hlevel',
    hstops, hstops', o, ⟨hindexed, hstored, hstop⟩, fun h => ?_⟩
  have hsame := h.levels .buy 100
  rw [hlevel, hlevel'] at hsame
  cases hsame

/-! ## Replacing a held stop -/

/-- The new order is held in slot `s` as `o'`: the stop `o` with another limit price and
quantity, listed under its own trigger and nowhere else, and as long as it is held and no
command takes it out, the trigger loop collects its slot at prices that reach that
trigger only. -/
structure StopReplaced (b' : OrderBook A) (id : OrderId) (o : Order) (newPrice : Price)
    (newQty : Qty) (s : Nat) (o' : Order) : Prop where
  held : b'.HoldsStop id s o'
  side : o'.side = o.side
  kind : o'.kind = o.kind
  stopPrice : o'.stopPrice = o.stopPrice
  price : o'.price = newPrice
  remaining : o'.remaining = newQty
  listed : ∀ side t, b'.Lists side t s ↔ side = o.side ∧ t = o.stopPrice
  activated : ∀ log b'', Transition.Run
      (Transition.restrict (fun b e => (∃ x, b.HoldsStop id s x) ∧ e.1.cmd.takesOut ≠ some id)
        ApplyStep) b' log b'' →
    ∀ side last, s ∈ b''.triggered side last →
      side = o.side ∧ o.side.triggers o.stopPrice last = true

/-- A new order files no slot that is occupied. -/
theorem applyNew_lists {fuel : Nat} {no : NewOrder} (hs : (coreOf b.arena s).isSome)
    (h : applyNew seq ts fuel b no = .ok (b', events)) {side : Side} {t : Price}
    (hl : b'.Lists side t s) : b.Lists side t s := by
  cases hkind : no.kind.isStop with
  | false => exact (Sheds.applyNew hkind h).lists hl
  | true =>
    rcases applyNew_stop_cases hkind h with ⟨-, rfl⟩ | ⟨-, rfl⟩
    · exact hl
    · rcases (OrderBook.lists_of_lookup (holdStop_lookup b no seq ts)).1 hl with hl | ⟨-, -, rfl⟩
      · exact hl
      · rw [coreOf_vacantKey] at hs
        cases hs

theorem Depletes.lists (h : Depletes b b') {side : Side} {t : Price} :
    b'.Lists side t s ↔ b.Lists side t s := by
  unfold OrderBook.Lists
  rw [h.stops]

/-- While a stop is held its slot is not filed again. -/
theorem OrderBook.HoldsStop.lists (hheld : b.HoldsStop id s o) (hb : Indexed b none) {e : Entry}
    (hcmd : e.1.cmd.takesOut ≠ some id) (h : ApplyStep b e b') {side : Side} {t : Price}
    (hl : b'.Lists side t s) : b.Lists side t s := by
  have hcore := coreOf_of_slot? hheld.stored
  obtain ⟨loc, hloc, hslot⟩ := Option.map_eq_some_iff.1 hheld.indexed
  obtain ⟨⟨seq, ts, cmd⟩, events⟩ := e
  obtain ⟨fuel, h⟩ := h
  cases cmd with
  | new no => exact applyNew_lists (hcore ▸ rfl) h hl
  | cancel id' symbol => exact (applyCancel_depletes h).lists.1 hl
  | replace id' newPrice newQty symbol =>
    have h : applyReplace fuel b id' newPrice newQty seq ts = .ok (b', events) := h
    cases applyReplace_cases h with
    | zeroQty _ => exact hl
    | unknown _ _ => exact hl
    | @replaced loc' o' b₁ b₂ _ _ hqty hloc' _ h₁ h₂ hnew =>
      -- another order is taken out, so the slot stays occupied
      have hne : s ≠ loc'.slot := by
        rintro rfl
        obtain ⟨-, x, hx, hid⟩ := hb id loc hloc
        obtain ⟨-, x', hx', hid'⟩ := hb id' loc' hloc'
        rw [hslot, hx'] at hx
        cases hx
        refine hcmd ?_
        rw [← hid, hid', Command.takesOut, if_neg hqty]
      have hcore₂ : (coreOf b₂.arena s).isSome := by
        rw [removeOrder_core h₂, Function.update_of_ne hne, (Rewired.removeSlot h₁).core]
        exact hcore ▸ rfl
      exact (takeOut_depletes h₁ h₂).lists.1 (applyNew_lists hcore₂ hnew hl)

/-- Replacing a held stop holds it again, in the slot it had, and files that slot under
trigger price zero. -/
theorem applyReplace_stop [LifoSlab A Order] {fuel : Nat} {newPrice : Price} {newQty : Qty}
    (hheld : b.HoldsStop id s o) (hqty : newQty ≠ 0) (hprice : 0 < newPrice)
    (h : applyReplace fuel b id newPrice newQty seq ts = .ok (b', events)) :
    b'.HoldsStop id s ((o.replacement id newPrice newQty).toOrder seq ts) ∧
      ∀ side t, b'.Lists side t s ↔ b.Lists side t s ∨ (side = o.side ∧ t = 0) := by
  obtain ⟨loc, hloc, rfl⟩ := Option.map_eq_some_iff.1 hheld.indexed
  cases applyReplace_cases h with
  | zeroQty hzero => exact absurd hzero hqty
  | unknown _ hidx => cases hidx.symm.trans hloc
  | @replaced loc' o' b₁ b₂ _ _ _ hloc' ho' h₁ h₂ hnew =>
    cases hloc.symm.trans hloc'
    cases hheld.stored.symm.trans (slot?_of_order ho')
    have hlists : ∀ {side t}, b₂.Lists side t loc.slot ↔ b.Lists side t loc.slot :=
      (takeOut_depletes h₁ h₂).lists
    obtain ⟨x, hx, hb₂⟩ := removeOrder_inv h₂
    have hindex : b₂.idIndex = b.idIndex.erase id := by
      rw [hb₂]
      exact (Rewired.removeSlot h₁).idIndex
    have hkey : Slab.vacantKey b₂.arena = loc.slot := by
      rw [hb₂]
      exact LifoSlab.vacantKey_remove _ _ (Option.isSome_iff_exists.2 ⟨x, hx⟩)
    have hstop : (o.replacement id newPrice newQty).kind.isStop = true := hheld.stop
    have hvalid : validate b₂ (o.replacement id newPrice newQty) = none := by
      refine validate_eq_none.2 ⟨hqty, ?_, fun _ => hprice⟩
      rw [hindex]
      simp [Order.replacement]
    rcases applyNew_stop_cases hstop hnew with ⟨hinvalid, -⟩ | ⟨-, rfl⟩
    · exact absurd hvalid hinvalid
    refine ⟨⟨?_, ?_, hheld.stop⟩, fun side t => ?_⟩
    · have hlookup : (holdStop b₂ (o.replacement id newPrice newQty) seq ts).idIndex[id]? =
          some ⟨0, o.side, loc.slot⟩ := by
        refine (OrderedMap.getElem?_insert b₂.idIndex id id _).trans ?_
        rw [if_pos rfl, hkey]
        rfl
      rw [hlookup]
      rfl
    · have hget := Slab.get?_insert b₂.arena
        ((o.replacement id newPrice newQty).toOrder seq ts) loc.slot
      rw [if_pos hkey.symm] at hget
      exact hget
    · rw [OrderBook.lists_of_lookup (holdStop_lookup b₂ _ seq ts), hkey, hlists]
      simp [Order.replacement]

/-- **Replacing a held stop.** It keeps its trigger exactly when that is zero and the
slot is listed nowhere else. -/
theorem reaches_replaceStop [LifoSlab A Order] {newPrice : Price} {newQty : Qty}
    (h : Reaches symbol tick log b) (hheld : b.HoldsStop id s o) (hqty : newQty ≠ 0)
    (hprice : 0 < newPrice)
    (happ : Applies b ⟨seq, ts, .replace id newPrice newQty symbol'⟩ b' events) :
    (∃ s' o', StopReplaced b' id o newPrice newQty s' o') ↔
      o.stopPrice = 0 ∧ ∀ side t, b.Lists side t s → side = o.side ∧ t = 0 := by
  have hreach := h.snoc (l := (_, events)) happ
  obtain ⟨fuel, happ⟩ := happ
  obtain ⟨hheld', hlists⟩ := applyReplace_stop hheld hqty hprice happ
  constructor
  · rintro ⟨s', o', hnew⟩
    obtain rfl : s' = s := Option.some.inj (hnew.held.indexed.symm.trans hheld'.indexed)
    cases hnew.held.stored.symm.trans hheld'.stored
    have hzero : o.stopPrice = 0 := hnew.stopPrice.symm
    refine ⟨hzero, fun side t hl => ?_⟩
    rw [← hzero]
    exact (hnew.listed side t).1 ((hlists side t).2 (.inl hl))
  · rintro ⟨hzero, honly⟩
    have hlisted : ∀ side t, b'.Lists side t s ↔ side = o.side ∧ t = o.stopPrice := by
      intro side t
      rw [hlists, hzero]
      exact ⟨fun hl => hl.elim (honly side t) fun hl => hl, .inr⟩
    refine ⟨s, _, hheld', rfl, rfl, hzero.symm, rfl, rfl, hlisted, fun later b'' hrun => ?_⟩
    have hinv : (∃ log, Reaches symbol tick log b'') ∧
        ∀ side t, b''.Lists side t s → b'.Lists side t s := by
      refine Transition.Run.invariant (I := fun _ c => (∃ log, Reaches symbol tick log c) ∧
        ∀ side t, c.Lists side t s → b'.Lists side t s) ⟨⟨_, hreach⟩, fun _ _ hl => hl⟩ ?_ hrun
      rintro - c e c' - ⟨⟨log, hc⟩, hback⟩ ⟨⟨⟨x, hx⟩, hcmd⟩, hstep⟩
      exact ⟨⟨_, hc.snoc hstep⟩, fun side t hl =>
        hback side t (hx.lists (Indexed.maintained.reaches hc) hcmd hstep hl)⟩
    intro side last hs
    obtain ⟨t, hl, ht⟩ := OrderBook.mem_triggered.1 hs
    obtain ⟨rfl, rfl⟩ := (hlisted side t).1 (hinv.2 side t hl)
    exact ⟨rfl, ht⟩

/-- A stop order to buy five at 0 or above. -/
def stopAtZero : List Sequenced := [⟨1, 0, .new ⟨1, 0, .buy, .stopMarket, .gtc, 0, 0, 5⟩⟩]

theorem reaches_replaceStop_sample : ∃ (b b' : OrderBook (VecSlab Order)) (log : List Entry)
    (o : Order) (events : List OutputEvent), Reaches 0 1 log b ∧ b.HoldsStop 1 0 o ∧
      Applies b ⟨2, 0, .replace 1 7 3 0⟩ b' events ∧ ∃ s' o', StopReplaced b' 1 o 7 3 s' o' := by
  have hok : ∃ r r' o,
      applyAll 9 (OrderBook.new 0 1 : OrderBook (VecSlab Order)) stopAtZero = .ok r ∧
      applyWithin 9 r.1 ⟨2, 0, .replace 1 7 3 0⟩ = .ok r' ∧ r.1.slot? 0 = some o ∧
      (r.1.idIndex[(1 : OrderId)]?).map (·.slot) = some 0 ∧ o.kind.isStop = true ∧
      o.stopPrice = 0 ∧ o.side = .buy ∧ r.1.stopBuys.toList = [(0, [0])] ∧
      r.1.stopSells.toList = [] := by
    refine ⟨_, _, _, rfl, rfl, rfl, ?_⟩
    decide +kernel
  obtain ⟨⟨b, log⟩, ⟨b', events⟩, o, hrun, happ, hstored, hindexed, hstop, hzero, hside, hbuys,
    hsells⟩ := hok
  have hreach := reaches_applyAll hrun
  have hheld : b.HoldsStop 1 0 o := ⟨hindexed, hstored, hstop⟩
  refine ⟨b, b', log, o, events, hreach, hheld, ⟨9, happ⟩,
    (reaches_replaceStop hreach hheld (by decide) (by decide) ⟨9, happ⟩).2 ⟨hzero, ?_⟩⟩
  intro side t hl
  obtain ⟨slots, hslots, -⟩ := hl
  have hmem : (t, slots) ∈ (b.stops side).toList := OrderedMap.mem_toList_iff.2 hslots
  cases side with
  | buy =>
    have hmem := hbuys ▸ hmem
    exact ⟨hside.symm, congrArg Prod.fst (List.mem_singleton.1 hmem)⟩
  | sell =>
    have hmem := hsells ▸ hmem
    cases hmem

/-- A stop order to buy two at 105 or above is replaced, and two orders trade at 50. -/
def stopThenTrade : List Sequenced :=
  [⟨1, 0, .new ⟨1, 0, .buy, .stopMarket, .gtc, 0, 105, 2⟩⟩,
   ⟨2, 0, .replace 1 7 3 0⟩,
   ⟨3, 0, .new ⟨2, 0, .sell, .limit, .gtc, 50, 0, 9⟩⟩,
   ⟨4, 0, .new ⟨3, 0, .buy, .limit, .gtc, 50, 0, 1⟩⟩]

/-- The trade at 50 activates the stop, and it buys. -/
theorem replace_forgets_trigger : ∃ (b b' : OrderBook (VecSlab Order)) (log log' : List Entry)
    (o : Order) (events : List OutputEvent),
    Reaches 0 1 log b ∧ log.map Prod.fst = stopThenTrade.take 1 ∧ b.HoldsStop 1 0 o ∧
      o.stopPrice = 105 ∧ Applies b ⟨2, 0, .replace 1 7 3 0⟩ b' events ∧
      b'.stopBuys.toList = [(0, [0]), (105, [0])] ∧
      (∃ c : OrderBook (VecSlab Order), Reaches 0 1 log' c) ∧ log'.map Prod.fst = stopThenTrade ∧
      .trade 4 1 2 50 3 .buy 0 ∈ log'.flatMap Prod.snd ∧
      ¬∃ s' o', StopReplaced b' 1 o 7 3 s' o' := by
  have hok : ∃ r r' r'' o,
      applyAll 9 (OrderBook.new 0 1 : OrderBook (VecSlab Order)) (stopThenTrade.take 1) = .ok r ∧
      applyWithin 9 r.1 ⟨2, 0, .replace 1 7 3 0⟩ = .ok r' ∧
      applyAll 9 (OrderBook.new 0 1 : OrderBook (VecSlab Order)) stopThenTrade = .ok r'' ∧
      r.1.slot? 0 = some o ∧ r.2.map Prod.fst = stopThenTrade.take 1 ∧
      (r.1.idIndex[(1 : OrderId)]?).map (·.slot) = some 0 ∧ o.kind.isStop = true ∧
      o.stopPrice = 105 ∧ r'.1.stopBuys.toList = [(0, [0]), (105, [0])] ∧
      r''.2.map Prod.fst = stopThenTrade ∧ .trade 4 1 2 50 3 .buy 0 ∈ r''.2.flatMap Prod.snd := by
    refine ⟨_, _, _, _, rfl, rfl, rfl, rfl, ?_⟩
    decide +kernel
  obtain ⟨⟨b, log⟩, ⟨b', events⟩, ⟨c, log'⟩, o, hrun, happ, hrun', hstored, hlog, hindexed, hstop,
    hprice, hstops, hlog', htrade⟩ := hok
  have hheld : b.HoldsStop 1 0 o := ⟨hindexed, hstored, hstop⟩
  refine ⟨b, b', log, log', o, events, reaches_applyAll hrun, hlog, hheld, hprice, ⟨9, happ⟩,
    hstops, ⟨c, reaches_applyAll hrun'⟩, hlog', htrade, ?_⟩
  rintro ⟨s', o', hnew⟩
  obtain ⟨hheld', -⟩ := applyReplace_stop hheld (by decide) (by decide) happ
  obtain rfl : s' = 0 := Option.some.inj (hnew.held.indexed.symm.trans hheld'.indexed)
  have hzero : o'.stopPrice = 0 := by
    rw [Option.some.inj (hnew.held.stored.symm.trans hheld'.stored)]
    rfl
  rw [hnew.stopPrice, hprice] at hzero
  exact absurd hzero (by decide)

end Exchange
