import Exchange.Verify.Indexed
import Exchange.Verify.SnapshotPriority

/-!
# Held stops across a snapshot

The id index locates resting orders and held stops alike, and `load_snapshot` rests
whatever it reads. A held stop comes back as a maker at its limit price, zero for a
stop market order, and the stop maps come back empty.
-/

namespace Exchange

variable {A : Type} [Slab A Order] {b b' : OrderBook A} {σ : Queues Nat}
  {entries : List (OrderId × Location)}

/-! ## What should survive -/

/-- A held stop order. -/
structure HeldStop where
  id : OrderId
  side : Side
  kind : OrderType
  stopPrice : Price
  price : Price
  remaining : Qty
  deriving DecidableEq, Repr

def Order.heldStop (o : Order) : HeldStop :=
  ⟨o.id, o.side, o.kind, o.stopPrice, o.price, o.remaining⟩

/-- The stop orders held under a trigger price. -/
def OrderBook.heldStops (b : OrderBook A) (side : Side) (t : Price) : List HeldStop :=
  ((b.stops side)[t]?.getD []).filterMap fun s => (b.slot? s).map Order.heldStop

/-- Neither the last trade before a command nor a trade in it reaches the trigger. -/
def Untriggered (b : OrderBook A) (events : List OutputEvent) (side : Side) (t : Price) : Prop :=
  (∀ p, b.lastTrade = some p → side.triggers t p = false) ∧
    ∀ seq taker maker p qty aggressor ts,
      .trade seq taker maker p qty aggressor ts ∈ events → side.triggers t p = false

/-- `b'` holds the stop orders that `b` holds and shows the same levels, and the stops
held are not in reach of its commands before they are triggered. -/
structure StopsPreserved (b b' : OrderBook A) : Prop where
  held : ∀ side t, (b'.heldStops side t).Perm (b.heldStops side t)
  unlinked : ∀ side t, ∀ stop ∈ b.heldStops side t, ∀ side' p ids,
    b'.HasQueue side' p ids → stop.id ∉ ids
  depth : ∀ n, b'.depth n = b.depth n
  bestBid : b'.bestBid = b.bestBid
  bestAsk : b'.bestAsk = b.bestAsk
  spared : ∀ cmd b'' events, Applies b' cmd b'' events → ∀ side t, ∀ stop ∈ b.heldStops side t,
    Untriggered b' events side t → ∀ seq taker p qty aggressor ts,
      .trade seq taker stop.id p qty aggressor ts ∉ events

/-! ## Levels -/

omit [Slab A Order] in
/-- The depth shows every level's total. -/
theorem depth_eq_iff : (∀ n, b'.depth n = b.depth n) ↔ b'.lastTrade = b.lastTrade ∧
    ∀ side p, (b'.level? side p).map (·.totalQty) = (b.level? side p).map (·.totalQty) := by
  have hlevels : (∀ side p, (b'.level? side p).map (·.totalQty) =
      (b.level? side p).map (·.totalQty)) ↔
      b'.bids.toList.map (fun e => (e.1, e.2.totalQty)) =
          b.bids.toList.map (fun e => (e.1, e.2.totalQty)) ∧
        b'.asks.toList.map (fun e => (e.1, e.2.totalQty)) =
          b.asks.toList.map (fun e => (e.1, e.2.totalQty)) := by
    rw [OrderedMap.map_toList_eq_iff, OrderedMap.map_toList_eq_iff]
    constructor
    · intro h
      exact ⟨h .buy, h .sell⟩
    · rintro ⟨hbuy, hsell⟩ (_ | _)
      · exact hbuy
      · exact hsell
  rw [hlevels]
  constructor
  · intro h
    have htake : ∀ {α β : Type} {l l' : List α} {f : α → β},
        (∀ n, (l'.take n).map f = (l.take n).map f) → l'.map f = l.map f := by
      intro α β l l' f h
      have h := h (l.length + l'.length)
      rwa [List.take_of_length_le (Nat.le_add_left _ _),
        List.take_of_length_le (Nat.le_add_right _ _)] at h
    exact ⟨congrArg BookSnapshot.lastTrade (h 0),
      htake fun n => congrArg BookSnapshot.bids (h n),
      htake fun n => congrArg BookSnapshot.asks (h n)⟩
  · rintro ⟨hlast, hbids, hasks⟩ n
    unfold OrderBook.depth
    rw [List.map_take, List.map_take, List.map_take, List.map_take, hbids, hasks, hlast]

omit [Slab A Order] in
theorem bestBid_eq_depth (b : OrderBook A) : b.bestBid = (b.depth 1).bids.head? := by
  simp [OrderBook.bestBid, OrderBook.best?, OrderedMap.first?, OrderBook.levels, OrderBook.depth,
    List.head?_take]

omit [Slab A Order] in
theorem bestAsk_eq_depth (b : OrderBook A) : b.bestAsk = (b.depth 1).asks.head? := by
  simp [OrderBook.bestAsk, OrderBook.best?, OrderedMap.first?, OrderBook.levels, OrderBook.depth,
    List.head?_take]

/-! ## What survives -/

/-- A rebuilt book shows the levels of the saved one when these cache exact totals. -/
theorem Rebuilt.depth_iff (h : Rebuilt b.lastTrade (b.ordersOf entries) b')
    (hperm : entries.Perm b.idIndex.toList) :
    (∀ n, b'.depth n = b.depth n) ↔ b.TotalsExact := by
  have hall : ∀ side p, (ordersAt (b.ordersOf entries) side p).Perm
      (ordersAt (b.ordersOf b.idIndex.toList) side p) := fun side p =>
    (hperm.filterMap _).filter _
  have hlevel : ∀ side p, (b'.level? side p).map (·.totalQty) =
      if ordersAt (b.ordersOf b.idIndex.toList) side p = [] then none
      else some (totalRemaining (ordersAt (b.ordersOf b.idIndex.toList) side p)) := by
    intro side p
    have hnil : ordersAt (b.ordersOf entries) side p = [] ↔
        ordersAt (b.ordersOf b.idIndex.toList) side p = [] := by
      rw [← List.length_eq_zero_iff, ← List.length_eq_zero_iff, (hall side p).length_eq]
    rw [h.level, totalRemaining_perm (hall side p)]
    simp only [hnil]
  rw [depth_eq_iff]
  constructor
  · rintro ⟨-, hlevels⟩ side p
    rw [← hlevels, hlevel]
  · intro hexact
    exact ⟨h.lastTrade, fun side p => (hlevel side p).trans (hexact side p).symm⟩

theorem Rebuilt.heldStops {last : Option Price} {os : List Order} (h : Rebuilt last os b')
    (side : Side) (t : Price) : b'.heldStops side t = [] := by
  unfold OrderBook.heldStops
  rw [h.stops, Std.ExtTreeMap.getElem?_empty]
  rfl

/-- Stops survive when there are none. -/
theorem Rebuilt.stopsPreserved_iff (h : Rebuilt b.lastTrade (b.ordersOf entries) b')
    (hperm : entries.Perm b.idIndex.toList) :
    StopsPreserved b b' ↔ (∀ side t, b.heldStops side t = []) ∧ b.TotalsExact := by
  constructor
  · intro hkept
    refine ⟨fun side t => ?_, (h.depth_iff hperm).1 hkept.depth⟩
    have hnil := hkept.held side t
    rw [h.heldStops] at hnil
    exact hnil.symm.eq_nil
  · rintro ⟨hnone, hexact⟩
    have hdepth := (h.depth_iff hperm).2 hexact
    have hmem : ∀ side t stop, stop ∉ b.heldStops side t := fun side t stop hstop => by
      rw [hnone] at hstop
      cases hstop
    refine ⟨fun side t => ?_, fun side t stop hstop => absurd hstop (hmem side t stop), hdepth,
      ?_, ?_, fun _ _ _ _ side t stop hstop => absurd hstop (hmem side t stop)⟩
    · rw [h.heldStops, hnone]
    · rw [bestBid_eq_depth, bestBid_eq_depth, hdepth]
    · rw [bestAsk_eq_depth, bestAsk_eq_depth, hdepth]

/-- Saving does not panic on a reachable book. -/
theorem reaches_located {symbol : SymbolId} {tick : Price} {log : List Entry}
    (h : Reaches symbol tick log b) : b.Located := by
  intro id loc hloc
  obtain ⟨-, o, ho, hid⟩ := Indexed.maintained.reaches h id loc hloc
  obtain ⟨x, hx, rfl⟩ := get?_of_core ho
  exact ⟨x, hx, hid⟩

/-- **Stops after recovery.** Saving and loading a reachable book returns, whatever the
kinds of its orders and the order in which the index enumerates them. The stop orders,
the depth and the best prices come back as they were exactly when no stop order is held
and the cached totals are the sums of what the indexed orders want. -/
theorem reaches_snapshotStops {symbol : SymbolId} {tick : Price} {log : List Entry}
    (h : Reaches symbol tick log b) (hperm : entries.Perm b.idIndex.toList) (lastSeq : Seq) :
    ∃ snap b', saveSnapshot b entries lastSeq = .ok snap ∧
      (loadSnapshot snap : Outcome (OrderBook A × Seq)) = .ok (b', lastSeq) ∧
      (StopsPreserved b b' ↔ (∀ side t, b.heldStops side t = []) ∧ b.TotalsExact) := by
  have hlocated := reaches_located h
  obtain ⟨b', σ, hload, -, hrebuilt, -⟩ :=
    load_rebuilds (A := A) b.symbol b.tick b.lastTrade (b.ordersOf entries)
  refine ⟨_, b', saveSnapshot_eq lastSeq fun e he => ?_, ?_, hrebuilt.stopsPreserved_iff hperm⟩
  · obtain ⟨o, ho, -⟩ := hlocated.entries hperm e he
    exact ⟨o, ho⟩
  · unfold loadSnapshot
    dsimp only
    rw [hload]
    rfl

/-- An ask, a stop above it, and a buy that triggers the stop. -/
def stopTriggered : List Sequenced :=
  [⟨1, 0, .new ⟨1, 0, .sell, .limit, .gtc, 100, 0, 5⟩⟩,
   ⟨2, 0, .new ⟨2, 0, .buy, .stopMarket, .gtc, 0, 100, 3⟩⟩,
   ⟨3, 0, .new ⟨3, 0, .buy, .market, .gtc, 0, 0, 1⟩⟩]

theorem reaches_snapshotStops_sample : ∃ (b b' : OrderBook (VecSlab Order)) (log : List Entry)
    (snap : Snapshot),
    log.map Prod.fst = stopTriggered ∧ b.depth 1 = ⟨[], [(100, 1)], some 100⟩ ∧
      saveSnapshot b b.idIndex.toList 3 = .ok snap ∧ loadSnapshot snap = .ok (b', 3) ∧
      (StopsPreserved b b' ↔ (∀ side t, b.heldStops side t = []) ∧ b.TotalsExact) := by
  have hok : ∃ r, applyAll 9 (OrderBook.new 0 1 : OrderBook (VecSlab Order)) stopTriggered = .ok r ∧
      r.2.map Prod.fst = stopTriggered ∧ r.1.depth 1 = ⟨[], [(100, 1)], some 100⟩ := by
    refine ⟨_, rfl, ?_⟩
    decide +kernel
  obtain ⟨⟨b, log⟩, hrun, hlog, hdepth⟩ := hok
  obtain ⟨snap, b', hsave, hload, hiff⟩ :=
    reaches_snapshotStops (reaches_applyAll hrun) (List.Perm.refl _) 3
  exact ⟨b, b', log, snap, hlog, hdepth, hsave, hload, hiff⟩

/-- A stop market order to buy at 100 or above. -/
def stopAtHundred : List Sequenced := [⟨1, 0, .new ⟨1, 0, .buy, .stopMarket, .gtc, 0, 100, 5⟩⟩]

/-- The stop comes back as a bid at price zero, and a market sell trades with it. -/
theorem loaded_stop_rests : ∃ (b b' : OrderBook (VecSlab Order)) (log : List Entry)
    (snap : Snapshot),
    Reaches 0 1 log b ∧ log.map Prod.fst = stopAtHundred ∧
      saveSnapshot b b.idIndex.toList 2 = .ok snap ∧ loadSnapshot snap = .ok (b', 2) ∧
      b.heldStops .buy 100 = [⟨1, .buy, .stopMarket, 100, 0, 5⟩] ∧ b.bestBid = none ∧
      b'.heldStops .buy 100 = [] ∧ b'.bestBid = some (0, 5) ∧
      (∃ b'' events, Applies b' ⟨2, 0, .new ⟨2, 0, .sell, .market, .gtc, 0, 0, 5⟩⟩ b'' events ∧
        .trade 2 2 1 0 5 .sell 0 ∈ events) ∧ ¬StopsPreserved b b' := by
  have hok : ∃ r, applyAll 9 (OrderBook.new 0 1 : OrderBook (VecSlab Order)) stopAtHundred =
        .ok r ∧
      ∃ snap, saveSnapshot r.1 r.1.idIndex.toList 2 = .ok snap ∧
      ∃ r' : OrderBook (VecSlab Order) × Seq, loadSnapshot snap = .ok r' ∧
      ∃ c, applyWithin 9 r'.1 ⟨2, 0, .new ⟨2, 0, .sell, .market, .gtc, 0, 0, 5⟩⟩ = .ok c ∧
        r.2.map Prod.fst = stopAtHundred ∧ r'.2 = 2 ∧
        r.1.heldStops .buy 100 = [⟨1, .buy, .stopMarket, 100, 0, 5⟩] ∧ r.1.bestBid = none ∧
        r'.1.heldStops .buy 100 = [] ∧ r'.1.bestBid = some (0, 5) ∧
        .trade 2 2 1 0 5 .sell 0 ∈ c.2 := by
    refine ⟨_, rfl, _, rfl, _, rfl, _, rfl, ?_⟩
    decide +kernel
  obtain ⟨⟨b, log⟩, hrun, snap, hsave, ⟨b', lastSeq⟩, hload, ⟨c, traded⟩, hc, hlog, rfl, hheld,
    hbest, hheld', hbest', htrade⟩ := hok
  refine ⟨b, b', log, snap, reaches_applyAll hrun, hlog, hsave, hload, hheld, hbest, hheld', hbest',
    ⟨c, traded, ⟨9, hc⟩, htrade⟩, fun hkept => ?_⟩
  have hbid := hkept.bestBid
  rw [hbest, hbest'] at hbid
  cases hbid

end Exchange
