import Exchange.Verify.HeldStops
import Exchange.Verify.PublishedDepth
import Exchange.Verify.Representation

/-!
# The snapshot round trip

The index is enumerated in some order and the orders are rested again one by one. The
live orders come back, in a book whose links, levels, arena and index fit together. The
depth comes back as it was exactly when the cached totals were sums of what is live.
-/

namespace Exchange

open PriorityBook

variable {A : Type} [Slab A Order] {b b' : OrderBook A} {σ σ' : Queues Nat}
  {q q' : PriorityBook} {entries : List (OrderId × Location)} {id : OrderId}
  {symbol : SymbolId} {tick : Price} {log : List Entry}

/-! ## Live orders -/

/-- What a live order keeps across a snapshot. -/
structure OrderRecord where
  id : OrderId
  side : Side
  kind : OrderType
  tif : TimeInForce
  price : Price
  qty : Qty
  remaining : Qty
  seq : Seq
  ts : Ts
  deriving DecidableEq, Repr

def Order.record (o : Order) : OrderRecord where
  id := o.id
  side := o.side
  kind := o.kind
  tif := o.tif
  price := o.price
  qty := o.qty
  remaining := o.remaining
  seq := o.seq
  ts := o.ts

theorem Order.record_of_reloaded {x o : Order} (h : x.unlinked = o.reloaded symbol) :
    x.record = o.record := by
  have hrecord := congrArg Order.record h
  exact hrecord

/-- The order that the index locates. -/
def OrderBook.find? (b : OrderBook A) (id : OrderId) : Option Order :=
  (b.idIndex[id]?).bind fun loc => b.slot? loc.slot

namespace OrderBook.Located

variable {o : Order}

theorem find?_id (hb : b.Located) (h : b.find? id = some o) : o.id = id := by
  obtain ⟨loc, hloc, ho⟩ := Option.bind_eq_some_iff.1 h
  obtain ⟨x, hx, hid⟩ := hb id loc hloc
  cases ho.symm.trans hx
  exact hid

theorem isSome_find? (hb : b.Located) (id : OrderId) :
    (b.find? id).isSome = (b.idIndex[id]?).isSome := by
  cases hloc : b.idIndex[id]? with
  | none => simp [OrderBook.find?, hloc]
  | some loc =>
    obtain ⟨o, ho, -⟩ := hb id loc hloc
    simp [OrderBook.find?, hloc, ho]

/-- The saved orders are those that the index locates. -/
theorem mem_ordersOf_iff (hb : b.Located) (hperm : entries.Perm b.idIndex.toList) :
    o ∈ b.ordersOf entries ↔ b.find? o.id = some o := by
  constructor
  · intro h
    obtain ⟨⟨id, loc⟩, he, ho⟩ := List.mem_filterMap.1 h
    have hloc := OrderedMap.mem_toList_iff.1 (hperm.mem_iff.1 he)
    obtain ⟨x, hx, hid⟩ := hb id loc hloc
    cases ho.symm.trans hx
    exact Option.bind_eq_some_iff.2 ⟨loc, hid ▸ hloc, ho⟩
  · intro h
    obtain ⟨loc, hloc, ho⟩ := Option.bind_eq_some_iff.1 h
    have he := hperm.mem_iff.2 (OrderedMap.mem_toList_iff.2 hloc)
    exact List.mem_filterMap.2 ⟨(o.id, loc), he, ho⟩

end OrderBook.Located

namespace Stocked

variable {os : List Order} {o : Order} {s : Nat}

theorem of_occupied (h : Stocked symbol os b σ) (hs : (coreOf b.arena s).isSome = true) :
    ∃ o ∈ os, s ∈ σ o.side o.price ∧ coreOf b.arena s = some (o.reloaded symbol) ∧
      b.idIndex[o.id]? = some ⟨o.price, o.side, s⟩ := by
  obtain ⟨o, ho, hloc⟩ := h.covered s hs
  obtain ⟨s', hs', hcore, hloc'⟩ := h.filed o ho
  cases hloc.symm.trans hloc'
  exact ⟨o, ho, hs', hcore, hloc⟩

theorem of_index (h : Stocked symbol os b σ) {loc : Location} (hloc : b.idIndex[id]? = some loc) :
    ∃ o ∈ os, o.id = id ∧ loc.slot ∈ σ o.side o.price ∧
      coreOf b.arena loc.slot = some (o.reloaded symbol) ∧ loc.side = o.side ∧
      loc.price = o.price := by
  obtain ⟨o, ho, rfl⟩ := h.known id loc hloc
  obtain ⟨s, hs, hcore, hloc'⟩ := h.filed o ho
  cases hloc.symm.trans hloc'
  exact ⟨o, ho, rfl, hs, hcore, rfl, rfl⟩

theorem find?_of_mem (h : Stocked symbol os b σ) (ho : o ∈ os) :
    (b.find? o.id).map Order.record = some o.record := by
  obtain ⟨s, -, hcore, hloc⟩ := h.filed o ho
  obtain ⟨x, hx, hu⟩ := get?_of_core hcore
  have hx : b.slot? s = some x := hx
  rw [OrderBook.find?, hloc, Option.bind_some, hx, Option.map_some, Order.record_of_reloaded hu]

theorem index_eq_none (h : Stocked symbol os b σ) (hid : ∀ o ∈ os, o.id ≠ id) :
    b.idIndex[id]? = none := by
  cases hloc : b.idIndex[id]? with
  | none => rfl
  | some loc =>
    obtain ⟨o, ho, he⟩ := h.known id loc hloc
    exact absurd he (hid o ho)

/-- The structure of a stocked book is consistent. -/
theorem represents (h : Stocked symbol os b σ) (hrem : ∀ o ∈ os, o.remaining ≠ 0) :
    Represents b σ := by
  have hcore : ∀ s, (b.slot? s).isSome = (coreOf b.arena s).isSome := fun s => by
    simp [OrderBook.slot?, coreOf]
  refine ⟨h.present, h.wired.absent, h.wired.chain, fun side p s hs => ?_,
    fun side p side' p' s hs hs' => h.wired.disjoint hs' hs, fun s => ?_, fun s => ?_,
    fun id loc hloc => ?_⟩
  · obtain ⟨o, ho, -, ho', -⟩ := h.of_occupied (h.wired.occupied hs)
    obtain ⟨x, hx, hside, hprice⟩ := h.wired.placed side p s hs
    cases ho'.symm.trans hx
    obtain ⟨x, hx, hu⟩ := get?_of_core ho'
    have hrecord := Order.record_of_reloaded hu
    have hremaining : x.remaining = o.remaining := congrArg OrderRecord.remaining hrecord
    refine ⟨x, hx, ?_, ?_, hremaining ▸ hrem o ho⟩
    · exact (congrArg OrderRecord.side hrecord).trans hside
    · exact (congrArg OrderRecord.price hrecord).trans hprice
  · rw [hcore]
    constructor
    · intro hs
      obtain ⟨o, -, hs, -⟩ := h.of_occupied hs
      exact ⟨_, _, hs⟩
    · rintro ⟨side, p, hs⟩
      exact h.wired.occupied hs
  · constructor
    · rintro ⟨id, loc, hloc, rfl⟩
      obtain ⟨o, -, -, hs, -⟩ := h.of_index hloc
      exact ⟨_, _, hs⟩
    · rintro ⟨side, p, hs⟩
      obtain ⟨o, -, -, -, hloc⟩ := h.of_occupied (h.wired.occupied hs)
      exact ⟨o.id, _, hloc, rfl⟩
  · obtain ⟨o, -, hid, hs, hcore, hside, hprice⟩ := h.of_index hloc
    obtain ⟨x, hx, hu⟩ := get?_of_core hcore
    have hrecord := Order.record_of_reloaded hu
    rw [hside, hprice]
    exact ⟨hs, x, hx, (congrArg OrderRecord.id hrecord).trans hid,
      congrArg OrderRecord.side hrecord, congrArg OrderRecord.price hrecord⟩

end Stocked

/-! ## Totals -/

theorem ordersAt_unlinked (b : OrderBook A) (side : Side) (p : Price) :
    (ordersAt (b.ordersOf b.idIndex.toList) side p).map Order.unlinked =
      (b.liveOrders side).filter fun o => o.price = p := by
  unfold OrderBook.ordersOf OrderBook.liveOrders ordersAt
  rw [List.filter_filter, ← List.map_filterMap, List.filter_map]
  refine congrArg (List.map Order.unlinked) (List.filter_congr fun o _ => ?_)
  change decide (o.side = side ∧ o.price = p) = (decide (o.price = p) && decide (o.side = side))
  rw [Bool.decide_and, Bool.and_comm]

/-- Totals that have not wrapped are the sums that loading makes. -/
theorem Refines.totalsExact (hr : Refines b σ none q) (hfree : q.StopFree) (hx : q.Exact) :
    b.TotalsExact := by
  intro side p
  have hperm := ((liveOrders_perm hr hfree side).filter fun o => o.price = p)
  rw [← ordersAt_unlinked] at hperm
  generalize ordersAt (b.ordersOf b.idIndex.toList) side p = os at hperm ⊢
  have hnil : os = [] ↔ q.queue side p = [] := by
    rw [← List.map_eq_nil_iff (f := Order.unlinked)]
    exact ⟨fun h => (h ▸ hperm).nil_eq.symm, fun h => (show List.Perm _ [] from h ▸ hperm).eq_nil⟩
  cases hl : b.level? side p with
  | none =>
    have hempty : q.queue side p = [] := by
      by_contra hne
      have := (hr.present side p).2 hne
      rw [hl] at this
      cases this
    rw [if_pos (hnil.2 hempty)]
    rfl
  | some l =>
    have hne : os ≠ [] := fun h => (hr.present side p).1 (by rw [hl]; rfl) (hnil.1 h)
    have hsum : (os.map fun o => o.remaining.toNat).sum = supply (q.queue side p) := by
      have h := (hperm.map fun o => o.remaining.toNat).sum_eq
      rwa [List.map_map] at h
    rw [if_neg hne]
    refine congrArg some (UInt64.toNat_inj.1 ?_)
    have htotal := hx side p
    rw [hr.tally side p l hl] at htotal
    rw [totalRemaining, toNat_foldl_add, hsum, ← htotal, UInt64.toNat_zero, Nat.zero_add]
    exact (Nat.mod_eq_of_lt l.totalQty.toNat_lt).symm

theorem ReachesWithin.totalsExact (h : ReachesWithin symbol tick log b) : b.TotalsExact := by
  obtain ⟨q, ⟨σ, hr⟩, hfree, hx⟩ := reachesWithin_exact h
  exact hr.totalsExact hfree hx

/-! ## The round trip -/

/-- `b'` has the orders and the depth of `b`, and its own structure is consistent. -/
structure RoundTrips (b b' : OrderBook A) : Prop where
  symbol : b'.symbol = b.symbol
  tick : b'.tick = b.tick
  lastTrade : b'.lastTrade = b.lastTrade
  ids : ∀ id : OrderId, (b'.idIndex[id]?).isSome = (b.idIndex[id]?).isSome
  orders : ∀ id, (b'.find? id).map Order.record = (b.find? id).map Order.record
  depth : ∀ n, b'.depth n = b.depth n
  represents : ∃ σ, Represents b' σ

/-- **Save and load.** The loaded book has everything but the depth in any case, also when
stop orders are held or the links of the saved book are broken. -/
theorem roundTrips_iff (hb : b.Located) (hsound : Sound b none)
    (hperm : entries.Perm b.idIndex.toList) (lastSeq : Seq) :
    ∃ snap b', saveSnapshot b entries lastSeq = .ok snap ∧
      (loadSnapshot snap : Outcome (OrderBook A × Seq)) = .ok (b', lastSeq) ∧
      Rebuilt b.lastTrade (b.ordersOf entries) b' ∧ (RoundTrips b b' ↔ b.TotalsExact) := by
  obtain ⟨b', σ', hload, -, hrebuilt, hsymbol, htick, hstocked⟩ :=
    load_rebuilds (A := A) b.symbol b.tick b.lastTrade (b.ordersOf entries)
  have hstocked := hstocked (hb.nodup_ids hperm)
  refine ⟨_, b', saveSnapshot_eq lastSeq fun e he => ?_, ?_, hrebuilt, fun h => ?_,
    fun hexact => ?_⟩
  · obtain ⟨o, ho, -⟩ := hb.entries hperm e he
    exact ⟨o, ho⟩
  · unfold loadSnapshot
    dsimp only
    rw [hload]
    rfl
  · exact (hrebuilt.depth_iff hperm).1 h.depth
  · have hfind : ∀ id, (b'.idIndex[id]?).isSome = (b.idIndex[id]?).isSome ∧
        (b'.find? id).map Order.record = (b.find? id).map Order.record := by
      intro id
      cases hold : b.find? id with
      | some o =>
        obtain rfl := hb.find?_id hold
        have ho := (hb.mem_ordersOf_iff hperm).2 hold
        obtain ⟨s, -, -, hloc⟩ := hstocked.filed o ho
        rw [hloc, ← hb.isSome_find?, hold, hstocked.find?_of_mem ho]
        exact ⟨rfl, rfl⟩
      | none =>
        have hnone : b'.idIndex[id]? = none := hstocked.index_eq_none fun o ho he => by
          rw [hb.mem_ordersOf_iff hperm, he, hold] at ho
          cases ho
        rw [hnone, ← hb.isSome_find?, hold, OrderBook.find?, hnone]
        exact ⟨rfl, rfl⟩
    have hrem : ∀ o ∈ b.ordersOf entries, o.remaining ≠ 0 := by
      intro o ho
      obtain ⟨loc, -, hslot⟩ := Option.bind_eq_some_iff.1 ((hb.mem_ordersOf_iff hperm).1 ho)
      exact (hsound loc.slot o.unlinked (coreOf_of_slot? hslot) nofun).remaining
    exact ⟨hsymbol, htick, hrebuilt.lastTrade, fun id => (hfind id).1, fun id => (hfind id).2,
      (hrebuilt.depth_iff hperm).2 hexact, σ', hstocked.represents hrem⟩

/-- **The snapshot round trip.** Saving and loading a book reached without stop orders
returns, whatever the order in which the index enumerates its entries, and brings the
book back exactly when every level caches what its orders add up to. In a run in which
what is live always fits a machine word it does. -/
theorem stopFree_roundTrips (h : ReachesStopFree symbol tick log b)
    (hperm : entries.Perm b.idIndex.toList) (lastSeq : Seq) :
    ∃ snap b', saveSnapshot b entries lastSeq = .ok snap ∧
      (loadSnapshot snap : Outcome (OrderBook A × Seq)) = .ok (b', lastSeq) ∧
      (RoundTrips b b' ↔ b.TotalsExact) ∧
      (ReachesWithin symbol tick log b → RoundTrips b b') := by
  have hreach : Reaches symbol tick log b := h.mono fun _ _ _ hstep => hstep.2
  obtain ⟨snap, b', hsave, hload, -, hiff⟩ :=
    roundTrips_iff (reaches_located hreach) (reaches_sound hreach) hperm lastSeq
  exact ⟨snap, b', hsave, hload, hiff, fun hwithin => hiff.2 hwithin.totalsExact⟩

theorem stopFree_roundTrips_sample : ∃ (b b' : OrderBook (VecSlab Order)) (snap : Snapshot),
    b.depth 1 = ⟨[], [(100, 10)], none⟩ ∧ saveSnapshot b b.idIndex.toList.reverse 2 = .ok snap ∧
      loadSnapshot snap = .ok (b', 2) ∧ RoundTrips b b' := by
  have hok : ∃ r, applyAll 9 (OrderBook.new 0 1 : OrderBook (VecSlab Order)) twoSells = .ok r ∧
      stepsHold 9 (fun _ cmd b' => cmd.cmd.StopFree && b'.liveQty < 2 ^ 64)
        (OrderBook.new 0 1 : OrderBook (VecSlab Order)) twoSells = true ∧
      r.1.depth 1 = ⟨[], [(100, 10)], none⟩ := by
    refine ⟨_, rfl, ?_⟩
    decide +kernel
  obtain ⟨⟨b, log⟩, hrun, htest, hdepth⟩ := hok
  have hwithin : ReachesWithin 0 1 log b := reachesWithin_of_stepsHold hrun htest
  obtain ⟨snap, b', hsave, hload, -, htrips⟩ := stopFree_roundTrips
    (reachesStopFree_applyAll hrun (by decide)) b.idIndex.toList.reverse_perm 2
  exact ⟨b, b', snap, hdepth, hsave, hload, htrips hwithin⟩

/-- Two sells whose quantities wrap the total, and a market buy of the first. -/
def wrappedThenBought : List Sequenced :=
  [⟨1, 0, .new ⟨1, 0, .sell, .limit, .gtc, 100, 0, 18446744073709551615⟩⟩,
   ⟨2, 0, .new ⟨2, 0, .sell, .limit, .gtc, 100, 0, 1⟩⟩,
   ⟨3, 0, .new ⟨3, 0, .buy, .market, .gtc, 0, 0, 18446744073709551615⟩⟩]

/-- One lot is live and the depth shows none; loaded from the snapshot it shows one. -/
theorem loaded_depth_differs : ∃ (b b' : OrderBook (VecSlab Order)) (log : List Entry)
    (snap : Snapshot), ReachesStopFree 0 1 log b ∧ log.map Prod.fst = wrappedThenBought ∧
      b.liveQty = 1 ∧ saveSnapshot b b.idIndex.toList 3 = .ok snap ∧
      loadSnapshot snap = .ok (b', 3) ∧ b.depth 1 = ⟨[], [(100, 0)], some 100⟩ ∧
      b'.depth 1 = ⟨[], [(100, 1)], some 100⟩ ∧ ¬RoundTrips b b' := by
  have hok : ∃ r, applyAll 9 (OrderBook.new 0 1 : OrderBook (VecSlab Order)) wrappedThenBought =
        .ok r ∧
      ∃ snap, saveSnapshot r.1 r.1.idIndex.toList 3 = .ok snap ∧
      ∃ r' : OrderBook (VecSlab Order) × Seq, loadSnapshot snap = .ok r' ∧
        r.2.map Prod.fst = wrappedThenBought ∧ r.1.liveQty = 1 ∧ r'.2 = 3 ∧
        r.1.depth 1 = ⟨[], [(100, 0)], some 100⟩ ∧ r'.1.depth 1 = ⟨[], [(100, 1)], some 100⟩ := by
    refine ⟨_, rfl, _, rfl, _, rfl, ?_⟩
    decide +kernel
  obtain ⟨⟨b, log⟩, hrun, snap, hsave, ⟨b', lastSeq⟩, hload, hlog, hlive, rfl, hdepth,
    hdepth'⟩ := hok
  refine ⟨b, b', log, snap, reachesStopFree_applyAll hrun (by decide), hlog, hlive, hsave, hload,
    hdepth, hdepth', fun h => ?_⟩
  have hsame := h.depth 1
  rw [hdepth, hdepth'] at hsame
  exact absurd hsame (by decide)

end Exchange
