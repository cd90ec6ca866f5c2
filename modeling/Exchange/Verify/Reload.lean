import Exchange.Wal.Snapshot
import Exchange.Verify.Live

/-!
# Saving and loading a book

`loadOrder` is one write of an order into a vacant slot, one index entry and one
`insert_resting`. Loading limit orders that may rest beside each other, in any
order, refines resting them one by one in the priority book.
-/

namespace Exchange

open Links PriorityBook

variable {A : Type} [Slab A Order] {b : OrderBook A} {σ : Queues Nat} {q : PriorityBook}
  {s : Nat} {o : Order}

/-! ## Saving -/

/-- The orders that the entries locate. -/
def OrderBook.ordersOf (b : OrderBook A) (entries : List (OrderId × Location)) : List Order :=
  entries.filterMap fun e => b.slot? e.2.slot

/-- Every index entry locates an order with its id. -/
def OrderBook.Located (b : OrderBook A) : Prop :=
  ∀ (id : OrderId) loc, b.idIndex[id]? = some loc → ∃ o, b.slot? loc.slot = some o ∧ o.id = id

theorem ordersOf_cons {entries : List (OrderId × Location)} {e : OrderId × Location}
    (h : b.slot? e.2.slot = some o) : b.ordersOf (e :: entries) = o :: b.ordersOf entries := by
  simp [OrderBook.ordersOf, h]

/-- Saving reads the located orders. -/
theorem saveSnapshot_eq {entries : List (OrderId × Location)} (lastSeq : Seq)
    (h : ∀ e ∈ entries, ∃ o, b.slot? e.2.slot = some o) :
    saveSnapshot b entries lastSeq = .ok
      { symbol := b.symbol, tick := b.tick, lastSeq, lastTrade := b.lastTrade,
        restingOrders := (b.ordersOf entries).map Order.toSnap } := by
  have hread : entries.mapM (fun e => Order.toSnap <$> b.order e.2.slot) =
      (.ok ((b.ordersOf entries).map Order.toSnap) : Outcome (List SnapOrder)) := by
    induction entries with
    | nil => rfl
    | cons e entries ih =>
      obtain ⟨o, ho⟩ := h e List.mem_cons_self
      rw [List.mapM_cons, ih fun e' he' => h e' (List.mem_cons_of_mem e he'), ordersOf_cons ho,
        order_eq ho]
      rfl
  unfold saveSnapshot
  rw [hread]
  rfl

theorem ids_ordersOf {entries : List (OrderId × Location)}
    (h : ∀ e ∈ entries, ∃ o, b.slot? e.2.slot = some o ∧ o.id = e.1) :
    (b.ordersOf entries).map (·.id) = entries.map Prod.fst := by
  induction entries with
  | nil => rfl
  | cons e entries ih =>
    obtain ⟨o, ho, hid⟩ := h e List.mem_cons_self
    rw [ordersOf_cons ho, List.map_cons, List.map_cons, hid,
      ih fun e' he' => h e' (List.mem_cons_of_mem e he')]

theorem OrderBook.Located.entries (hb : b.Located) {entries : List (OrderId × Location)}
    (hperm : entries.Perm b.idIndex.toList) :
    ∀ e ∈ entries, ∃ o, b.slot? e.2.slot = some o ∧ o.id = e.1 := fun e he =>
  hb e.1 e.2 (OrderedMap.mem_toList_iff.1 (hperm.mem_iff.1 he))

/-- The ids of the saved orders are the enumerated keys, each once. -/
theorem OrderBook.Located.nodup_ids (hb : b.Located) {entries : List (OrderId × Location)}
    (hperm : entries.Perm b.idIndex.toList) : ((b.ordersOf entries).map (·.id)).Nodup := by
  rw [ids_ordersOf (hb.entries hperm), (hperm.map Prod.fst).nodup_iff,
    Std.ExtTreeMap.map_fst_toList_eq_keys]
  exact OrderedMap.nodup_keys _

/-! ## Loading one order -/

/-- A saved order as it is stored again. -/
def Order.reloaded (o : Order) (symbol : SymbolId) : Order :=
  { o.unlinked with symbol, status := .new }

/-- What `loadOrder` does: the order takes a vacant slot, unlinked, and is indexed and
rested there. -/
theorem loadOrder_toSnap (symbol : SymbolId) (b : OrderBook A) (o : Order) :
    ∃ a, coreOf a =
        Function.update (coreOf b.arena) (Slab.vacantKey b.arena) (some (o.reloaded symbol)) ∧
      linksOf a =
        Function.update (linksOf b.arena) (Slab.vacantKey b.arena) (some (none, none)) ∧
      loadOrder symbol b o.toSnap = ((b.setArena a).setIndex (b.idIndex.insert o.id
        ⟨o.price, o.side, Slab.vacantKey b.arena⟩)).insertResting (Slab.vacantKey b.arena) := by
  generalize hk : Slab.vacantKey b.arena = k
  generalize hx : Order.new o.id symbol o.side o.kind o.tif o.price o.stopPrice o.remaining
    o.seq o.ts = x
  have hcore₀ : coreOf (Slab.insert b.arena x) = Function.update (coreOf b.arena) k (some x) := by
    rw [coreOf_insert, hk, ← hx]
    rfl
  have hlinks₀ : linksOf (Slab.insert b.arena x) =
      Function.update (linksOf b.arena) k (some (none, none)) := by
    rw [linksOf_insert, hk, ← hx]
    rfl
  obtain ⟨a₁, h₁, hcore₁, hlinks₁⟩ := modifyOrder_core
    (b := b.setArena (Slab.insert b.arena x)) (s := k) (o := x)
    (by rw [OrderBook.arena_setArena, hcore₀, Function.update_self])
    (fun x => { x with qty := o.qty }) (fun _ => ⟨rfl, rfl⟩) fun _ => rfl
  rw [OrderBook.arena_setArena, hcore₀, Function.update_idem] at hcore₁
  obtain ⟨a₂, h₂, hcore₂, hlinks₂⟩ := modifyOrder_core (b := b.setArena a₁) (s := k)
    (o := { x with qty := o.qty })
    (by rw [OrderBook.arena_setArena, hcore₁, Function.update_self])
    (fun x => { x with remaining := o.remaining }) (fun _ => ⟨rfl, rfl⟩) fun _ => rfl
  rw [OrderBook.arena_setArena, hcore₁, Function.update_idem] at hcore₂
  rw [OrderBook.arena_setArena] at hlinks₁ hlinks₂
  rw [OrderBook.setArena_setArena] at h₁ h₂
  refine ⟨a₂, ?_, hlinks₂.trans (hlinks₁.trans hlinks₀), ?_⟩
  · rw [hcore₂, ← hx]
    rfl
  · unfold loadOrder
    simp only [Order.toSnap, Side.ofCode_code, OrderType.ofCode_code, TimeInForce.ofCode_code,
      hx, hk, h₁, h₂, Fuel.ok_bind]
    rfl

namespace Refines

/-- Only the orders and the links of the arena matter. -/
theorem congr_arena {a a' : A} {hidden : Option Nat} (hr : Refines (b.setArena a) σ hidden q)
    (hcore : coreOf a' = coreOf a) (hlinks : linksOf a' = linksOf a) :
    Refines (b.setArena a') σ hidden q := by
  refine ⟨hr.wired.congr (fun side p => ?_) (fun _ _ s _ => congrFun hlinks s)
    fun _ _ s _ => congrFun hcore s, ?_, fun s o h => ?_, fun side p => ?_, fun side p l h => ?_,
    hr.wf, hr.symbol, hr.tick, hr.stopBuys, hr.stopSells, hr.lastTrade⟩
  · rw [OrderBook.level?_setArena, OrderBook.level?_setArena]
  · have hf := hr.filed
    rw [OrderBook.arena_setArena, ← hcore] at hf
    exact hf
  · rw [OrderBook.arena_setArena, hlinks]
    exact hr.loose_links s o h
  · rw [OrderBook.level?_setArena]
    have h := hr.present side p
    rwa [OrderBook.level?_setArena] at h
  · rw [OrderBook.level?_setArena] at h
    refine hr.tally side p l ?_
    rwa [OrderBook.level?_setArena]

/-- Loading a limit order that may rest is resting it. -/
theorem loadOrder (hr : Refines b σ none q) (symbol : SymbolId) (hkind : o.kind = .limit)
    (hrem : o.remaining ≠ 0) (hid : b.idIndex[o.id]? = none)
    (hcross : ∀ y ∈ q.makers o.side.opposite, o.side.withinLimit o.price y.price = false) :
    ∃ b' σ', Exchange.loadOrder symbol b o.toSnap = .ok b' ∧
      Refines b' σ' none (q.rest (o.reloaded symbol)) := by
  obtain ⟨a, hcore, hlinks, heq⟩ := loadOrder_toSnap symbol b o
  have hcore' : coreOf a = coreOf (Slab.insert b.arena (o.reloaded symbol)) :=
    hcore.trans (coreOf_insert (o := o.reloaded symbol)).symm
  have hlinks' : linksOf a = linksOf (Slab.insert b.arena (o.reloaded symbol)) :=
    hlinks.trans (linksOf_insert (o := o.reloaded symbol)).symm
  have hentered := (hr.enter (o.reloaded symbol)).congr_arena hcore' hlinks'
  have ho : coreOf (b.setArena a).arena (Slab.vacantKey b.arena) = some (o.reloaded symbol) := by
    rw [OrderBook.arena_setArena, hcore, Function.update_self]
  generalize hno : o.replacement o.id o.price o.qty = no
  have hplace : no.id = o.id ∧ no.price = o.price ∧ no.side = o.side := by
    rw [← hno]
    exact ⟨rfl, rfl, rfl⟩
  obtain ⟨b', σ', hrest, hr', -⟩ := hentered.restOrder ho hkind hrem hid hcross hplace
  rw [← hno] at hrest
  exact ⟨b', σ', heq.trans hrest, hr'⟩

end Refines

/-! ## Loading all orders -/

/-- The sum of what the orders of a level want, as `push_back` adds it up. -/
def totalRemaining (os : List Order) : Qty := os.foldl (fun total o => total + o.remaining) 0

theorem totalRemaining_snoc (os : List Order) (o : Order) :
    totalRemaining (os ++ [o]) = totalRemaining os + o.remaining := by
  simp [totalRemaining]

theorem totalRemaining_perm {os os' : List Order} (h : os.Perm os') :
    totalRemaining os = totalRemaining os' :=
  h.foldl_eq' (fun x _ y _ z => by ac_rfl) 0

/-- The orders of one side and price. -/
def ordersAt (os : List Order) (side : Side) (p : Price) : List Order :=
  os.filter fun o => o.side = side ∧ o.price = p

theorem ordersAt_snoc (os : List Order) (o : Order) (side : Side) (p : Price) :
    ordersAt (os ++ [o]) side p =
      if o.side = side ∧ o.price = p then ordersAt os side p ++ [o] else ordersAt os side p := by
  unfold ordersAt
  rw [List.filter_append]
  split
  · next h => simp [h]
  · next h => simp [h]

/-- Limit orders that may rest in one book. -/
structure MayRest (os : List Order) : Prop where
  maker : ∀ o ∈ os, o.kind = .limit ∧ o.remaining ≠ 0
  nodup : (os.map (·.id)).Nodup
  uncrossed : ∀ o ∈ os, ∀ y ∈ os, y.side = o.side.opposite →
    o.side.withinLimit o.price y.price = false

theorem MayRest.of_append {os os' : List Order} (h : MayRest (os ++ os')) : MayRest os where
  maker o ho := h.maker o (List.mem_append_left _ ho)
  nodup := by
    have hnd := h.nodup
    rw [List.map_append] at hnd
    exact hnd.of_append_left
  uncrossed o ho y hy := h.uncrossed o (List.mem_append_left _ ho) y (List.mem_append_left _ hy)

/-- What loading the orders `os` into a new book leaves in the priority book. -/
structure Reloads (symbol : SymbolId) (tick : Price) (last : Option Price) (os : List Order)
    (q : PriorityBook) : Prop where
  stopFree : q.StopFree
  makers : ∀ side x, x ∈ q.makers side ↔ x.side = side ∧ ∃ o ∈ os, x = o.reloaded symbol
  queue : ∀ side p, q.queue side p = (ordersAt os side p).map (·.reloaded symbol)
  tally : ∀ side p, (q.tally side p).totalQty = totalRemaining (ordersAt os side p)
  symbol : q.symbol = symbol
  tick : q.tick = tick
  lastTrade : q.lastTrade = last

/-- One more order. -/
theorem Reloads.rest {symbol : SymbolId} {tick : Price} {last : Option Price} {os : List Order}
    (h : Reloads symbol tick last os q) (hq : q.WF) (o : Order) :
    Reloads symbol tick last (os ++ [o]) (q.rest (o.reloaded symbol)) := by
  refine ⟨⟨h.stopFree.held, h.stopFree.buys, h.stopFree.sells⟩, fun side x => ?_,
    fun side p => ?_, fun side p => ?_, h.symbol, h.tick, h.lastTrade⟩
  · rw [mem_makers_rest, h.makers]
    constructor
    · rintro (⟨hxs, y, hy, rfl⟩ | ⟨rfl, rfl⟩)
      · exact ⟨hxs, y, List.mem_append_left _ hy, rfl⟩
      · exact ⟨rfl, o, List.mem_append_right _ List.mem_cons_self, rfl⟩
    · rintro ⟨rfl, y, hy, rfl⟩
      rcases List.mem_append.1 hy with hy | hy
      · exact .inl ⟨rfl, y, hy, rfl⟩
      · obtain rfl := List.mem_singleton.1 hy
        exact .inr ⟨rfl, rfl⟩
  · rw [ordersAt_snoc]
    split
    · next hsp =>
      obtain ⟨rfl, rfl⟩ := hsp
      rw [List.map_append, ← h.queue]
      exact queue_rest hq (o.reloaded symbol)
    · next hsp =>
      rw [← h.queue]
      exact queue_rest_of_ne fun e => hsp ⟨e.1.symm, e.2.symm⟩
  · rw [ordersAt_snoc]
    split
    · next hsp =>
      obtain ⟨rfl, rfl⟩ := hsp
      rw [totalRemaining_snoc, ← h.tally]
      exact congrArg Tally.totalQty (tally_rest hq (o.reloaded symbol))
    · next hsp =>
      rw [← h.tally]
      exact congrArg Tally.totalQty (tally_rest_of_ne fun e => hsp ⟨e.1.symm, e.2.symm⟩)

/-- **Loading refines resting.** Whatever the order of the list, loading returns, and
the priority book loaded queues each level's orders in the order of the list. -/
theorem load_refines (symbol : SymbolId) (tick : Price) (last : Option Price) {os : List Order}
    (hos : MayRest os) :
    ∃ (b : OrderBook A) (σ : Queues Nat) (q : PriorityBook),
      (os.map Order.toSnap).foldlM (loadOrder symbol)
        { OrderBook.new symbol tick with lastTrade := last } = .ok b ∧
      Refines b σ none q ∧ Reloads symbol tick last os q := by
  induction os using List.reverseRecOn with
  | nil =>
    have hnew := Refines.new (A := A) symbol tick
    refine ⟨_, _, { PriorityBook.new symbol tick with lastTrade := last }, rfl,
      ⟨hnew.wired.congr (fun side p => ?_) (fun _ _ _ _ => rfl) fun _ _ _ _ => rfl, hnew.filed,
        hnew.loose_links, fun side p => ?_, fun side p l h => ?_, hnew.wf.withLastTrade last, rfl,
        rfl, rfl, rfl, rfl⟩,
      ⟨⟨fun _ => rfl, rfl, rfl⟩, fun side x => ?_, fun _ _ => rfl, fun _ _ => rfl, rfl, rfl, rfl⟩⟩
    · cases side <;> rfl
    · have h := hnew.present side p
      cases side <;> exact h
    · refine hnew.tally side p l ?_
      cases side <;> exact h
    · simp [PriorityBook.new]
  | append_singleton os o ih =>
    obtain ⟨b, σ, q, hload, hr, hq⟩ := ih hos.of_append
    have ho : o ∈ os ++ [o] := List.mem_append_right _ List.mem_cons_self
    obtain ⟨hkind, hrem⟩ := hos.maker o ho
    have hid : b.idIndex[o.id]? = none := by
      rw [hr.index_none_iff hq.stopFree.held, hr.wf.live?_eq_none]
      intro side x hx
      obtain ⟨-, y, hy, rfl⟩ := (hq.makers side x).1 hx
      have hnd := hos.nodup
      rw [List.map_append, List.map_cons, List.map_nil, List.nodup_append] at hnd
      exact hnd.2.2 _ (List.mem_map_of_mem hy) _ List.mem_cons_self
    have hcross : ∀ y ∈ q.makers o.side.opposite, o.side.withinLimit o.price y.price = false := by
      intro x hx
      obtain ⟨hside, y, hy, rfl⟩ := (hq.makers _ x).1 hx
      exact hos.uncrossed o ho y (List.mem_append_left _ hy) hside
    obtain ⟨b', σ', hb', hr'⟩ := hr.loadOrder symbol hkind hrem hid hcross
    refine ⟨b', σ', _, ?_, hr', hq.rest hr.wf o⟩
    rw [List.map_append, List.foldlM_append, hload, Fuel.ok_bind, List.map_cons, List.map_nil,
      List.foldlM_cons, hb']
    rfl

/-! ## Loading anything

Whatever the kinds and prices of the orders, all of them end in price levels. -/

/-- What loading one order does to a book. -/
structure LoadedOrder (symbol : SymbolId) (b : OrderBook A) (σ : Queues Nat) (o : Order)
    (b' : OrderBook A) : Prop where
  wired : Wired b' (σ.set o.side o.price (σ o.side o.price ++ [Slab.vacantKey b.arena]))
  core : coreOf b'.arena =
    Function.update (coreOf b.arena) (Slab.vacantKey b.arena) (some (o.reloaded symbol))
  idIndex : b'.idIndex = b.idIndex.insert o.id ⟨o.price, o.side, Slab.vacantKey b.arena⟩
  level : ∀ side p, (b'.level? side p).map (·.totalQty) =
    if side = o.side ∧ p = o.price then
      some (((b.level? o.side o.price).getD .new).totalQty + o.remaining)
    else (b.level? side p).map (·.totalQty)
  stops : ∀ side, b'.stops side = b.stops side
  lastTrade : b'.lastTrade = b.lastTrade
  symbol : b'.symbol = b.symbol
  tick : b'.tick = b.tick

theorem Wired.loadOrder (hw : Wired b σ) (symbol : SymbolId) (o : Order) :
    ∃ b', Exchange.loadOrder symbol b o.toSnap = .ok b' ∧ LoadedOrder symbol b σ o b' := by
  obtain ⟨a, hcore, hlinks, heq⟩ := loadOrder_toSnap symbol b o
  have hfresh : ∀ side p, Slab.vacantKey b.arena ∉ σ side p := by
    intro side p hs
    have hocc := hw.occupied hs
    rw [coreOf_vacantKey] at hocc
    cases hocc
  have hne : ∀ side p, ∀ s ∈ σ side p, s ≠ Slab.vacantKey b.arena := by
    rintro side p s hs rfl
    exact hfresh side p hs
  generalize hb₁ : (b.setArena a).setIndex
    (b.idIndex.insert o.id ⟨o.price, o.side, Slab.vacantKey b.arena⟩) = b₁ at heq
  have harena : b₁.arena = a := by
    rw [← hb₁]
    rfl
  have hlevel : ∀ side p, b₁.level? side p = b.level? side p := by
    intro side p
    rw [← hb₁, OrderBook.level?_setIndex, OrderBook.level?_setArena]
  have hw₁ : Wired b₁ σ := hw.congr hlevel
    (fun side p s hs => by rw [harena, hlinks, Function.update_of_ne (hne side p s hs)])
    fun side p s hs => by rw [harena, hcore, Function.update_of_ne (hne side p s hs)]
  have ho : coreOf b₁.arena (Slab.vacantKey b.arena) = some (o.reloaded symbol) := by
    rw [harena, hcore, Function.update_self]
  obtain ⟨a', hrest, hcore', -, hw'⟩ := hw₁.insertResting ho hfresh
  refine ⟨_, heq.trans hrest, hw', ?_, ?_, fun side p => ?_, fun side => ?_, ?_, ?_, ?_⟩
  · rw [OrderBook.arena_setArena, hcore', harena, hcore]
  · rw [← hb₁]
    rfl
  · have hput : ∀ l, (b₁.putLevel o.side o.price l).level? side p =
        if side = o.side ∧ p = o.price then some l else b₁.level? side p :=
      fun l => OrderBook.level?_putLevel ..
    rw [OrderBook.level?_setArena]
    refine (congrArg (Option.map (·.totalQty)) (hput _)).trans ?_
    split
    · rw [← hlevel]
      rfl
    · rw [hlevel]
  · rw [OrderBook.stops_setArena, OrderBook.stops_putLevel, ← hb₁, OrderBook.stops_setIndex,
      OrderBook.stops_setArena]
  · rw [← hb₁]
    rfl
  · rw [← hb₁]
    rfl
  · rw [← hb₁]
    rfl

/-- What loading the orders `os` leaves, apart from the queues. -/
structure Rebuilt (last : Option Price) (os : List Order) (b : OrderBook A) : Prop where
  level : ∀ side p, (b.level? side p).map (·.totalQty) =
    if ordersAt os side p = [] then none else some (totalRemaining (ordersAt os side p))
  stops : ∀ side, b.stops side = ∅
  lastTrade : b.lastTrade = last

theorem Rebuilt.snoc {last : Option Price} {os : List Order} {b' : OrderBook A}
    {symbol : SymbolId} (h : Rebuilt last os b) (hload : LoadedOrder symbol b σ o b') :
    Rebuilt last (os ++ [o]) b' := by
  refine ⟨fun side p => ?_, fun side => (hload.stops side).trans (h.stops side),
    hload.lastTrade.trans h.lastTrade⟩
  rw [hload.level, ordersAt_snoc]
  by_cases hsp : side = o.side ∧ p = o.price
  · obtain ⟨rfl, rfl⟩ := hsp
    have hold := h.level o.side o.price
    have htotal : ((b.level? o.side o.price).getD .new).totalQty =
        totalRemaining (ordersAt os o.side o.price) := by
      cases hl : b.level? o.side o.price with
      | none =>
        rw [hl] at hold
        split at hold
        · next hnil =>
          rw [hnil]
          rfl
        · cases hold
      | some l =>
        rw [hl] at hold
        split at hold
        · cases hold
        · exact Option.some.inj hold
    have hself : o.side = o.side ∧ o.price = o.price := ⟨rfl, rfl⟩
    rw [if_pos hself, if_pos hself, if_neg (by simp), totalRemaining_snoc, htotal]
  · have hne : ¬(o.side = side ∧ o.price = p) := fun e => hsp ⟨e.1.symm, e.2.symm⟩
    rw [if_neg hsp, if_neg hne, h.level]

/-- The orders `os` are what the arena, the index and the queues `σ` of the book hold. -/
structure Stocked (symbol : SymbolId) (os : List Order) (b : OrderBook A) (σ : Queues Nat) :
    Prop where
  wired : Wired b σ
  present : ∀ side p, (b.level? side p).isSome = true → σ side p ≠ []
  filed : ∀ o ∈ os, ∃ s ∈ σ o.side o.price, coreOf b.arena s = some (o.reloaded symbol) ∧
    b.idIndex[o.id]? = some ⟨o.price, o.side, s⟩
  known : ∀ (id : OrderId) loc, b.idIndex[id]? = some loc → ∃ o ∈ os, o.id = id
  covered : ∀ s, (coreOf b.arena s).isSome = true →
    ∃ o ∈ os, b.idIndex[o.id]? = some ⟨o.price, o.side, s⟩

theorem Stocked.snoc {symbol : SymbolId} {os : List Order} {b' : OrderBook A}
    (h : Stocked symbol os b σ) (hload : LoadedOrder symbol b σ o b')
    (hnew : ∀ y ∈ os, y.id ≠ o.id) :
    Stocked symbol (os ++ [o]) b'
      (σ.set o.side o.price (σ o.side o.price ++ [Slab.vacantKey b.arena])) := by
  have hindex : ∀ id : OrderId, b'.idIndex[id]? =
      if id = o.id then some ⟨o.price, o.side, Slab.vacantKey b.arena⟩ else b.idIndex[id]? := by
    intro id
    rw [hload.idIndex, OrderedMap.getElem?_insert]
  have hold : ∀ y ∈ os, b'.idIndex[y.id]? = b.idIndex[y.id]? := fun y hy => by
    rw [hindex, if_neg (hnew y hy)]
  refine ⟨hload.wired, fun side p hsome => ?_, fun y hy => ?_, fun id loc hloc => ?_,
    fun s hs => ?_⟩
  · by_cases hsp : side = o.side ∧ p = o.price
    · obtain ⟨rfl, rfl⟩ := hsp
      rw [Queues.set_self]
      simp
    · have hlevel := congrArg Option.isSome (hload.level side p)
      rw [if_neg hsp, Option.isSome_map, Option.isSome_map, hsome] at hlevel
      rw [Queues.set_of_ne hsp]
      exact h.present side p hlevel.symm
  · rcases List.mem_append.1 hy with hy | hy
    · obtain ⟨s, hs, hcore, hloc⟩ := h.filed y hy
      have hne : s ≠ Slab.vacantKey b.arena := by
        rintro rfl
        rw [coreOf_vacantKey] at hcore
        cases hcore
      refine ⟨s, ?_, by rw [hload.core, Function.update_of_ne hne, hcore], ?_⟩
      · by_cases hsp : y.side = o.side ∧ y.price = o.price
        · obtain ⟨hside, hprice⟩ := hsp
          rw [hside, hprice] at hs ⊢
          rw [Queues.set_self]
          exact List.mem_append_left _ hs
        · rw [Queues.set_of_ne hsp]
          exact hs
      · rw [hold y hy, hloc]
    · obtain rfl := List.mem_singleton.1 hy
      refine ⟨Slab.vacantKey b.arena, ?_, by rw [hload.core, Function.update_self], ?_⟩
      · rw [Queues.set_self]
        exact List.mem_append_right _ List.mem_cons_self
      · rw [hindex, if_pos rfl]
  · rw [hindex] at hloc
    split at hloc
    · next hid => exact ⟨o, List.mem_append_right _ List.mem_cons_self, hid.symm⟩
    · obtain ⟨y, hy, hid⟩ := h.known id loc hloc
      exact ⟨y, List.mem_append_left _ hy, hid⟩
  · by_cases hk : s = Slab.vacantKey b.arena
    · subst hk
      exact ⟨o, List.mem_append_right _ List.mem_cons_self, by rw [hindex, if_pos rfl]⟩
    · rw [hload.core, Function.update_of_ne hk] at hs
      obtain ⟨y, hy, hloc⟩ := h.covered s hs
      exact ⟨y, List.mem_append_left _ hy, by rw [hold y hy, hloc]⟩

/-- **Loading rebuilds levels.** It returns for every list of orders, and if their ids are
different ones the loaded book holds each of them. -/
theorem load_rebuilds (symbol : SymbolId) (tick : Price) (last : Option Price) (os : List Order) :
    ∃ (b : OrderBook A) (σ : Queues Nat), (os.map Order.toSnap).foldlM (loadOrder symbol)
        { OrderBook.new symbol tick with lastTrade := last } = .ok b ∧
      Wired b σ ∧ Rebuilt last os b ∧ b.symbol = symbol ∧ b.tick = tick ∧
      ((os.map (·.id)).Nodup → Stocked symbol os b σ) := by
  induction os using List.reverseRecOn with
  | nil =>
    have hw : Wired { (OrderBook.new symbol tick : OrderBook A) with lastTrade := last }
        fun _ _ => [] := by
      refine (Refines.new (A := A) symbol tick).wired.congr (fun side p => ?_) nofun nofun
      cases side <;> rfl
    have hlevel : ∀ side p, OrderBook.level?
        { (OrderBook.new symbol tick : OrderBook A) with lastTrade := last } side p = none := by
      intro side p
      cases side <;> exact Std.ExtTreeMap.getElem?_empty
    refine ⟨_, fun _ _ => [], rfl, hw, ⟨fun side p => ?_, fun side => ?_, rfl⟩, rfl, rfl,
      fun _ => ⟨hw, fun side p hsome => ?_, nofun, fun id loc hloc => ?_, fun s hs => ?_⟩⟩
    · rw [hlevel]
      rfl
    · cases side <;> rfl
    · rw [hlevel] at hsome
      cases hsome
    · simp [OrderBook.new] at hloc
    · simp [OrderBook.new, coreOf, Slab.get?_new] at hs
  | append_singleton os o ih =>
    obtain ⟨b, σ, hload, hw, h, hsymbol, htick, hstocked⟩ := ih
    obtain ⟨b', hb', hone⟩ := hw.loadOrder symbol o
    refine ⟨b', _, ?_, hone.wired, h.snoc hone, hone.symbol.trans hsymbol, hone.tick.trans htick,
      fun hnodup => ?_⟩
    · rw [List.map_append, List.foldlM_append, hload, Fuel.ok_bind, List.map_cons, List.map_nil,
        List.foldlM_cons, hb']
      rfl
    · rw [List.map_append, List.map_cons, List.map_nil, List.nodup_append] at hnodup
      obtain ⟨hnodup, -, hne⟩ := hnodup
      exact (hstocked hnodup).snoc hone fun y hy =>
        hne y.id (List.mem_map_of_mem hy) o.id List.mem_cons_self

end Exchange
