import Mathlib.Tactic.SplitIfs
import Exchange.Lib.OrderedMap
import Exchange.Lib.Fuel
import Exchange.Core.Types
import Exchange.Core.Slab

/-!
# Price levels and the order book

`price_level.rs` and `book.rs`. A `BTreeMap` is an ordered map compared by its
key order, and the `FxHashMap` index an extensional map: only lookups of it are
used by the book. Both sides run through the same code, so each operation is
written once over a `Side`; the source's two members of each pair are that
operation at `buy` and at `sell`.
-/

namespace Exchange

open Std

/-- What ends a call without a result. -/
inductive Fault
  /-- `Slab` indexing panics on a vacant slot. -/
  | vacantSlot (slot : Nat)
  /-- The step budget of the model ran out. -/
  | outOfFuel
  deriving DecidableEq, Repr

abbrev Outcome := Except Fault

/-- FIFO queue of order slots at one price, linked through the orders. -/
structure PriceLevel where
  head : Option Nat
  tail : Option Nat
  totalQty : Qty
  count : Nat
  deriving DecidableEq, Repr

namespace PriceLevel

def new : PriceLevel := ⟨none, none, 0, 0⟩

def isEmpty (l : PriceLevel) : Bool := l.head.isNone

/-- Append a slot; the caller wires the order's links. -/
def pushBack (l : PriceLevel) (slot : Nat) (qty : Qty) : PriceLevel :=
  { head := if l.tail.isNone then some slot else l.head
    tail := some slot
    totalQty := l.totalQty + qty
    count := l.count + 1 }

/-- Account for the head leaving; the head pointer is moved by the caller. -/
def popFront (l : PriceLevel) (qty : Qty) : PriceLevel :=
  if l.head.isNone then l else { l with totalQty := l.totalQty.satSub qty }

/-- Move the end pointers off a slot that is unlinked. -/
def bypass (l : PriceLevel) (slot : Nat) (prev next : Option Nat) : PriceLevel :=
  let l := if l.head = some slot then { l with head := next } else l
  if l.tail = some slot then { l with tail := prev } else l

theorem bypass_eq (l : PriceLevel) (slot : Nat) (prev next : Option Nat) :
    l.bypass slot prev next =
      { l with
        head := if l.head = some slot then next else l.head
        tail := if l.tail = some slot then prev else l.tail } := by
  unfold bypass
  split_ifs <;> simp_all

/-- Account for an arbitrary slot leaving. -/
def remove (l : PriceLevel) (qty : Qty) : PriceLevel :=
  { l with totalQty := l.totalQty.satSub qty, count := l.count - 1 }

end PriceLevel

/-- Where `id_index` says an order is. -/
structure Location where
  price : Price
  side : Side
  slot : Nat
  deriving DecidableEq, Repr

/-- The key order of a side's level map: `Reverse(price)` for bids. -/
def Side.keyOrder : Side → Price → Price → Ordering
  | .buy => fun a b => compare b a
  | .sell => compare

instance (side : Side) : TransCmp side.keyOrder := by
  cases side
  · exact inferInstanceAs (TransCmp fun a b : Price => compare b a)
  · exact inferInstanceAs (TransCmp (compare : Price → Price → Ordering))

instance (side : Side) : LawfulEqCmp side.keyOrder := by
  cases side
  · exact inferInstanceAs (LawfulEqCmp fun a b : Price => compare b a)
  · exact inferInstanceAs (LawfulEqCmp (compare : Price → Price → Ordering))

instance (side : Side) : TransCmp side.opposite.keyOrder := inferInstance

instance (side : Side) : LawfulEqCmp side.opposite.keyOrder := inferInstance

/-- Price levels of a side, best price first. -/
abbrev Levels (side : Side) := ExtTreeMap Price PriceLevel side.keyOrder

/-- Held stop orders of a side by trigger price. Buy stops are keyed ascending
and sell stops by `Reverse`, the opposite of the level maps. -/
abbrev StopMap (side : Side) := ExtTreeMap Price (List Nat) side.opposite.keyOrder

/-- `OrderBook`, over the slab `A` that holds its orders. -/
structure OrderBook (A : Type) where
  symbol : SymbolId
  tick : Price
  asks : Levels .sell
  bids : Levels .buy
  idIndex : ExtTreeMap OrderId Location
  arena : A
  stopBuys : StopMap .buy
  stopSells : StopMap .sell
  lastTrade : Option Price

/-- `BookSnapshot`: aggregated depth. -/
structure BookSnapshot where
  bids : List (Price × Qty)
  asks : List (Price × Qty)
  lastTrade : Option Price
  deriving DecidableEq, Repr

namespace OrderBook

variable {A : Type}

/-! ## The two sides -/

def levels (b : OrderBook A) : (side : Side) → Levels side
  | .buy => b.bids
  | .sell => b.asks

def setLevels (b : OrderBook A) (side : Side) (m : Levels side) : OrderBook A :=
  { b with
    bids := match side, m with
      | .buy, m => m
      | .sell, _ => b.bids
    asks := match side, m with
      | .buy, _ => b.asks
      | .sell, m => m }

def level? (b : OrderBook A) (side : Side) (price : Price) : Option PriceLevel :=
  (b.levels side)[price]?

def putLevel (b : OrderBook A) (side : Side) (price : Price) (l : PriceLevel) : OrderBook A :=
  b.setLevels side ((b.levels side).insert price l)

def eraseLevel (b : OrderBook A) (side : Side) (price : Price) : OrderBook A :=
  b.setLevels side ((b.levels side).erase price)

def stops (b : OrderBook A) : (side : Side) → StopMap side
  | .buy => b.stopBuys
  | .sell => b.stopSells

def setStops (b : OrderBook A) (side : Side) (m : StopMap side) : OrderBook A :=
  { b with
    stopBuys := match side, m with
      | .buy, m => m
      | .sell, _ => b.stopBuys
    stopSells := match side, m with
      | .buy, _ => b.stopSells
      | .sell, m => m }

/-- The best level of a side: `iter().next()`. -/
def best? (b : OrderBook A) (side : Side) : Option (Price × PriceLevel) :=
  OrderedMap.first? (b.levels side)

def bestBid (b : OrderBook A) : Option (Price × Qty) :=
  (b.best? .buy).map fun e => (e.1, e.2.totalQty)

def bestAsk (b : OrderBook A) : Option (Price × Qty) :=
  (b.best? .sell).map fun e => (e.1, e.2.totalQty)

/-- The best `levels` prices of each side with their quantities. -/
def depth (b : OrderBook A) (levels : Nat) : BookSnapshot where
  bids := (b.bids.toList.take levels).map fun e => (e.1, e.2.totalQty)
  asks := (b.asks.toList.take levels).map fun e => (e.1, e.2.totalQty)
  lastTrade := b.lastTrade

/-- No crossed book. -/
def checkNoCross (b : OrderBook A) : Bool :=
  match b.bestBid, b.bestAsk with
  | some (bid, _), some (ask, _) => bid < ask
  | _, _ => true

/-! ## Single-field updates -/

def setArena (b : OrderBook A) (a : A) : OrderBook A := { b with arena := a }

def setIndex (b : OrderBook A) (m : ExtTreeMap OrderId Location) : OrderBook A :=
  { b with idIndex := m }

def setLastTrade (b : OrderBook A) (price : Price) : OrderBook A :=
  { b with lastTrade := some price }

@[simp] theorem arena_setArena (b : OrderBook A) (a : A) : (b.setArena a).arena = a := rfl

@[simp] theorem arena_setIndex (b : OrderBook A) (m : ExtTreeMap OrderId Location) :
    (b.setIndex m).arena = b.arena := rfl

@[simp] theorem arena_setLastTrade (b : OrderBook A) (p : Price) :
    (b.setLastTrade p).arena = b.arena := rfl

@[simp] theorem arena_putLevel (b : OrderBook A) (side : Side) (price : Price) (l : PriceLevel) :
    (b.putLevel side price l).arena = b.arena := rfl

@[simp] theorem arena_eraseLevel (b : OrderBook A) (side : Side) (price : Price) :
    (b.eraseLevel side price).arena = b.arena := rfl

@[simp] theorem setArena_setArena (b : OrderBook A) (a a' : A) :
    (b.setArena a).setArena a' = b.setArena a' := rfl

@[simp] theorem level?_setArena (b : OrderBook A) (a : A) (side : Side) (price : Price) :
    (b.setArena a).level? side price = b.level? side price := by
  cases side <;> rfl

@[simp] theorem level?_setIndex (b : OrderBook A) (m : ExtTreeMap OrderId Location) (side : Side)
    (price : Price) : (b.setIndex m).level? side price = b.level? side price := by
  cases side <;> rfl

@[simp] theorem level?_setLastTrade (b : OrderBook A) (p : Price) (side : Side) (price : Price) :
    (b.setLastTrade p).level? side price = b.level? side price := by
  cases side <;> rfl

@[simp] theorem stops_setArena (b : OrderBook A) (a : A) (side : Side) :
    (b.setArena a).stops side = b.stops side := by
  cases side <;> rfl

@[simp] theorem stops_setIndex (b : OrderBook A) (m : ExtTreeMap OrderId Location) (side : Side) :
    (b.setIndex m).stops side = b.stops side := by
  cases side <;> rfl

@[simp] theorem stops_setLastTrade (b : OrderBook A) (p : Price) (side : Side) :
    (b.setLastTrade p).stops side = b.stops side := by
  cases side <;> rfl

@[simp] theorem stops_putLevel (b : OrderBook A) (side : Side) (price : Price) (l : PriceLevel)
    (side' : Side) : (b.putLevel side price l).stops side' = b.stops side' := by
  cases side' <;> rfl

@[simp] theorem stops_eraseLevel (b : OrderBook A) (side : Side) (price : Price) (side' : Side) :
    (b.eraseLevel side price).stops side' = b.stops side' := by
  cases side' <;> rfl

variable [Slab A Order]

def new (symbol : SymbolId) (tick : Price) : OrderBook A where
  symbol := symbol
  tick := tick
  asks := ∅
  bids := ∅
  idIndex := ∅
  arena := Slab.new
  stopBuys := ∅
  stopSells := ∅
  lastTrade := none

/-! ## Levels after an update -/

section LevelLemmas

variable {b : OrderBook A} {side side' : Side} {price price' : Price} {l : PriceLevel}

omit [Slab A Order] in
theorem level?_setLevels (m : Levels side) :
    (b.setLevels side m).level? side' price' =
      if h : side' = side then (h ▸ m)[price']? else b.level? side' price' := by
  cases side <;> cases side' <;> rfl

omit [Slab A Order] in
theorem level?_putLevel :
    (b.putLevel side price l).level? side' price' =
      if side' = side ∧ price' = price then some l else b.level? side' price' := by
  unfold putLevel
  rw [level?_setLevels]
  by_cases hs : side' = side
  · subst hs
    simp only [dite_true, true_and, OrderedMap.getElem?_insert, level?]
  · rw [dif_neg hs, if_neg fun h => hs h.1]

omit [Slab A Order] in
theorem level?_eraseLevel :
    (b.eraseLevel side price).level? side' price' =
      if side' = side ∧ price' = price then none else b.level? side' price' := by
  unfold eraseLevel
  rw [level?_setLevels]
  by_cases hs : side' = side
  · subst hs
    simp only [dite_true, true_and, OrderedMap.getElem?_erase, level?]
  · rw [dif_neg hs, if_neg fun h => hs h.1]

end LevelLemmas

/-! ## The arena -/

/-- The order stored in a slot, if the slot is occupied. -/
def slot? (b : OrderBook A) (slot : Nat) : Option Order := Slab.get? b.arena slot

/-- `arena[slot]`. -/
def order (b : OrderBook A) (slot : Nat) : Outcome Order :=
  match b.slot? slot with
  | some o => .ok o
  | none => .error (.vacantSlot slot)

/-- A write through `arena[slot]`. -/
def modifyOrder (b : OrderBook A) (slot : Nat) (f : Order → Order) : Outcome (OrderBook A) := do
  let o ← b.order slot
  return b.setArena (Slab.set b.arena slot (f o))

/-- A write through `arena[slot]` for the slot of a link that may be null. -/
def modifyLinked (b : OrderBook A) (slot : Option Nat) (f : Order → Order) :
    Outcome (OrderBook A) :=
  match slot with
  | some slot => b.modifyOrder slot f
  | none => return b

/-- `arena.remove(slot)`. -/
def removeOrder (b : OrderBook A) (slot : Nat) : Outcome (OrderBook A) := do
  let _ ← b.order slot
  return b.setArena (Slab.remove b.arena slot)

/-! ## Resting orders -/

/-- Append a resting order to its level and wire the intrusive list. -/
def insertResting (b : OrderBook A) (slot : Nat) : Outcome (OrderBook A) := do
  let order ← b.order slot
  let level := (b.level? order.side order.price).getD PriceLevel.new
  let oldTail := level.tail
  let b := b.putLevel order.side order.price (level.pushBack slot order.remaining)
  let b ← b.modifyOrder slot fun o => { o with prev := oldTail, next := none }
  b.modifyLinked oldTail fun o => { o with next := some slot }

/-- Remove the head of a level and return its slot. The level stays in the map
even when this empties it. -/
def popHead (b : OrderBook A) (side : Side) (price : Price) :
    Outcome (Option Nat × OrderBook A) :=
  match b.level? side price with
  | none => return (none, b)
  | some level =>
    match level.head with
    | none => return (none, b)
    | some slot => do
      let order ← b.order slot
      let level := level.popFront order.remaining
      let next := order.next
      let level :=
        { level with head := next, tail := if next.isNone then none else level.tail }
      let b := b.putLevel side price level
      let b ← b.modifyLinked next fun o => { o with prev := none }
      return (some slot, b)

def popBidHead (b : OrderBook A) (price : Price) : Outcome (Option Nat × OrderBook A) :=
  b.popHead .buy price

def popAskHead (b : OrderBook A) (price : Price) : Outcome (Option Nat × OrderBook A) :=
  b.popHead .sell price

/-- Drop a level that has no orders. -/
def removeEmpty (b : OrderBook A) (side : Side) (price : Price) : OrderBook A :=
  if (b.level? side price).any (·.isEmpty) then b.eraseLevel side price else b

def removeEmptyBid (b : OrderBook A) (price : Price) : OrderBook A := b.removeEmpty .buy price

def removeEmptyAsk (b : OrderBook A) (price : Price) : OrderBook A := b.removeEmpty .sell price

/-- Unlink an order from anywhere in its level. -/
def removeSlot (b : OrderBook A) (slot : Nat) (side : Side) (price : Price) (qty : Qty) :
    Outcome (OrderBook A) := do
  let order ← b.order slot
  let prev := order.prev
  let next := order.next
  -- stitch neighbours
  let b ← b.modifyLinked prev fun o => { o with next := next }
  let b ← b.modifyLinked next fun o => { o with prev := prev }
  match b.level? side price with
  | none => return b
  | some level =>
    let level := (level.bypass slot prev next).remove qty
    return if level.isEmpty then b.eraseLevel side price else b.putLevel side price level

/-- Total remaining over the index equals the total over the levels. The sums
wrap like the source's. -/
def checkQtyConservation (b : OrderBook A) : Outcome Bool := do
  let indexTotal ← b.idIndex.toList.foldlM
    (fun total e => do return total + (← b.order e.2.slot).remaining) (0 : Qty)
  let bidTotal := b.bids.toList.foldl (fun total e => total + e.2.totalQty) (0 : Qty)
  let askTotal := b.asks.toList.foldl (fun total e => total + e.2.totalQty) (0 : Qty)
  return indexTotal == bidTotal + askTotal

end OrderBook

end Exchange
