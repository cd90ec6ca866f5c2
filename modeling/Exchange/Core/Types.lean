import Mathlib.Algebra.Order.Ring.Nat

/-!
# Scalar types, orders, commands and events

`types.rs`, `order.rs` and `events.rs` of the `core` crate. The fixed-width
integers of the source are Lean's own: prices are signed ticks, quantities,
ids, sequence numbers and timestamps are unsigned 64-bit words. Arithmetic on
them is the release build's: additions wrap unless the source saturates.
-/

namespace Exchange

/-- Price in ticks (`i64`). -/
abbrev Price := Int64

/-- Quantity (`u64`). -/
abbrev Qty := UInt64

abbrev OrderId := UInt64
abbrev Seq := UInt64
abbrev Ts := UInt64
abbrev SymbolId := UInt32

/-- `u64::saturating_add`. -/
def Qty.satAdd (a b : Qty) : Qty :=
  if a + b < a then UInt64.ofNat (2 ^ 64 - 1) else a + b

/-- `u64::saturating_sub`. -/
def Qty.satSub (a b : Qty) : Qty :=
  if a < b then 0 else a - b

inductive Side
  | buy
  | sell
  deriving DecidableEq, Repr

namespace Side

def opposite : Side → Side
  | buy => sell
  | sell => buy

@[simp] theorem opposite_opposite (side : Side) : side.opposite.opposite = side := by
  cases side <;> rfl

@[simp] theorem opposite_ne (side : Side) : side.opposite ≠ side := by
  cases side <;> decide

@[simp] theorem ne_opposite (side : Side) : side ≠ side.opposite := by
  cases side <;> decide

theorem eq_or_eq_opposite (side other : Side) : other = side ∨ other = side.opposite := by
  cases side <;> cases other <;> simp [opposite]

end Side

inductive OrderType
  | limit
  | market
  | ioc
  | fok
  | stopMarket
  | stopLimit
  deriving DecidableEq, Repr

/-- The kinds held in the stop maps until their trigger is reached. -/
def OrderType.isStop : OrderType → Bool
  | .stopMarket | .stopLimit => true
  | _ => false

inductive TimeInForce
  | gtc
  | day
  deriving DecidableEq, Repr

inductive OrderStatus
  | new
  | accepted
  | partiallyFilled
  | filled
  | cancelled
  | rejected
  deriving DecidableEq, Repr

inductive RejectReason
  | unknownSymbol
  | duplicateId
  | unknownId
  | zeroQty
  | badPrice
  | fokUnfillable
  | marketNoLiquidity
  | selfTrade
  | rateLimited
  deriving DecidableEq, Repr

/-- An order in the arena, with the intrusive links of its price level. -/
structure Order where
  id : OrderId
  symbol : SymbolId
  side : Side
  kind : OrderType
  tif : TimeInForce
  price : Price
  stopPrice : Price
  qty : Qty
  remaining : Qty
  seq : Seq
  ts : Ts
  status : OrderStatus
  next : Option Nat
  prev : Option Nat
  deriving DecidableEq, Repr

/-- `Order::new`: nothing filled, not linked. -/
def Order.new (id : OrderId) (symbol : SymbolId) (side : Side) (kind : OrderType)
    (tif : TimeInForce) (price stopPrice : Price) (qty : Qty) (seq : Seq) (ts : Ts) : Order :=
  { id, symbol, side, kind, tif, price, stopPrice, qty, remaining := qty, seq, ts,
    status := .new, next := none, prev := none }

structure NewOrder where
  id : OrderId
  symbol : SymbolId
  side : Side
  kind : OrderType
  tif : TimeInForce
  price : Price
  stopPrice : Price
  qty : Qty
  deriving DecidableEq, Repr

inductive Command
  | new (no : NewOrder)
  | cancel (id : OrderId) (symbol : SymbolId)
  | replace (id : OrderId) (newPrice : Price) (newQty : Qty) (symbol : SymbolId)
  deriving DecidableEq, Repr

/-- A command stamped by the sequencer. -/
structure Sequenced where
  seq : Seq
  ts : Ts
  cmd : Command
  deriving DecidableEq, Repr

inductive OutputEvent
  | accepted (id : OrderId) (seq : Seq)
  | rejected (id : OrderId) (reason : RejectReason) (seq : Seq)
  | trade (seq : Seq) (taker maker : OrderId) (price : Price) (qty : Qty) (side : Side) (ts : Ts)
  | partiallyFilled (id : OrderId) (filled remaining : Qty) (seq : Seq)
  | filled (id : OrderId) (seq : Seq)
  | cancelled (id : OrderId) (seq : Seq)
  | replaced (id : OrderId) (seq : Seq)
  deriving DecidableEq, Repr

/-- The order a `NewOrder` becomes in the arena when it is sequenced. -/
def NewOrder.toOrder (no : NewOrder) (seq : Seq) (ts : Ts) : Order :=
  Order.new no.id no.symbol no.side no.kind no.tif no.price no.stopPrice no.qty seq ts

end Exchange
