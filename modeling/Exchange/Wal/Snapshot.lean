import Exchange.Core.Book

/-!
# Snapshots

`snapshot.rs`. The file holds the JSON text of a `Snapshot`; `serde_json` reads
back what it wrote, so saving ends, and loading starts, with that value. The id
index is a hash map: `entries` is whatever an iteration over it yields.
-/

namespace Exchange

/-- A resting order as it is serialised, the enumerations as numbers. -/
structure SnapOrder where
  id : OrderId
  side : UInt8
  kind : UInt8
  tif : UInt8
  price : Price
  stopPrice : Price
  qty : Qty
  remaining : Qty
  seq : Seq
  ts : Ts
  status : UInt8
  deriving DecidableEq, Repr

structure Snapshot where
  symbol : SymbolId
  tick : Price
  lastSeq : Seq
  lastTrade : Option Price
  restingOrders : List SnapOrder
  deriving DecidableEq, Repr

/-! ## The enumerations as numbers -/

def Side.code : Side → UInt8
  | .buy => 0
  | .sell => 1

def Side.ofCode (n : UInt8) : Side := if n = 0 then .buy else .sell

def OrderType.code : OrderType → UInt8
  | .limit => 0
  | .market => 1
  | .ioc => 2
  | .fok => 3
  | .stopMarket => 4
  | .stopLimit => 5

def OrderType.ofCode (n : UInt8) : OrderType :=
  if n = 0 then .limit
  else if n = 1 then .market
  else if n = 2 then .ioc
  else if n = 3 then .fok
  else if n = 4 then .stopMarket
  else .stopLimit

def TimeInForce.code : TimeInForce → UInt8
  | .gtc => 0
  | .day => 1

def TimeInForce.ofCode (n : UInt8) : TimeInForce := if n = 0 then .gtc else .day

def OrderStatus.code : OrderStatus → UInt8
  | .new => 0
  | .accepted => 1
  | .partiallyFilled => 2
  | .filled => 3
  | .cancelled => 4
  | .rejected => 5

@[simp] theorem Side.ofCode_code (side : Side) : Side.ofCode side.code = side := by
  cases side <;> rfl

@[simp] theorem OrderType.ofCode_code (kind : OrderType) : OrderType.ofCode kind.code = kind := by
  cases kind <;> rfl

@[simp] theorem TimeInForce.ofCode_code (tif : TimeInForce) :
    TimeInForce.ofCode tif.code = tif := by
  cases tif <;> rfl

/-! ## Saving -/

def Order.toSnap (o : Order) : SnapOrder where
  id := o.id
  side := o.side.code
  kind := o.kind.code
  tif := o.tif.code
  price := o.price
  stopPrice := o.stopPrice
  qty := o.qty
  remaining := o.remaining
  seq := o.seq
  ts := o.ts
  status := o.status.code

variable {A : Type} [Slab A Order]

/-- `save_snapshot`, up to the value that is written. -/
def saveSnapshot (b : OrderBook A) (entries : List (OrderId × Location)) (lastSeq : Seq) :
    Outcome Snapshot := do
  let restingOrders ← entries.mapM fun e => Order.toSnap <$> b.order e.2.slot
  return { symbol := b.symbol, tick := b.tick, lastSeq, lastTrade := b.lastTrade, restingOrders }

/-! ## Loading -/

/-- One order of the snapshot: into the arena, the index and a price level. The
status is not restored. -/
def loadOrder (symbol : SymbolId) (b : OrderBook A) (so : SnapOrder) : Outcome (OrderBook A) := do
  let side := Side.ofCode so.side
  let kind := OrderType.ofCode so.kind
  let tif := TimeInForce.ofCode so.tif
  let slot := Slab.vacantKey b.arena
  let b := b.setArena (Slab.insert b.arena
    (Order.new so.id symbol side kind tif so.price so.stopPrice so.remaining so.seq so.ts))
  -- `Order::new` takes one quantity for both
  let b ← b.modifyOrder slot fun o => { o with qty := so.qty }
  let b ← b.modifyOrder slot fun o => { o with remaining := so.remaining }
  let b := b.setIndex (b.idIndex.insert so.id ⟨so.price, side, slot⟩)
  b.insertResting slot

/-- `load_snapshot`, from the value that is read. -/
def loadSnapshot (snap : Snapshot) : Outcome (OrderBook A × Seq) := do
  let b : OrderBook A := { OrderBook.new snap.symbol snap.tick with lastTrade := snap.lastTrade }
  let b ← snap.restingOrders.foldlM (loadOrder snap.symbol) b
  return (b, snap.lastSeq)

end Exchange
