import Exchange.Core.Book

/-!
# The market-data builder

`bus.rs` and `snapshot_builder.rs` of the `marketdata` crate, with the two
conversions of the JSON codec they use. A builder publishes on the market bus;
here each call returns what it publishes. Dollar amounts are `f64`.
-/

namespace Exchange

/-- `TICK_SCALE`: ticks per dollar. -/
def tickScale : Int64 := 10000

def ticksToDollars (t : Price) : Float := t.toFloat / tickScale.toFloat

/-- The symbol string hashed to its id. -/
def symbolToId (s : String) : SymbolId :=
  s.toUTF8.toList.foldl (fun h b => (h ^^^ b.toUInt32) * 0x01000193) 0x811c9dc5

/-- `MarketEvent`: public market data. -/
inductive MarketEvent
  | trade (symbol : String) (price : Float) (qty : Qty) (side : String) (seq : Seq) (ts : Ts)
  | snapshot (symbol : String) (seq : Seq) (bids asks : List (Float × Float))
  | delta (symbol : String) (seq : Seq) (bids asks : List (Float × Float))

/-- A side of the L2 view: quantities by price, best price first. -/
abbrev Quotes (side : Side) := Std.ExtTreeMap Price Qty side.keyOrder

/-- `SnapshotBuilder`: the L2 view of one symbol. -/
structure SnapshotBuilder where
  symbol : SymbolId
  symStr : String
  bids : Quotes .buy
  asks : Quotes .sell
  depth : Nat

/-- The side as market data spells it. -/
def Side.label : Side → String
  | .buy => "buy"
  | .sell => "sell"

/-- A price level as market data shows it. -/
def dollarLevel (e : Price × Qty) : Float × Float := (ticksToDollars e.1, e.2.toFloat)

namespace SnapshotBuilder

def new (symbol : SymbolId) (symStr : String) (depth : Nat) : SnapshotBuilder :=
  { symbol, symStr, bids := ∅, asks := ∅, depth }

def publishSnapshot (v : SnapshotBuilder) (seq : Seq) : List MarketEvent :=
  [.snapshot v.symStr seq ((v.bids.toList.take v.depth).map dollarLevel)
    ((v.asks.toList.take v.depth).map dollarLevel)]

/-- Process an output event and publish market-data messages. -/
def process (v : SnapshotBuilder) (event : OutputEvent) (seq : Seq) :
    SnapshotBuilder × List MarketEvent :=
  match event with
  | .trade _ _ _ price qty side ts =>
    (v, [.trade v.symStr (ticksToDollars price) qty side.label seq ts])
  | .accepted _ _ => (v, [])
  | .filled _ _ | .partiallyFilled _ _ _ _ => (v, v.publishSnapshot seq)
  | .cancelled _ _ => (v, v.publishSnapshot seq)
  | _ => (v, [])

/-- Apply a book delta directly. -/
def updateLevel (v : SnapshotBuilder) (side : Side) (price : Price) (newQty : Qty) :
    SnapshotBuilder :=
  match side with
  | .buy =>
    { v with bids := if newQty = 0 then v.bids.erase price else v.bids.insert price newQty }
  | .sell =>
    { v with asks := if newQty = 0 then v.asks.erase price else v.asks.insert price newQty }

/-- The levels the view shows, cut to the best `levels` of each side. -/
def view (v : SnapshotBuilder) (levels : Nat) : List (Price × Qty) × List (Price × Qty) :=
  (v.bids.toList.take levels, v.asks.toList.take levels)

/-- No output event changes the view: `process` never calls `update_level`. -/
@[simp] theorem process_fst (v : SnapshotBuilder) (event : OutputEvent) (seq : Seq) :
    (v.process event seq).1 = v := by
  cases event <;> rfl

@[simp] theorem view_new (symbol : SymbolId) (symStr : String) (depth levels : Nat) :
    (new symbol symStr depth).view levels = ([], []) := by
  simp [view, new]

end SnapshotBuilder

end Exchange
