import Exchange.Engine.Shard
import Exchange.MarketData.SnapshotBuilder

/-!
# The router of the gateway

`router.rs` of the `gateway` crate and the inbound half of `json_codec.rs` of the
`protocol` crate: a parsed JSON message becomes a command. Nothing on the way looks the
symbol up; it is hashed to its id.
-/

namespace Exchange

/-- `dollars_to_ticks`. -/
def dollarsToTicks (d : Float) : Price := (d * tickScale.toFloat).round.toInt64

inductive JsonSide
  | buy
  | sell
  deriving DecidableEq, Repr

inductive JsonOrderType
  | limit
  | market
  | ioc
  | fok
  | stopMarket
  | stopLimit
  deriving DecidableEq, Repr

inductive JsonTif
  | gtc
  | day
  deriving DecidableEq, Repr

structure JsonNewOrder where
  id : UInt64
  symbol : String
  side : JsonSide
  kind : JsonOrderType
  tif : JsonTif
  price : Float
  stopPrice : Float
  qty : UInt64

structure JsonCancel where
  id : UInt64
  symbol : String

structure JsonReplace where
  id : UInt64
  symbol : String
  newPrice : Float
  newQty : UInt64

inductive JsonInbound
  | new (no : JsonNewOrder)
  | cancel (c : JsonCancel)
  | replace (r : JsonReplace)

/-- `From<JsonNewOrder> for NewOrder`. -/
def JsonNewOrder.toNewOrder (j : JsonNewOrder) : NewOrder where
  id := j.id
  symbol := symbolToId j.symbol
  side := match j.side with
    | .buy => .buy
    | .sell => .sell
  kind := match j.kind with
    | .limit => .limit
    | .market => .market
    | .ioc => .ioc
    | .fok => .fok
    | .stopMarket => .stopMarket
    | .stopLimit => .stopLimit
  tif := match j.tif with
    | .gtc => .gtc
    | .day => .day
  price := dollarsToTicks j.price
  stopPrice := dollarsToTicks j.stopPrice
  qty := j.qty

/-- `json_to_command`. -/
def jsonToCommand : JsonInbound → Option Command
  | .new no => some (.new no.toNewOrder)
  | .cancel c => some (.cancel c.id (symbolToId c.symbol))
  | .replace r =>
    some (.replace r.id (dollarsToTicks r.newPrice) r.newQty (symbolToId r.symbol))

/-- The symbol a message names. -/
def JsonInbound.symbol : JsonInbound → String
  | .new no => no.symbol
  | .cancel c => c.symbol
  | .replace r => r.symbol

end Exchange
