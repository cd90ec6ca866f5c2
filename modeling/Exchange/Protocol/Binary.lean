import Exchange.Lib.ByteReader
import Exchange.Core.Types

/-!
# The binary protocol

`binary.rs` and `error.rs` of the `protocol` crate. A decoder reads from the `Bytes` it is
given and takes off the front what it has read, also when it returns an error.
-/

namespace Exchange

open ByteReader LittleEndian

inductive ProtoError
  | truncated
  | unknownTag (tag : UInt8)
  | badField (field : String)
  | json (message : String)
  deriving DecidableEq, Repr

def tagNewOrder : UInt8 := 'N'.toUInt8
def tagCancel : UInt8 := 'C'.toUInt8
def tagReplace : UInt8 := 'R'.toUInt8
def tagAck : UInt8 := 'A'.toUInt8
def tagReject : UInt8 := 'J'.toUInt8
def tagFill : UInt8 := 'F'.toUInt8
def tagCancelled : UInt8 := 'X'.toUInt8
def tagReplaced : UInt8 := 'Z'.toUInt8

structure BinNewOrder where
  orderId : UInt64
  symbolId : UInt32
  side : Side
  orderType : OrderType
  tif : TimeInForce
  price : Int64
  stopPrice : Int64
  qty : UInt64
  deriving DecidableEq, Repr

structure BinCancel where
  orderId : UInt64
  symbolId : UInt32
  deriving DecidableEq, Repr

structure BinReplace where
  orderId : UInt64
  symbolId : UInt32
  newPrice : Int64
  newQty : UInt64
  deriving DecidableEq, Repr

inductive InboundMsg
  | newOrder (m : BinNewOrder)
  | cancel (m : BinCancel)
  | replace (m : BinReplace)
  deriving DecidableEq, Repr

inductive OutboundMsg
  | ack (orderId seq : UInt64) (status : UInt8)
  | reject (orderId seq : UInt64) (reason : UInt8)
  | fill (orderId seq : UInt64) (price : Int64) (qty leaves : UInt64) (isMaker : Bool)
  | cancelled (orderId seq : UInt64)
  | replaced (orderId seq : UInt64)
  deriving DecidableEq, Repr

/-! ## Encoding -/

section Put

variable (buf : List UInt8)

def putU8 (x : UInt8) : List UInt8 := buf ++ [x]

def putU64Le (x : UInt64) : List UInt8 := buf ++ toBytes 8 x.toNat

def putI64Le (x : Int64) : List UInt8 := buf ++ toBytes 8 x.toUInt64.toNat

end Put

/-- `encode_outbound`: append one message to the buffer. -/
def encodeOutbound (msg : OutboundMsg) (buf : List UInt8) : List UInt8 :=
  match msg with
  | .ack orderId seq status =>
    let buf := putU8 buf tagAck
    let buf := putU64Le buf orderId
    let buf := putU64Le buf seq
    putU8 buf status
  | .reject orderId seq reason =>
    let buf := putU8 buf tagReject
    let buf := putU64Le buf orderId
    let buf := putU64Le buf seq
    putU8 buf reason
  | .fill orderId seq price qty leaves isMaker =>
    let buf := putU8 buf tagFill
    let buf := putU64Le buf orderId
    let buf := putU64Le buf seq
    let buf := putI64Le buf price
    let buf := putU64Le buf qty
    let buf := putU64Le buf leaves
    putU8 buf isMaker.toUInt8
  | .cancelled orderId seq =>
    let buf := putU8 buf tagCancelled
    let buf := putU64Le buf orderId
    putU64Le buf seq
  | .replaced orderId seq =>
    let buf := putU8 buf tagReplaced
    let buf := putU64Le buf orderId
    putU64Le buf seq

/-! ## Decoding -/

def decodeSide (b : UInt8) : Except ProtoError Side :=
  if b = 0 then .ok .buy
  else if b = 1 then .ok .sell
  else .error (.badField "side")

def decodeOrderType (b : UInt8) : Except ProtoError OrderType :=
  if b = 0 then .ok .limit
  else if b = 1 then .ok .market
  else if b = 2 then .ok .ioc
  else if b = 3 then .ok .fok
  else if b = 4 then .ok .stopMarket
  else if b = 5 then .ok .stopLimit
  else .error (.badField "order_type")

def decodeTif (b : UInt8) : Except ProtoError TimeInForce :=
  if b = 0 then .ok .gtc
  else if b = 1 then .ok .day
  else .error (.badField "tif")

def decodeNewOrder : Reader ProtoError InboundMsg := do
  ensure 39 .truncated
  let orderId ← getU64Le
  let symbolId ← getU32Le
  let side ← decodeSide (← getU8)
  let orderType ← decodeOrderType (← getU8)
  let tif ← decodeTif (← getU8)
  let price ← getI64Le
  let stopPrice ← getI64Le
  let qty ← getU64Le
  return .newOrder { orderId, symbolId, side, orderType, tif, price, stopPrice, qty }

def decodeCancel : Reader ProtoError InboundMsg := do
  ensure 12 .truncated
  let orderId ← getU64Le
  let symbolId ← getU32Le
  return .cancel { orderId, symbolId }

def decodeReplace : Reader ProtoError InboundMsg := do
  ensure 28 .truncated
  let orderId ← getU64Le
  let symbolId ← getU32Le
  let newPrice ← getI64Le
  let newQty ← getU64Le
  return .replace { orderId, symbolId, newPrice, newQty }

def decodeInbound : Reader ProtoError InboundMsg := do
  if (← remaining) = 0 then throw .truncated
  let tag ← getU8
  if tag = tagNewOrder then decodeNewOrder
  else if tag = tagCancel then decodeCancel
  else if tag = tagReplace then decodeReplace
  else throw (.unknownTag tag)

end Exchange
