import Exchange.Core.Book

/-!
# The matcher

`matcher.rs`. The match loop and the mutual recursion of `apply_new` with
`trigger_stops` are computed with a step budget; `Applies` is the source's
`apply`, which returns when some budget suffices. Events are returned rather
than pushed to an output vector.
-/

namespace Exchange

/-- `matches!(kind, Limit | Ioc | Fok | StopLimit)`: the kinds that carry a
limit price. -/
def OrderType.needsPrice : OrderType → Bool
  | .limit | .ioc | .fok | .stopLimit => true
  | .market | .stopMarket => false

/-- The kinds for which the match loop ignores the limit price. -/
def OrderType.sweepsAll : OrderType → Bool
  | .market | .ioc | .fok => true
  | _ => false

/-- A maker at `price` is no worse than the aggressor's limit. -/
def Side.withinLimit (aggressor : Side) (limit price : Price) : Bool :=
  match aggressor with
  | .buy => price ≤ limit
  | .sell => price ≥ limit

/-- What one order brings into the match loop. -/
structure Aggressor where
  slot : Nat
  side : Side
  kind : OrderType
  limit : Price

/-- The crossing test of the match loop. -/
def Aggressor.crosses (t : Aggressor) (price : Price) : Bool :=
  t.kind.sweepsAll || t.side.withinLimit t.limit price

variable {A : Type} [Slab A Order]

/-! ## The match loop -/

/-- Re-attach a partially filled maker at the head of its price level. -/
def reinsertAtHead (b : OrderBook A) (slot : Nat) (price : Price) (side : Side) :
    Outcome (OrderBook A) := do
  let b ← b.modifyOrder slot fun o => { o with prev := none }
  let order ← b.order slot
  let level := (b.level? side price).getD PriceLevel.new
  let oldHead := level.head
  let level : PriceLevel :=
    { head := some slot
      tail := if level.tail.isNone then some slot else level.tail
      totalQty := level.totalQty + order.remaining
      count := level.count + 1 }
  let b := b.putLevel side price level
  let b ← b.modifyOrder slot fun o => { o with next := oldHead }
  b.modifyLinked oldHead fun o => { o with prev := some slot }

/-- One trade: the maker at the head of the best level, already popped, against
the aggressor. Returns the traded quantity. -/
def tradeWith (b : OrderBook A) (t : Aggressor) (makerSlot : Nat) (makerPrice : Price)
    (seq : Seq) (ts : Ts) : Outcome (OrderBook A × Qty × List OutputEvent) := do
  let aggressor ← b.order t.slot
  let maker ← b.order makerSlot
  let tradeQty := min aggressor.remaining maker.remaining
  let b ← b.modifyOrder t.slot fun o => { o with remaining := o.remaining - tradeQty }
  let b ← b.modifyOrder makerSlot fun o => { o with remaining := o.remaining - tradeQty }
  let b := b.setLastTrade makerPrice
  let aggressor ← b.order t.slot
  let maker ← b.order makerSlot
  let trade := .trade seq aggressor.id maker.id makerPrice tradeQty t.side ts
  if maker.remaining = 0 then
    let b := b.setIndex (b.idIndex.erase maker.id)
    let b ← b.removeOrder makerSlot
    return (b.removeEmpty t.side.opposite makerPrice, tradeQty,
      [trade, .filled maker.id seq])
  else
    let b ← reinsertAtHead b makerSlot makerPrice t.side.opposite
    return (b, tradeQty,
      [trade, .partiallyFilled maker.id tradeQty maker.remaining seq])

/-- One iteration of the match loop; `none` is a `break`. -/
def matchStep (b : OrderBook A) (t : Aggressor) (seq : Seq) (ts : Ts) :
    Outcome (Option (OrderBook A × Qty × List OutputEvent)) := do
  let aggressor ← b.order t.slot
  if aggressor.remaining = 0 then
    return none
  match b.best? t.side.opposite with
  | none => return none
  | some (makerPrice, _) =>
    if t.crosses makerPrice then
      let (popped, b) ← b.popHead t.side.opposite makerPrice
      match popped with
      | none => return none
      | some makerSlot => return some (← tradeWith b t makerSlot makerPrice seq ts)
    else
      return none

/-- The loop of `match_order`: walk the opposite side and fill as much as
possible. `total` is the quantity filled so far. -/
def matchLoop (t : Aggressor) (seq : Seq) (ts : Ts) :
    Nat → OrderBook A → Qty → Outcome (OrderBook A × Qty × List OutputEvent)
  | 0, _, _ => .error .outOfFuel
  | fuel + 1, b, total => do
    match ← matchStep b t seq ts with
    | none => return (b, total, [])
    | some (b, tradeQty, events) =>
      let (b, total, rest) ← matchLoop t seq ts fuel b (total + tradeQty)
      return (b, total, events ++ rest)

/-- `match_order`: the final book, the total filled quantity and the events. -/
def matchOrder (fuel : Nat) (b : OrderBook A) (slot : Nat) (seq : Seq) (ts : Ts) :
    Outcome (OrderBook A × Qty × List OutputEvent) := do
  let order ← b.order slot
  matchLoop ⟨slot, order.side, order.kind, order.price⟩ seq ts fuel b 0

/-- How much quantity on the opposite side is at or through `limit`. -/
def availableQty (b : OrderBook A) (aggressor : Side) (limit : Price) : Qty :=
  ((b.levels aggressor.opposite).toList.takeWhile
    fun e => aggressor.withinLimit limit e.1).foldl
      (fun total e => total.satAdd e.2.totalQty) 0

/-! ## New orders -/

/-- The validation prefix of `apply_new`. -/
def validate (b : OrderBook A) (no : NewOrder) : Option RejectReason :=
  if no.qty = 0 then some .zeroQty
  else if b.idIndex.contains no.id then some .duplicateId
  else if no.kind.needsPrice && no.price ≤ 0 then some .badPrice
  else none

/-- Hold a stop order until its trigger price is reached. -/
def holdStop (b : OrderBook A) (no : NewOrder) (seq : Seq) (ts : Ts) : OrderBook A :=
  let slot := Slab.vacantKey b.arena
  let b := b.setArena (Slab.insert b.arena (no.toOrder seq ts))
  let b := b.setIndex (b.idIndex.insert no.id ⟨no.stopPrice, no.side, slot⟩)
  let filed := ((b.stops no.side)[no.stopPrice]?).getD []
  b.setStops no.side ((b.stops no.side).insert no.stopPrice (filed ++ [slot]))

/-- Index and rest the remainder of a limit order. -/
def restOrder (b : OrderBook A) (no : NewOrder) (slot : Nat) : Outcome (OrderBook A) :=
  let b := b.setIndex (b.idIndex.insert no.id ⟨no.price, no.side, slot⟩)
  b.insertResting slot

/-- What `apply_new` does with an order once it has been matched: close it,
rest the remainder of a limit, or cancel the remainder. -/
def settle (b : OrderBook A) (no : NewOrder) (slot : Nat) (filled : Qty) (seq : Seq) :
    Outcome (OrderBook A × List OutputEvent) := do
  let order ← b.order slot
  let remaining := order.remaining
  if filled > 0 ∧ remaining = 0 then
    let b ← b.removeOrder slot
    return (b.setIndex (b.idIndex.erase no.id), [.filled no.id seq])
  else if filled > 0 then
    if no.kind = .limit then
      let b ← restOrder b no slot
      return (b, [.partiallyFilled no.id filled remaining seq])
    else
      let b ← b.removeOrder slot
      return (b, [.partiallyFilled no.id filled remaining seq, .cancelled no.id seq])
  else
    match no.kind with
    | .limit =>
      let b ← restOrder b no slot
      return (b, [])
    | .market | .ioc | .fok =>
      let b ← b.removeOrder slot
      return (b, [.cancelled no.id seq])
    | _ => return (b, [])

/-- The body of `apply_new` between the pre-checks and the stop triggers: enter
the arena, match, settle. -/
def execute (fuel : Nat) (b : OrderBook A) (no : NewOrder) (seq : Seq) (ts : Ts) :
    Outcome (OrderBook A × List OutputEvent) := do
  let slot := Slab.vacantKey b.arena
  let b := b.setArena (Slab.insert b.arena (no.toOrder seq ts))
  let (b, filled, fills) ← matchOrder fuel b slot seq ts
  let (b, closing) ← settle b no slot filled seq
  return (b, fills ++ closing)

/-! ## Stop triggers

`trigger_stops` calls `apply_new` back; here it takes that call as the
parameter `resubmit`. -/

section Triggers

variable (resubmit : OrderBook A → NewOrder → Outcome (OrderBook A × List OutputEvent))

/-- The order a triggered stop re-enters as. -/
def Order.activated (o : Order) : NewOrder where
  id := o.id
  symbol := o.symbol
  side := o.side
  kind := if o.kind = .stopMarket then .market else .limit
  tif := o.tif
  price := o.price
  stopPrice := 0
  qty := o.remaining

/-- A trigger price of a stop of `side` is reached by a trade at `last`. -/
def Side.triggers (side : Side) (trigger last : Price) : Bool :=
  match side with
  | .buy => trigger ≤ last
  | .sell => trigger ≥ last

/-- `range(..=last)` over a stop map, flattened to slots. -/
def OrderBook.triggered (b : OrderBook A) (side : Side) (last : Price) : List Nat :=
  ((b.stops side).toList.filter fun e => side.triggers e.1 last).flatMap (·.2)

/-- `retain` the entries that are not triggered at `last`. -/
def OrderBook.retainStops (b : OrderBook A) (side : Side) (last : Price) : OrderBook A :=
  b.setStops side ((b.stops side).filter fun trigger _ => !side.triggers trigger last)

/-- Pull the order out of `slot`, if there is one, and re-submit it. -/
def activate (b : OrderBook A) (slot : Nat) : Outcome (OrderBook A × List OutputEvent) :=
  match b.slot? slot with
  | none => return (b, [])
  | some order => do
    let b := b.setIndex (b.idIndex.erase order.id)
    let b ← b.removeOrder slot
    resubmit b order.activated

def activateAll : List Nat → OrderBook A → Outcome (OrderBook A × List OutputEvent)
  | [], b => return (b, [])
  | slot :: rest, b => do
    let (b, events) ← activate resubmit b slot
    let (b, later) ← activateAll rest b
    return (b, events ++ later)

def triggerSide (b : OrderBook A) (side : Side) (last : Price) :
    Outcome (OrderBook A × List OutputEvent) := do
  let (b, events) ← activateAll resubmit (b.triggered side last) b
  return (b.retainStops side last, events)

/-- Buy stops trigger when the price has risen to them, sell stops when it has
fallen to them. -/
def triggerStops (b : OrderBook A) (last : Price) :
    Outcome (OrderBook A × List OutputEvent) := do
  let (b, buys) ← triggerSide resubmit b .buy last
  let (b, sells) ← triggerSide resubmit b .sell last
  return (b, buys ++ sells)

end Triggers

/-- `apply_new`. -/
def applyNew (seq : Seq) (ts : Ts) :
    Nat → OrderBook A → NewOrder → Outcome (OrderBook A × List OutputEvent)
  | 0, _, _ => .error .outOfFuel
  | fuel + 1, b, no =>
    match validate b no with
    | some reason => return (b, [.rejected no.id reason seq])
    | none =>
      if no.kind.isStop then
        return (holdStop b no seq ts, [.accepted no.id seq])
      else if no.kind = .fok ∧ availableQty b no.side no.price < no.qty then
        return (b, [.accepted no.id seq, .rejected no.id .fokUnfillable seq])
      else do
        let (b, events) ← execute fuel b no seq ts
        match b.lastTrade with
        | none => return (b, .accepted no.id seq :: events)
        | some last =>
          let (b, triggered) ← triggerStops (applyNew seq ts fuel) b last
          return (b, .accepted no.id seq :: events ++ triggered)

/-! ## Cancel and replace -/

/-- `apply_cancel`. -/
def applyCancel (b : OrderBook A) (id : OrderId) (seq : Seq) :
    Outcome (OrderBook A × List OutputEvent) :=
  match b.idIndex[id]? with
  | none => return (b, [.rejected id .unknownId seq])
  | some loc => do
    let b := b.setIndex (b.idIndex.erase id)
    let order ← b.order loc.slot
    let b ← b.removeSlot loc.slot loc.side loc.price order.remaining
    let b ← b.removeOrder loc.slot
    return (b, [.cancelled id seq])

/-- The order `apply_replace` re-submits: same id, no time priority, no stop
price. -/
def Order.replacement (o : Order) (id : OrderId) (newPrice : Price) (newQty : Qty) : NewOrder where
  id := id
  symbol := o.symbol
  side := o.side
  kind := o.kind
  tif := o.tif
  price := newPrice
  stopPrice := 0
  qty := newQty

/-- `apply_replace`: cancel the existing order, then submit a new one. -/
def applyReplace (fuel : Nat) (b : OrderBook A) (id : OrderId) (newPrice : Price) (newQty : Qty)
    (seq : Seq) (ts : Ts) : Outcome (OrderBook A × List OutputEvent) :=
  if newQty = 0 then
    return (b, [.rejected id .zeroQty seq])
  else
    match b.idIndex[id]? with
    | none => return (b, [.rejected id .unknownId seq])
    | some loc => do
      let b := b.setIndex (b.idIndex.erase id)
      let order ← b.order loc.slot
      let b ← b.removeSlot loc.slot order.side loc.price order.remaining
      let b ← b.removeOrder loc.slot
      let (b, events) ← applyNew seq ts fuel b (order.replacement id newPrice newQty)
      return (b, .replaced id seq :: events)

/-- `apply` within a step budget. -/
def applyWithin (fuel : Nat) (b : OrderBook A) (cmd : Sequenced) :
    Outcome (OrderBook A × List OutputEvent) :=
  match cmd.cmd with
  | .new no => applyNew cmd.seq cmd.ts fuel b no
  | .cancel id _ => applyCancel b id cmd.seq
  | .replace id newPrice newQty _ =>
    applyReplace fuel b id newPrice newQty cmd.seq cmd.ts

/-- `apply` returns the book `b'` and pushes `events`. -/
def Applies (b : OrderBook A) (cmd : Sequenced) (b' : OrderBook A) (events : List OutputEvent) :
    Prop :=
  Fuel.Converges (fun fuel => applyWithin fuel b cmd) (b', events)

end Exchange
