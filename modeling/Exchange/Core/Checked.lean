import Exchange.Core.Matcher

/-!
# The build with overflow checks

The dev profile panics where a quantity leaves its word. These are the functions of
`price_level.rs`, `book.rs` and `matcher.rs` that add to or subtract from a quantity,
and those that call them, with `+=` and `-=` checked: the total in `push_back` and in
`reinsert_at_head`, `total_filled`, and both `remaining`s of a trade. Saturating
operations are the same in both builds.
-/

namespace Exchange

/-- What ends a call of the checked build without a result. -/
inductive Panic
  | fault (f : Fault)
  /-- Attempt to add or to subtract with overflow. -/
  | overflow
  deriving DecidableEq, Repr

abbrev Checked := Except Panic

/-- A step without checked arithmetic. -/
def Outcome.checked {α : Type} (x : Outcome α) : Checked α := x.mapError Panic.fault

instance : MonadLift Outcome Checked := ⟨Outcome.checked⟩

def Qty.checkedAdd (a b : Qty) : Checked Qty :=
  if a + b < a then .error .overflow else .ok (a + b)

def Qty.checkedSub (a b : Qty) : Checked Qty :=
  if a < b then .error .overflow else .ok (a - b)

variable {A : Type} [Slab A Order]

namespace Checked

def pushBack (l : PriceLevel) (slot : Nat) (qty : Qty) : Checked PriceLevel := do
  let totalQty ← l.totalQty.checkedAdd qty
  return { l.pushBack slot qty with totalQty }

def insertResting (b : OrderBook A) (slot : Nat) : Checked (OrderBook A) := do
  let order ← b.order slot
  let level := (b.level? order.side order.price).getD PriceLevel.new
  let oldTail := level.tail
  let level ← pushBack level slot order.remaining
  let b := b.putLevel order.side order.price level
  let b ← b.modifyOrder slot fun o => { o with prev := oldTail, next := none }
  b.modifyLinked oldTail fun o => { o with next := some slot }

def reinsertAtHead (b : OrderBook A) (slot : Nat) (price : Price) (side : Side) :
    Checked (OrderBook A) := do
  let b ← b.modifyOrder slot fun o => { o with prev := none }
  let order ← b.order slot
  let level := (b.level? side price).getD PriceLevel.new
  let oldHead := level.head
  let totalQty ← level.totalQty.checkedAdd order.remaining
  let level : PriceLevel :=
    { head := some slot
      tail := if level.tail.isNone then some slot else level.tail
      totalQty
      count := level.count + 1 }
  let b := b.putLevel side price level
  let b ← b.modifyOrder slot fun o => { o with next := oldHead }
  b.modifyLinked oldHead fun o => { o with prev := some slot }

/-- `arena[slot].remaining -= qty`. -/
def reduce (b : OrderBook A) (slot : Nat) (qty : Qty) : Checked (OrderBook A) := do
  let order ← b.order slot
  let left ← order.remaining.checkedSub qty
  b.modifyOrder slot fun o => { o with remaining := left }

def tradeWith (b : OrderBook A) (t : Aggressor) (makerSlot : Nat) (makerPrice : Price)
    (seq : Seq) (ts : Ts) : Checked (OrderBook A × Qty × List OutputEvent) := do
  let aggressor ← b.order t.slot
  let maker ← b.order makerSlot
  let tradeQty := min aggressor.remaining maker.remaining
  let b ← reduce b t.slot tradeQty
  let b ← reduce b makerSlot tradeQty
  let b := b.setLastTrade makerPrice
  let aggressor ← b.order t.slot
  let maker ← b.order makerSlot
  let trade := .trade seq aggressor.id maker.id makerPrice tradeQty t.side ts
  if maker.remaining = 0 then
    let b := b.setIndex (b.idIndex.erase maker.id)
    let b ← b.removeOrder makerSlot
    return (b.removeEmpty t.side.opposite makerPrice, tradeQty,
      [trade, .filled maker.id seq])
  else
    let b ← reinsertAtHead b makerSlot makerPrice t.side.opposite
    return (b, tradeQty,
      [trade, .partiallyFilled maker.id tradeQty maker.remaining seq])

def matchStep (b : OrderBook A) (t : Aggressor) (seq : Seq) (ts : Ts) :
    Checked (Option (OrderBook A × Qty × List OutputEvent)) := do
  let aggressor ← b.order t.slot
  if aggressor.remaining = 0 then
    return none
  match b.best? t.side.opposite with
  | none => return none
  | some (makerPrice, _) =>
    if t.crosses makerPrice then
      let (popped, b) ← b.popHead t.side.opposite makerPrice
      match popped with
      | none => return none
      | some makerSlot => return some (← tradeWith b t makerSlot makerPrice seq ts)
    else
      return none

def matchLoop (t : Aggressor) (seq : Seq) (ts : Ts) :
    Nat → OrderBook A → Qty → Checked (OrderBook A × Qty × List OutputEvent)
  | 0, _, _ => .error (.fault .outOfFuel)
  | fuel + 1, b, total => do
    match ← matchStep b t seq ts with
    | none => return (b, total, [])
    | some (b, tradeQty, events) =>
      let total ← total.checkedAdd tradeQty
      let (b, total, rest) ← matchLoop t seq ts fuel b total
      return (b, total, events ++ rest)

def matchOrder (fuel : Nat) (b : OrderBook A) (slot : Nat) (seq : Seq) (ts : Ts) :
    Checked (OrderBook A × Qty × List OutputEvent) := do
  let order ← b.order slot
  matchLoop ⟨slot, order.side, order.kind, order.price⟩ seq ts fuel b 0

def restOrder (b : OrderBook A) (no : NewOrder) (slot : Nat) : Checked (OrderBook A) :=
  let b := b.setIndex (b.idIndex.insert no.id ⟨no.price, no.side, slot⟩)
  insertResting b slot

def settle (b : OrderBook A) (no : NewOrder) (slot : Nat) (filled : Qty) (seq : Seq) :
    Checked (OrderBook A × List OutputEvent) := do
  let order ← b.order slot
  let remaining := order.remaining
  if filled > 0 ∧ remaining = 0 then
    let b ← b.removeOrder slot
    return (b.setIndex (b.idIndex.erase no.id), [.filled no.id seq])
  else if filled > 0 then
    if no.kind = .limit then
      let b ← restOrder b no slot
      return (b, [.partiallyFilled no.id filled remaining seq])
    else
      let b ← b.removeOrder slot
      return (b, [.partiallyFilled no.id filled remaining seq, .cancelled no.id seq])
  else
    match no.kind with
    | .limit =>
      let b ← restOrder b no slot
      return (b, [])
    | .market | .ioc | .fok =>
      let b ← b.removeOrder slot
      return (b, [.cancelled no.id seq])
    | _ => return (b, [])

def execute (fuel : Nat) (b : OrderBook A) (no : NewOrder) (seq : Seq) (ts : Ts) :
    Checked (OrderBook A × List OutputEvent) := do
  let slot := Slab.vacantKey b.arena
  let b := b.setArena (Slab.insert b.arena (no.toOrder seq ts))
  let (b, filled, fills) ← matchOrder fuel b slot seq ts
  let (b, closing) ← settle b no slot filled seq
  return (b, fills ++ closing)

section Triggers

variable (resubmit : OrderBook A → NewOrder → Checked (OrderBook A × List OutputEvent))

def activate (b : OrderBook A) (slot : Nat) : Checked (OrderBook A × List OutputEvent) :=
  match b.slot? slot with
  | none => return (b, [])
  | some order => do
    let b := b.setIndex (b.idIndex.erase order.id)
    let b ← b.removeOrder slot
    resubmit b order.activated

def activateAll : List Nat → OrderBook A → Checked (OrderBook A × List OutputEvent)
  | [], b => return (b, [])
  | slot :: rest, b => do
    let (b, events) ← activate resubmit b slot
    let (b, later) ← activateAll rest b
    return (b, events ++ later)

def triggerSide (b : OrderBook A) (side : Side) (last : Price) :
    Checked (OrderBook A × List OutputEvent) := do
  let (b, events) ← activateAll resubmit (b.triggered side last) b
  return (b.retainStops side last, events)

def triggerStops (b : OrderBook A) (last : Price) :
    Checked (OrderBook A × List OutputEvent) := do
  let (b, buys) ← triggerSide resubmit b .buy last
  let (b, sells) ← triggerSide resubmit b .sell last
  return (b, buys ++ sells)

end Triggers

def applyNew (seq : Seq) (ts : Ts) :
    Nat → OrderBook A → NewOrder → Checked (OrderBook A × List OutputEvent)
  | 0, _, _ => .error (.fault .outOfFuel)
  | fuel + 1, b, no =>
    match validate b no with
    | some reason => return (b, [.rejected no.id reason seq])
    | none =>
      if no.kind.isStop then
        return (holdStop b no seq ts, [.accepted no.id seq])
      else if no.kind = .fok ∧ availableQty b no.side no.price < no.qty then
        return (b, [.accepted no.id seq, .rejected no.id .fokUnfillable seq])
      else do
        let (b, events) ← execute fuel b no seq ts
        match b.lastTrade with
        | none => return (b, .accepted no.id seq :: events)
        | some last =>
          let (b, triggered) ← triggerStops (applyNew seq ts fuel) b last
          return (b, .accepted no.id seq :: events ++ triggered)

def applyReplace (fuel : Nat) (b : OrderBook A) (id : OrderId) (newPrice : Price) (newQty : Qty)
    (seq : Seq) (ts : Ts) : Checked (OrderBook A × List OutputEvent) :=
  if newQty = 0 then
    return (b, [.rejected id .zeroQty seq])
  else
    match b.idIndex[id]? with
    | none => return (b, [.rejected id .unknownId seq])
    | some loc => do
      let b := b.setIndex (b.idIndex.erase id)
      let order ← b.order loc.slot
      let b ← b.removeSlot loc.slot order.side loc.price order.remaining
      let b ← b.removeOrder loc.slot
      let (b, events) ← applyNew seq ts fuel b (order.replacement id newPrice newQty)
      return (b, .replaced id seq :: events)

def applyWithin (fuel : Nat) (b : OrderBook A) (cmd : Sequenced) :
    Checked (OrderBook A × List OutputEvent) :=
  match cmd.cmd with
  | .new no => applyNew cmd.seq cmd.ts fuel b no
  | .cancel id _ => applyCancel b id cmd.seq
  | .replace id newPrice newQty _ =>
    applyReplace fuel b id newPrice newQty cmd.seq cmd.ts

end Checked

/-- `apply` of the checked build returns. -/
def CheckedApplies (b : OrderBook A) (cmd : Sequenced) (b' : OrderBook A)
    (events : List OutputEvent) : Prop :=
  Fuel.Converges (fun fuel => Checked.applyWithin fuel b cmd) (b', events)

end Exchange
