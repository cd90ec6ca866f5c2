import Exchange.Verify.Cascade
import Exchange.Verify.Tape

/-!
# Commands of a priority book with stop orders

What `apply` does to a priority book when stop orders are held. An order is matched
greedily; then held stop market orders fire one after another, each because a trade or the last
trade before the command has reached the price that its slot is filed under, and each is
matched greedily in its turn. An entry of the stop maps goes only when nothing is held under it.
-/

namespace Exchange

namespace PriorityBook

variable {q q₁ q₂ : PriorityBook} {seq : Seq} {ts : Ts} {es es' : List OutputEvent}
  {side : Side} {t p : Price} {s : Nat} {o : Order} {no : NewOrder}

/-- An order with the id rests or is held. -/
def Lives (q : PriorityBook) (id : OrderId) : Prop :=
  (∃ side, ∃ o ∈ q.makers side, o.id = id) ∨ ∃ s o, q.held s = some o ∧ o.id = id

def stops (q : PriorityBook) : (side : Side) → StopMap side
  | .buy => q.stopBuys
  | .sell => q.stopSells

/-- The stop maps file the slot under the trigger price. -/
def Files (q : PriorityBook) (side : Side) (t : Price) (s : Nat) : Prop :=
  ∃ slots, (q.stops side)[t]? = some slots ∧ s ∈ slots

/-- The price is that of a trade of the command, or of the last one before it. -/
def TradedAt (q : PriorityBook) (events : List OutputEvent) (p : Price) : Prop :=
  q.lastTrade = some p ∨ p ∈ events.filterMap OutputEvent.tradePrice?

/-- Held orders fire. -/
inductive Fires (seq : Seq) (ts : Ts) (q : PriorityBook) :
    List OutputEvent → PriorityBook → Prop
  | refl : Fires seq ts q [] q
  | prune {es : List OutputEvent} {q₁ : PriorityBook} {side : Side} {p : Price}
      (h : Fires seq ts q es q₁) (hlast : q.TradedAt es p)
      (hdone : ∀ t s, q₁.Files side t s → side.triggers t p = true → q₁.held s = none) :
      Fires seq ts q es (q₁.prune side p)
  | fire {es : List OutputEvent} {q₁ : PriorityBook} {side : Side} {t p : Price} {s : Nat}
      {o : Order} (h : Fires seq ts q es q₁) (hheld : q₁.held s = some o)
      (hkind : o.kind = .stopMarket) (hfiled : q₁.Files side t s) (hlast : q.TradedAt es p)
      (ht : side.triggers t p = true) :
      Fires seq ts q
        (es ++ .accepted o.id seq :: ((q₁.release s).execute o.activated seq ts).2)
        ((q₁.release s).execute o.activated seq ts).1

/-- Why an order is turned away. -/
inductive Refuses (q : PriorityBook) (no : NewOrder) : RejectReason → Prop
  | zeroQty (hqty : no.qty = 0) : Refuses q no .zeroQty
  | duplicateId (hqty : no.qty ≠ 0) (hid : q.Lives no.id) : Refuses q no .duplicateId
  | badPrice (hqty : no.qty ≠ 0) (hid : ¬q.Lives no.id) (hneeds : no.kind.needsPrice = true)
      (hprice : no.price ≤ 0) : Refuses q no .badPrice

/-- An order comes in. -/
inductive Enters (seq : Seq) (ts : Ts) (q : PriorityBook) (no : NewOrder) :
    PriorityBook → List OutputEvent → Prop
  | rejected {reason : RejectReason} (h : q.Refuses no reason) :
      Enters seq ts q no q [.rejected no.id reason seq]
  | held {s : Nat} (h : ∀ reason, ¬q.Refuses no reason) (hstop : no.kind.isStop = true)
      (hs : q.held s = none) :
      Enters seq ts q no (q.hold s (no.toOrder seq ts)) [.accepted no.id seq]
  | killed (h : ∀ reason, ¬q.Refuses no reason) (hfok : no.kind = .fok)
      (hshort : q.available no.side no.price < no.qty) :
      Enters seq ts q no q [.accepted no.id seq, .rejected no.id .fokUnfillable seq]
  | executed {q₁ : PriorityBook} {es : List OutputEvent} (h : ∀ reason, ¬q.Refuses no reason)
      (hstop : no.kind.isStop = false)
      (hfok : ¬(no.kind = .fok ∧ q.available no.side no.price < no.qty))
      (hfires : Fires seq ts (q.execute no seq ts).1 es q₁) :
      Enters seq ts q no q₁ (.accepted no.id seq :: (q.execute no seq ts).2 ++ es)

/-- The order with an id is taken out. Taking a held order out also discounts the level
that happens to be at its trigger price. -/
inductive TakesOut (q : PriorityBook) (id : OrderId) : Order → PriorityBook → Prop
  | maker {side : Side} {o : Order} (ho : o ∈ q.makers side) (hid : o.id = id) :
      TakesOut q id o (q.drop o)
  | held {s : Nat} {o : Order} (ho : q.held s = some o) (hid : o.id = id) :
      TakesOut q id o ((q.discount o.side o.stopPrice o.remaining).release s)

end PriorityBook

/-- A command and its events. -/
inductive StopStep (q : PriorityBook) : Entry → PriorityBook → Prop
  | new {seq : Seq} {ts : Ts} {no : NewOrder} {q₁ : PriorityBook} {es : List OutputEvent}
      (h : q.Enters seq ts no q₁ es) : StopStep q (⟨seq, ts, .new no⟩, es) q₁
  | cancelUnknown {seq : Seq} {ts : Ts} {id : OrderId} {symbol : SymbolId} (h : ¬q.Lives id) :
      StopStep q (⟨seq, ts, .cancel id symbol⟩, [.rejected id .unknownId seq]) q
  | cancel {seq : Seq} {ts : Ts} {id : OrderId} {symbol : SymbolId} {o : Order}
      {q₁ : PriorityBook} (h : q.TakesOut id o q₁) :
      StopStep q (⟨seq, ts, .cancel id symbol⟩, [.cancelled id seq]) q₁
  | replaceZero {seq : Seq} {ts : Ts} {id : OrderId} {newPrice : Price} {symbol : SymbolId} :
      StopStep q (⟨seq, ts, .replace id newPrice 0 symbol⟩, [.rejected id .zeroQty seq]) q
  | replaceUnknown {seq : Seq} {ts : Ts} {id : OrderId} {newPrice : Price} {newQty : Qty}
      {symbol : SymbolId} (hqty : newQty ≠ 0) (h : ¬q.Lives id) :
      StopStep q (⟨seq, ts, .replace id newPrice newQty symbol⟩, [.rejected id .unknownId seq]) q
  | replace {seq : Seq} {ts : Ts} {id : OrderId} {newPrice : Price} {newQty : Qty}
      {symbol : SymbolId} {o : Order} {q₁ q₂ : PriorityBook} {es : List OutputEvent}
      (hqty : newQty ≠ 0) (h : q.TakesOut id o q₁)
      (henters : q₁.Enters seq ts (o.replacement id newPrice newQty) q₂ es) :
      StopStep q (⟨seq, ts, .replace id newPrice newQty symbol⟩, .replaced id seq :: es) q₂

namespace PriorityBook

variable {q q₁ q₂ : PriorityBook} {seq : Seq} {ts : Ts} {es es' : List OutputEvent}
  {side : Side} {t p : Price} {s : Nat} {o : Order} {no : NewOrder}

/-! ## The last trade -/

theorem TradedAt.append_left (h : q.TradedAt es p) (es' : List OutputEvent) :
    q.TradedAt (es ++ es') p := by
  rcases h with h | h
  · exact .inl h
  · exact .inr (by simp [h])

theorem tradeAll_lastTrade (side : Side) (q : PriorityBook) (fs : List (Order × Qty)) :
    (q.tradeAll side fs).lastTrade = (fs.map (·.1.price)).getLast?.or q.lastTrade := by
  induction fs generalizing q with
  | nil => rfl
  | cons f fs ih =>
    have hlast : (q.trade side f.1 f.2).lastTrade = some f.1.price := by
      unfold trade
      dsimp only
      split <;> rfl
    rw [tradeAll_cons, ih, hlast, List.map_cons, List.getLast?_cons]
    cases (fs.map (·.1.price)).getLast? <;> rfl

theorem settle_lastTrade (q : PriorityBook) (no : NewOrder) (filled : Qty) (seq : Seq) (ts : Ts) :
    (q.settle no filled seq ts).1.lastTrade = q.lastTrade ∧
      (q.settle no filled seq ts).2.filterMap OutputEvent.tradePrice? = [] := by
  unfold settle
  dsimp only
  split
  · exact ⟨rfl, rfl⟩
  · split <;> split <;> exact ⟨rfl, rfl⟩

/-- The last trade price after an execution is the last in its events. -/
theorem execute_lastTrade (q : PriorityBook) (no : NewOrder) (seq : Seq) (ts : Ts) :
    (q.execute no seq ts).1.lastTrade =
      ((q.execute no seq ts).2.filterMap OutputEvent.tradePrice?).getLast?.or q.lastTrade := by
  have hfills : ∀ fs : List (Order × Qty),
      (fs.flatMap (fillEvents seq ts no.id no.side)).filterMap OutputEvent.tradePrice? =
        fs.map (·.1.price) := by
    intro fs
    induction fs with
    | nil => rfl
    | cons f fs ih =>
      rw [List.flatMap_cons, List.filterMap_append, ih]
      unfold fillEvents
      split <;> rfl
  obtain ⟨hlast, hquiet⟩ := settle_lastTrade
    (q.tradeAll no.side.opposite (fills no.accepts no.qty (q.makers no.side.opposite))) no
    (taken (fills no.accepts no.qty (q.makers no.side.opposite))) seq ts
  unfold execute
  dsimp only
  rw [hlast, List.filterMap_append, hfills, hquiet, List.append_nil, tradeAll_lastTrade]

theorem tradedAt_of_getLast?
    (h : ((es.filterMap OutputEvent.tradePrice?).getLast?.or q.lastTrade) = some p) :
    q.TradedAt es p := by
  cases hlast : (es.filterMap OutputEvent.tradePrice?).getLast? with
  | none =>
    rw [hlast] at h
    exact .inl h
  | some p' =>
    rw [hlast] at h
    cases h
    exact .inr (List.mem_of_getLast? hlast)

namespace Fires

theorem lastTrade (h : q.Fires seq ts es q₁) :
    q₁.lastTrade = (es.filterMap OutputEvent.tradePrice?).getLast?.or q.lastTrade := by
  induction h with
  | refl => rfl
  | prune _ _ _ ih => exact ih
  | @fire es q₁ side t p' s o h hheld hkind hfiled hlast ht ih =>
    have hreleased : (q₁.release s).lastTrade = q₁.lastTrade := rfl
    rw [execute_lastTrade, hreleased, ih, List.filterMap_append, List.filterMap_cons_none rfl,
      List.getLast?_append, Option.or_assoc]

theorem tradedAt (h : q.Fires seq ts es q₁) (hp : q₁.lastTrade = some p) : q.TradedAt es p :=
  tradedAt_of_getLast? (h.lastTrade.symm.trans hp)

theorem trans (h : q.Fires seq ts es q₁) (h' : q₁.Fires seq ts es' q₂) :
    q.Fires seq ts (es ++ es') q₂ := by
  have hprice : ∀ {es' p}, q₁.TradedAt es' p → q.TradedAt (es ++ es') p := by
    intro es' p hp
    rcases hp with hp | hp
    · exact (h.tradedAt hp).append_left _
    · exact .inr (by simp [hp])
  induction h' with
  | refl => simpa using h
  | prune _ hlast hdone ih => exact .prune ih (hprice hlast) hdone
  | fire _ hheld hkind hfiled hlast ht ih =>
    rw [← List.append_assoc]
    exact .fire ih hheld hkind hfiled (hprice hlast) ht

end Fires

end PriorityBook

end Exchange
