import Mathlib.Data.Int.Order.Basic
import Mathlib.Data.List.Dedup
import Exchange.Lib.Greedy
import Exchange.Lib.Priority
import Exchange.Core.Matcher

/-!
# The price-time priority book

What the order book is for, without slots, links or maps: on each side the
resting orders in the order in which they will trade. A taker is matched
greedily against the list of the opposite side (`fills`), a remainder joins the
list of its own side behind every order that is not worse (`Priority.enqueue`).
The cached totals of the price levels are carried along, as the source computes
them, because the fill-or-kill check reads them.
-/

namespace Exchange

/-! ## Machine words and prices -/

theorem toNat_min (a b : Qty) : (min a b).toNat = min a.toNat b.toNat := by
  change (if a ≤ b then a else b).toNat = _
  simp only [UInt64.le_iff_toNat_le, Nat.min_def]
  split <;> rfl

theorem toNat_ne_zero {a : Qty} : a.toNat ≠ 0 ↔ a ≠ 0 :=
  not_congr (UInt64.toNat_inj (b := 0))

theorem toNat_satSub (a b : Qty) : (a.satSub b).toNat = a.toNat - b.toNat := by
  unfold Qty.satSub
  split
  · next h =>
    rw [UInt64.lt_iff_toNat_lt] at h
    rw [UInt64.toNat_zero]
    omega
  · next h =>
    exact UInt64.toNat_sub_of_le a b (by
      rw [UInt64.lt_iff_toNat_lt] at h
      rw [UInt64.le_iff_toNat_le]
      omega)

theorem toNat_satAdd (a b : Qty) : (a.satAdd b).toNat = min (2 ^ 64 - 1) (a.toNat + b.toNat) := by
  unfold Qty.satAdd
  have ha := UInt64.toNat_add a b
  have := a.toNat_lt
  have := b.toNat_lt
  split
  · next h =>
    rw [UInt64.lt_iff_toNat_lt] at h
    have hm : (UInt64.ofNat (2 ^ 64 - 1)).toNat = 2 ^ 64 - 1 := by decide
    omega
  · next h =>
    rw [UInt64.lt_iff_toNat_lt] at h
    omega

namespace Side

/-- How far behind the best conceivable price of its side a price is: the
level maps are ascending in it. -/
def rank (side : Side) (price : Price) : Int :=
  match side with
  | .buy => -price.toInt
  | .sell => price.toInt

theorem rank_inj {side : Side} {p p' : Price} (h : side.rank p = side.rank p') : p = p' := by
  refine Int64.toInt_inj.1 ?_
  cases side
  · exact Int.neg_inj.1 h
  · exact h

theorem withinLimit_iff {side : Side} {limit p : Price} :
    side.withinLimit limit p = true ↔ side.opposite.rank p ≤ side.opposite.rank limit := by
  cases side
  · simp [withinLimit, rank, opposite, Int64.le_iff_toInt_le]
  · simp [withinLimit, rank, opposite, Int64.le_iff_toInt_le]

/-- Neither of two opposite prices crosses the other, seen from either side. -/
theorem withinLimit_opposite (side : Side) (p p' : Price) :
    side.opposite.withinLimit p p' = side.withinLimit p' p := by
  cases side <;> rfl

end Side

/-! ## The book -/

/-- A maker at `price` would trade with the order. -/
def NewOrder.accepts (no : NewOrder) (price : Price) : Bool :=
  no.kind.sweepsAll || no.side.withinLimit no.price price

/-- What a price level caches about its orders. -/
structure Tally where
  totalQty : Qty
  count : Nat
  deriving DecidableEq

namespace Tally

/-- No level. -/
def none : Tally := ⟨0, 0⟩

/-- An order joins, at the back or, put back, at the front. -/
def join (t : Tally) (qty : Qty) : Tally := ⟨t.totalQty + qty, t.count + 1⟩

/-- The head is popped: the count is not touched. -/
def pop (t : Tally) (qty : Qty) : Tally := { t with totalQty := t.totalQty.satSub qty }

def leave (t : Tally) (qty : Qty) : Tally := ⟨t.totalQty.satSub qty, t.count - 1⟩

end Tally

structure PriorityBook where
  symbol : SymbolId
  tick : Price
  /-- The resting orders of a side, first to trade first. -/
  makers : Side → List Order
  tally : Side → Price → Tally
  /-- The held stop orders, by slot. -/
  held : Nat → Option Order
  stopBuys : StopMap .buy
  stopSells : StopMap .sell
  lastTrade : Option Price

namespace PriorityBook

def new (symbol : SymbolId) (tick : Price) : PriorityBook where
  symbol := symbol
  tick := tick
  makers := fun _ => []
  tally := fun _ _ => Tally.none
  held := fun _ => none
  stopBuys := ∅
  stopSells := ∅
  lastTrade := none

/-- The queue of a price. -/
def queue (q : PriorityBook) (side : Side) (price : Price) : List Order :=
  (q.makers side).filter fun o => o.price = price

/-- Replace the list of one side, and the tally of one of its prices: the level
goes when nothing is left at that price. -/
def put (q : PriorityBook) (side : Side) (price : Price) (ms : List Order) (tally : Tally) :
    PriorityBook :=
  { q with
    makers := fun side' => if side' = side then ms else q.makers side'
    tally := fun side' price' =>
      if side' = side ∧ price' = price then
        if ms.filter (fun o => o.price = price) = [] then Tally.none else tally
      else q.tally side' price' }

/-! ## Trading -/

/-- What the makers give to a taker that needs `need`. -/
def fills (ok : Price → Bool) : Qty → List Order → List (Order × Qty)
  | _, [] => []
  | need, m :: ms =>
    if need = 0 ∨ ok m.price = false then []
    else (m, min need m.remaining) :: fills ok (need - min need m.remaining) ms

def taken (fs : List (Order × Qty)) : Qty := fs.foldr (fun f total => f.2 + total) 0

/-- The first maker of `side` gives `qty`. -/
def trade (q : PriorityBook) (side : Side) (m : Order) (qty : Qty) : PriorityBook :=
  let tally := (q.tally side m.price).pop m.remaining
  let left := m.remaining - qty
  if left = 0 then
    { q.put side m.price (q.makers side).tail tally with lastTrade := some m.price }
  else
    { q.put side m.price ({ m with remaining := left } :: (q.makers side).tail)
        (tally.join left) with lastTrade := some m.price }

def tradeAll (q : PriorityBook) (side : Side) (fs : List (Order × Qty)) : PriorityBook :=
  fs.foldl (fun q f => q.trade side f.1 f.2) q

/-- The two events of one fill. -/
def fillEvents (seq : Seq) (ts : Ts) (taker : OrderId) (side : Side) (f : Order × Qty) :
    List OutputEvent :=
  [.trade seq taker f.1.id f.1.price f.2 side ts,
    if f.1.remaining - f.2 = 0 then .filled f.1.id seq
    else .partiallyFilled f.1.id f.2 (f.1.remaining - f.2) seq]

/-- A remainder comes to rest. -/
def rest (q : PriorityBook) (o : Order) : PriorityBook :=
  q.put o.side o.price (Priority.enqueue (fun x => o.side.rank x.price) o (q.makers o.side))
    ((q.tally o.side o.price).join o.remaining)

/-- A resting order is taken out. -/
def drop (q : PriorityBook) (o : Order) : PriorityBook :=
  q.put o.side o.price ((q.makers o.side).filter fun o' => o'.id ≠ o.id)
    ((q.tally o.side o.price).leave o.remaining)

/-! ## Held stops -/

/-- A stop order is held in a slot, filed under its trigger price. -/
def hold (q : PriorityBook) (s : Nat) (o : Order) : PriorityBook :=
  { q with
    held := Function.update q.held s (some o)
    stopBuys := match o.side with
      | .buy => q.stopBuys.insert o.stopPrice (q.stopBuys[o.stopPrice]?.getD [] ++ [s])
      | .sell => q.stopBuys
    stopSells := match o.side with
      | .buy => q.stopSells
      | .sell => q.stopSells.insert o.stopPrice (q.stopSells[o.stopPrice]?.getD [] ++ [s]) }

/-- A held stop order leaves its slot; the stop maps keep naming the slot. -/
def release (q : PriorityBook) (s : Nat) : PriorityBook :=
  { q with held := Function.update q.held s none }

/-- What taking a held stop out does to the level at its trigger price, if there
happens to be one. -/
def discount (q : PriorityBook) (side : Side) (price : Price) (qty : Qty) : PriorityBook :=
  { q with
    tally := fun side' price' =>
      if side' = side ∧ price' = price ∧ q.queue side' price' ≠ [] then
        (q.tally side' price').leave qty
      else q.tally side' price' }

/-! ## Commands

The commands of a book without stop orders. -/

/-- The resting order with an id. -/
def live? (q : PriorityBook) (id : OrderId) : Option Order :=
  (q.makers .buy ++ q.makers .sell).find? fun o => o.id = id

def reject? (q : PriorityBook) (no : NewOrder) : Option RejectReason :=
  if no.qty = 0 then some .zeroQty
  else if (q.live? no.id).isSome then some .duplicateId
  else if no.kind.needsPrice && no.price ≤ 0 then some .badPrice
  else none

/-- The price levels of a side with their cached quantities, best first. -/
def ladder (q : PriorityBook) (side : Side) : List (Price × Qty) :=
  ((q.makers side).map (·.price)).dedup.map fun p => (p, (q.tally side p).totalQty)

def available (q : PriorityBook) (aggressor : Side) (limit : Price) : Qty :=
  ((q.ladder aggressor.opposite).takeWhile fun e => aggressor.withinLimit limit e.1).foldl
    (fun total e => total.satAdd e.2) 0

/-- Close an order that is filled, rest the remainder of a limit order, cancel any
other. -/
def settle (q : PriorityBook) (no : NewOrder) (filled : Qty) (seq : Seq) (ts : Ts) :
    PriorityBook × List OutputEvent :=
  let left := no.qty - filled
  let report := if filled = 0 then [] else [.partiallyFilled no.id filled left seq]
  if left = 0 then
    (q, [.filled no.id seq])
  else if no.kind = .limit then
    (q.rest { no.toOrder seq ts with remaining := left }, report)
  else
    (q, report ++ [.cancelled no.id seq])

/-- Match, then settle. -/
def execute (q : PriorityBook) (no : NewOrder) (seq : Seq) (ts : Ts) :
    PriorityBook × List OutputEvent :=
  let fs := fills no.accepts no.qty (q.makers no.side.opposite)
  let r := (q.tradeAll no.side.opposite fs).settle no (taken fs) seq ts
  (r.1, fs.flatMap (fillEvents seq ts no.id no.side) ++ r.2)

def enter (q : PriorityBook) (no : NewOrder) (seq : Seq) (ts : Ts) :
    PriorityBook × List OutputEvent :=
  match q.reject? no with
  | some reason => (q, [.rejected no.id reason seq])
  | none =>
    if no.kind = .fok ∧ q.available no.side no.price < no.qty then
      (q, [.accepted no.id seq, .rejected no.id .fokUnfillable seq])
    else
      ((q.execute no seq ts).1, .accepted no.id seq :: (q.execute no seq ts).2)

def apply (q : PriorityBook) (cmd : Sequenced) : PriorityBook × List OutputEvent :=
  match cmd.cmd with
  | .new no => q.enter no cmd.seq cmd.ts
  | .cancel id _ =>
    match q.live? id with
    | none => (q, [.rejected id .unknownId cmd.seq])
    | some o => (q.drop o, [.cancelled id cmd.seq])
  | .replace id newPrice newQty _ =>
    if newQty = 0 then (q, [.rejected id .zeroQty cmd.seq])
    else
      match q.live? id with
      | none => (q, [.rejected id .unknownId cmd.seq])
      | some o =>
        let r := (q.drop o).enter (o.replacement id newPrice newQty) cmd.seq cmd.ts
        (r.1, .replaced id cmd.seq :: r.2)

/-! ## Well-formed books -/

/-- The quantity a list of orders offers. -/
abbrev supply (l : List Order) : Nat := Greedy.supply (fun o : Order => o.remaining.toNat) l

structure WF (q : PriorityBook) : Prop where
  maker : ∀ side, ∀ o ∈ q.makers side, o.kind = .limit ∧ o.side = side ∧ o.remaining ≠ 0
  ordered : ∀ side, Priority.Ordered (fun o => side.rank o.price) (q.makers side)
  uncrossed : ∀ side, ∀ x ∈ q.makers side, ∀ y ∈ q.makers side.opposite,
    side.withinLimit x.price y.price = false
  ids : ∀ side, ((q.makers side).map (·.id)).Nodup
  apart : ∀ side, ∀ x ∈ q.makers side, ∀ y ∈ q.makers side.opposite, x.id ≠ y.id
  /-- The cached totals never exceed what is there. -/
  backed : ∀ side p, (q.tally side p).totalQty.toNat ≤ supply (q.queue side p)
  bare : ∀ side p, q.queue side p = [] → q.tally side p = Tally.none

theorem mem_queue {q : PriorityBook} {side : Side} {p : Price} {o : Order} :
    o ∈ q.queue side p ↔ o ∈ q.makers side ∧ o.price = p := by
  simp [queue]

theorem WF.new (symbol : SymbolId) (tick : Price) : (PriorityBook.new symbol tick).WF :=
  ⟨by simp [PriorityBook.new], fun _ => List.Pairwise.nil, by simp [PriorityBook.new],
    fun _ => List.nodup_nil, by simp [PriorityBook.new],
    by simp [PriorityBook.new, Tally.none], fun _ _ _ => rfl⟩

section Put

variable {q : PriorityBook} {side side' : Side} {p p' : Price} {ms : List Order} {tally : Tally}

@[simp] theorem makers_put_self : (q.put side p ms tally).makers side = ms := by simp [put]

theorem makers_put_of_ne (h : side' ≠ side) :
    (q.put side p ms tally).makers side' = q.makers side' := by simp [put, h]

theorem queue_put_self :
    (q.put side p ms tally).queue side p = ms.filter fun o => o.price = p := by simp [queue]

/-- The other queues stay, when only orders of the price are moved. -/
theorem queue_put_of_ne (h : ¬(side' = side ∧ p' = p))
    (hms : ∀ p', p' ≠ p → ms.filter (fun o => o.price = p') = q.queue side p') :
    (q.put side p ms tally).queue side' p' = q.queue side' p' := by
  by_cases hs : side' = side
  · subst hs
    rw [queue, makers_put_self]
    exact hms p' fun e => h ⟨rfl, e⟩
  · rw [queue, makers_put_of_ne hs, queue]

/-- What has to be shown about a list that replaces the makers of a side. -/
theorem WF.put (hq : q.WF)
    (hmaker : ∀ o ∈ ms, o.kind = .limit ∧ o.side = side ∧ o.remaining ≠ 0)
    (hordered : Priority.Ordered (fun o => side.rank o.price) ms)
    (huncrossed : ∀ x ∈ ms, ∀ y ∈ q.makers side.opposite,
      side.withinLimit x.price y.price = false)
    (hids : (ms.map (·.id)).Nodup)
    (hapart : ∀ x ∈ ms, ∀ y ∈ q.makers side.opposite, x.id ≠ y.id)
    (hms : ∀ p', p' ≠ p → ms.filter (fun o => o.price = p') = q.queue side p')
    (hbacked : tally.totalQty.toNat ≤ supply (ms.filter fun o => o.price = p)) :
    (q.put side p ms tally).WF := by
  refine ⟨fun side' o ho => ?_, fun side' => ?_, fun side' x hx y hy => ?_, fun side' => ?_,
    fun side' x hx y hy => ?_, fun side' p' => ?_, fun side' p' h => ?_⟩
  · by_cases hs : side' = side
    · subst hs
      rw [makers_put_self] at ho
      exact hmaker o ho
    · rw [makers_put_of_ne hs] at ho
      exact hq.maker side' o ho
  · by_cases hs : side' = side
    · subst hs
      rw [makers_put_self]
      exact hordered
    · rw [makers_put_of_ne hs]
      exact hq.ordered side'
  · rcases side.eq_or_eq_opposite side' with rfl | rfl
    · rw [makers_put_self] at hx
      rw [makers_put_of_ne (Side.opposite_ne side')] at hy
      exact huncrossed x hx y hy
    · rw [makers_put_of_ne (Side.opposite_ne side)] at hx
      rw [Side.opposite_opposite, makers_put_self] at hy
      rw [Side.withinLimit_opposite]
      exact huncrossed y hy x hx
  · by_cases hs : side' = side
    · subst hs
      rw [makers_put_self]
      exact hids
    · rw [makers_put_of_ne hs]
      exact hq.ids side'
  · rcases side.eq_or_eq_opposite side' with rfl | rfl
    · rw [makers_put_self] at hx
      rw [makers_put_of_ne (Side.opposite_ne side')] at hy
      exact hapart x hx y hy
    · rw [makers_put_of_ne (Side.opposite_ne side)] at hx
      rw [Side.opposite_opposite, makers_put_self] at hy
      exact (hapart y hy x hx).symm
  · by_cases h : side' = side ∧ p' = p
    · obtain ⟨rfl, rfl⟩ := h
      rw [queue_put_self]
      simp only [PriorityBook.put, and_self, if_true]
      split
      · exact Nat.zero_le _
      · exact hbacked
    · rw [queue_put_of_ne h hms]
      simp only [PriorityBook.put, h, if_false]
      exact hq.backed side' p'
  · by_cases hsp : side' = side ∧ p' = p
    · obtain ⟨rfl, rfl⟩ := hsp
      rw [queue_put_self] at h
      simp [PriorityBook.put, h]
    · rw [queue_put_of_ne hsp hms] at h
      simp only [PriorityBook.put, hsp, if_false]
      exact hq.bare side' p' h

end Put

/-! ## Each update keeps a book well-formed -/

section Updates

variable {q : PriorityBook} {side : Side} {m o : Order} {ms : List Order} {qty : Qty}

theorem WF.withLastTrade (hq : q.WF) (price : Option Price) :
    { q with lastTrade := price }.WF :=
  ⟨hq.maker, hq.ordered, hq.uncrossed, hq.ids, hq.apart, hq.backed, hq.bare⟩

theorem queue_of_makers_cons (hm : q.makers side = m :: ms) :
    q.queue side m.price = m :: ms.filter fun o => o.price = m.price := by
  rw [queue, hm, List.filter_cons_of_pos (by simp)]

theorem queue_of_makers_cons_ne (hm : q.makers side = m :: ms) {p : Price} (hp : p ≠ m.price) :
    q.queue side p = ms.filter fun o => o.price = p := by
  rw [queue, hm, List.filter_cons_of_neg (by simpa using Ne.symm hp)]

/-- A fill takes all of the maker, or less and then all of the need. -/
theorem min_cases (need : Qty) (m : Order) :
    (min need m.remaining = m.remaining ∧ m.remaining ≤ need ∧
        m.remaining - min need m.remaining = 0) ∨
      (min need m.remaining = need ∧ need < m.remaining ∧
        m.remaining - min need m.remaining ≠ 0) := by
  have hmin := toNat_min need m.remaining
  by_cases h : m.remaining ≤ need
  · left
    have heq : min need m.remaining = m.remaining := by
      rw [UInt64.le_iff_toNat_le] at h
      refine UInt64.toNat_inj.1 ?_
      omega
    refine ⟨heq, h, ?_⟩
    rw [heq, UInt64.sub_self]
  · right
    rw [UInt64.le_iff_toNat_le] at h
    have heq : min need m.remaining = need := by
      refine UInt64.toNat_inj.1 ?_
      omega
    refine ⟨heq, by rw [UInt64.lt_iff_toNat_lt]; omega, ?_⟩
    rw [heq, ← toNat_ne_zero, UInt64.toNat_sub_of_le]
    · omega
    · rw [UInt64.le_iff_toNat_le]
      omega

theorem trade_of_eq (hm : q.makers side = m :: ms) (h : m.remaining - qty = 0) :
    q.trade side m qty =
      { q.put side m.price ms ((q.tally side m.price).pop m.remaining) with
        lastTrade := some m.price } := by
  simp [trade, h, hm]

theorem trade_of_ne (hm : q.makers side = m :: ms) (h : m.remaining - qty ≠ 0) :
    q.trade side m qty =
      { q.put side m.price ({ m with remaining := m.remaining - qty } :: ms)
          (((q.tally side m.price).pop m.remaining).join (m.remaining - qty)) with
        lastTrade := some m.price } := by
  simp [trade, h, hm]

theorem WF.trade (hq : q.WF) (hm : q.makers side = m :: ms) (qty : Qty) :
    (q.trade side m qty).WF := by
  have hmem : ∀ o ∈ ms, o ∈ q.makers side := fun o ho => hm ▸ List.mem_cons_of_mem m ho
  have hmm : m ∈ q.makers side := hm ▸ List.mem_cons_self
  have hord := hq.ordered side
  rw [hm] at hord
  have hids := hq.ids side
  rw [hm] at hids
  have hback := hq.backed side m.price
  rw [queue_of_makers_cons hm, supply, Greedy.supply_cons] at hback
  obtain ⟨hkind, hside, hrem⟩ := hq.maker side m hmm
  by_cases hleft : m.remaining - qty = 0
  · rw [trade_of_eq hm hleft]
    refine WF.withLastTrade (hq.put (fun o ho => hq.maker side o (hmem o ho))
      (List.pairwise_cons.1 hord).2 (fun x hx => hq.uncrossed side x (hmem x hx))
      (List.nodup_cons.1 hids).2 (fun x hx => hq.apart side x (hmem x hx))
      (fun p' hp' => (queue_of_makers_cons_ne hm hp').symm) ?_) _
    rw [Tally.pop, toNat_satSub, supply]
    omega
  · rw [trade_of_ne hm hleft]
    suffices h : (q.put side m.price ({ m with remaining := m.remaining - qty } :: ms)
        (((q.tally side m.price).pop m.remaining).join (m.remaining - qty))).WF from
      h.withLastTrade _
    refine hq.put ?_ ?_ ?_ hids ?_ ?_ ?_
    · intro o ho
      rcases List.mem_cons.1 ho with rfl | ho
      · exact ⟨hkind, hside, hleft⟩
      · exact hq.maker side o (hmem o ho)
    · obtain ⟨hfirst, htail⟩ := List.pairwise_cons.1 hord
      exact List.pairwise_cons.2 ⟨hfirst, htail⟩
    · intro x hx
      rcases List.mem_cons.1 hx with rfl | hx
      · exact hq.uncrossed side m hmm
      · exact hq.uncrossed side x (hmem x hx)
    · intro x hx
      rcases List.mem_cons.1 hx with rfl | hx
      · exact hq.apart side m hmm
      · exact hq.apart side x (hmem x hx)
    · intro p' hp'
      rw [queue_of_makers_cons_ne hm hp', List.filter_cons_of_neg (by simpa using Ne.symm hp')]
    · rw [List.filter_cons_of_pos (by simp), supply, Greedy.supply_cons, Tally.join, Tally.pop,
        UInt64.toNat_add, toNat_satSub]
      have := Nat.mod_le ((q.tally side m.price).totalQty.toNat - m.remaining.toNat +
        (m.remaining - qty).toNat) (2 ^ 64)
      dsimp only
      omega

/-- A resting order is last at its price. -/
theorem queue_rest (hq : q.WF) (o : Order) :
    (q.rest o).queue o.side o.price = q.queue o.side o.price ++ [o] := by
  rw [rest, queue_put_self]
  refine Priority.filter_enqueue (hq.ordered o.side) (fun y _ hy => ?_) (by simp)
  have hy : y.price = o.price := by simpa using hy
  rw [hy]

theorem queue_rest_of_ne {p : Price} (h : ¬(side = o.side ∧ p = o.price)) :
    (q.rest o).queue side p = q.queue side p :=
  queue_put_of_ne h fun _ hp' => Priority.filter_enqueue_of_not (by simpa using Ne.symm hp')

theorem tally_rest (hq : q.WF) (o : Order) :
    (q.rest o).tally o.side o.price = (q.tally o.side o.price).join o.remaining := by
  have hself := queue_rest hq o
  rw [rest, queue_put_self] at hself
  simp only [rest, put, and_self, if_true, hself]
  simp

theorem tally_rest_of_ne {p : Price} (h : ¬(side = o.side ∧ p = o.price)) :
    (q.rest o).tally side p = q.tally side p := by
  simp [rest, put, h]

theorem mem_makers_rest {x : Order} :
    x ∈ (q.rest o).makers side ↔ x ∈ q.makers side ∨ (x = o ∧ side = o.side) := by
  by_cases hs : side = o.side
  · subst hs
    rw [rest, makers_put_self, Priority.mem_enqueue, or_comm, and_iff_left rfl]
  · rw [rest, makers_put_of_ne hs, or_iff_left fun h => hs h.2]

/-- A remainder that crosses no maker may rest. -/
theorem WF.rest (hq : q.WF) (hkind : o.kind = .limit) (hrem : o.remaining ≠ 0)
    (hcross : ∀ y ∈ q.makers o.side.opposite, o.side.withinLimit o.price y.price = false)
    (hfresh : ∀ side, ∀ x ∈ q.makers side, x.id ≠ o.id) : (q.rest o).WF := by
  have hfilter := queue_rest hq o
  rw [PriorityBook.rest, queue_put_self] at hfilter
  refine hq.put ?_ (Priority.ordered_enqueue (hq.ordered o.side)) ?_ ?_ ?_ ?_ ?_
  · intro x hx
    rcases Priority.mem_enqueue.1 hx with rfl | hx
    · exact ⟨hkind, rfl, hrem⟩
    · exact hq.maker _ x hx
  · intro x hx y hy
    rcases Priority.mem_enqueue.1 hx with rfl | hx
    · exact hcross y hy
    · exact hq.uncrossed _ x hx y hy
  · rw [(Priority.enqueue_perm.map _).nodup_iff, List.map_cons, List.nodup_cons]
    refine ⟨fun h => ?_, hq.ids o.side⟩
    obtain ⟨x, hx, hid⟩ := List.mem_map.1 h
    exact hfresh _ x hx hid
  · intro x hx y hy
    rcases Priority.mem_enqueue.1 hx with rfl | hx
    · exact (hfresh _ y hy).symm
    · exact hq.apart _ x hx y hy
  · intro p' hp'
    exact Priority.filter_enqueue_of_not (by simpa using Ne.symm hp')
  · rw [hfilter, Tally.join, UInt64.toNat_add]
    have := Nat.mod_le ((q.tally o.side o.price).totalQty.toNat + o.remaining.toNat) (2 ^ 64)
    have := hq.backed o.side o.price
    simp only [supply, Greedy.supply, List.map_append, List.sum_append, List.map_cons,
      List.map_nil, List.sum_singleton] at this ⊢
    omega

theorem filter_id_ne {l₁ l₂ : List Order} (h : ((l₁ ++ o :: l₂).map (·.id)).Nodup) :
    ((l₁ ++ o :: l₂).filter fun x => x.id ≠ o.id) = l₁ ++ l₂ := by
  rw [List.map_append, List.map_cons, List.nodup_middle, List.nodup_cons] at h
  have hne : ∀ x ∈ l₁ ++ l₂, x.id ≠ o.id := fun x hx e =>
    h.1 (e ▸ by simpa using List.mem_map_of_mem (f := (·.id)) hx)
  rw [List.filter_append, List.filter_cons_of_neg (by simp),
    List.filter_eq_self.2 fun x hx => by simpa using hne x (List.mem_append_left _ hx),
    List.filter_eq_self.2 fun x hx => by simpa using hne x (List.mem_append_right _ hx)]

/-- Taking an order out cuts it out of its queue. -/
theorem filter_drop (p : Price) :
    ((q.makers side).filter fun x => x.id ≠ o.id).filter (fun x => x.price = p) =
      (q.queue side p).filter fun x => x.id ≠ o.id := by
  rw [queue, List.filter_filter, List.filter_filter]
  simp only [Bool.and_comm]

theorem filter_drop_of_ne (hq : q.WF) (ho : o ∈ q.makers side) {p : Price} (hp : p ≠ o.price) :
    ((q.makers side).filter fun x => x.id ≠ o.id).filter (fun x => x.price = p) =
      q.queue side p := by
  rw [filter_drop]
  refine List.filter_eq_self.2 fun x hx => ?_
  obtain ⟨hx, hxp⟩ := mem_queue.1 hx
  have hne : x.id ≠ o.id := fun e => hp (by
    rw [← hxp, List.inj_on_of_nodup_map (hq.ids side) hx ho e])
  simpa using hne

theorem filter_drop_self (hq : q.WF) {l₁ l₂ : List Order}
    (hl : q.queue side o.price = l₁ ++ o :: l₂) :
    ((q.makers side).filter fun x => x.id ≠ o.id).filter (fun x => x.price = o.price) =
      l₁ ++ l₂ := by
  have hids : ((q.queue side o.price).map (·.id)).Nodup :=
    (hq.ids side).sublist (List.filter_sublist.map _)
  rw [filter_drop, hl]
  exact filter_id_ne (hl ▸ hids)

theorem WF.drop (hq : q.WF) (ho : o ∈ q.makers side) : (q.drop o).WF := by
  obtain ⟨-, rfl, -⟩ := hq.maker side o ho
  have hsub : ∀ x ∈ (q.makers o.side).filter (fun x => x.id ≠ o.id), x ∈ q.makers o.side :=
    fun x hx => (List.mem_filter.1 hx).1
  refine hq.put (fun x hx => hq.maker _ x (hsub x hx)) ((hq.ordered _).filter _)
    (fun x hx => hq.uncrossed _ x (hsub x hx)) ?_ (fun x hx => hq.apart _ x (hsub x hx))
    (fun p' hp' => filter_drop_of_ne hq ho hp') ?_
  · exact (hq.ids o.side).sublist (List.filter_sublist.map _)
  · obtain ⟨l₁, l₂, hl⟩ := List.append_of_mem (mem_queue.2 ⟨ho, rfl⟩ : o ∈ q.queue o.side o.price)
    have hback := hq.backed o.side o.price
    rw [filter_drop_self hq hl, Tally.leave, toNat_satSub]
    rw [hl] at hback
    simp only [supply, Greedy.supply, List.map_append, List.sum_append, List.map_cons,
      List.sum_cons] at hback ⊢
    omega

theorem WF.hold (hq : q.WF) (s : Nat) (o : Order) : (q.hold s o).WF :=
  ⟨hq.maker, hq.ordered, hq.uncrossed, hq.ids, hq.apart, hq.backed, hq.bare⟩

theorem WF.release (hq : q.WF) (s : Nat) : (q.release s).WF :=
  ⟨hq.maker, hq.ordered, hq.uncrossed, hq.ids, hq.apart, hq.backed, hq.bare⟩

theorem WF.discount (hq : q.WF) (side : Side) (p : Price) (qty : Qty) :
    (q.discount side p qty).WF := by
  refine ⟨hq.maker, hq.ordered, hq.uncrossed, hq.ids, hq.apart, fun side' p' => ?_,
    fun side' p' h => ?_⟩
  · have hback := hq.backed side' p'
    change _ ≤ supply (q.queue side' p')
    unfold PriorityBook.discount
    dsimp only
    split
    · rw [Tally.leave, toNat_satSub]
      omega
    · exact hback
  · have hq' : q.queue side' p' = [] := h
    simp only [PriorityBook.discount, hq', ne_eq, not_true_eq_false, and_false, if_false]
    exact hq.bare side' p' hq'

end Updates

end PriorityBook

end Exchange
