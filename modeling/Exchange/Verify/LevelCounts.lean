import Exchange.Verify.Overflow

/-!
# Level counts

The count of a level goes up when an order joins it, also when a partly filled maker is
put back, and down when an order is taken out. The pop of a maker leaves it alone. So a
count stays exact only as long as every fill takes its level away with it: a taker may
leave a price untouched or sweep it whole, but must not stop inside its queue.
-/

namespace Exchange

open PriorityBook Links

namespace PriorityBook

variable {q : PriorityBook} {side side' : Side} {ok : Price → Bool} {need qty : Qty} {m o : Order}
  {ms : List Order} {no : NewOrder} {p : Price}

/-- Every cached count is the number of orders at its price. -/
def Counted (q : PriorityBook) : Prop :=
  ∀ side p, (q.tally side p).count = (q.queue side p).length

/-- A need would be met inside the queue of a price. -/
def Splits (q : PriorityBook) (side : Side) (need : Nat) (p : Price) : Prop :=
  let ahead := Greedy.before (fun o : Order => o.remaining.toNat) (fun o => side.rank o.price)
    (side.rank p) (q.makers side)
  ahead < need ∧ need < ahead + supply (q.queue side p)

/-! ## One trade -/

theorem tally_put_of_ne {tally : Tally} (h : ¬(side' = side ∧ p = m.price)) :
    (q.put side m.price ms tally).tally side' p = q.tally side' p := by
  simp [put, h]

theorem trade_of_ne_price (hm : q.makers side = m :: ms) (qty : Qty)
    (h : ¬(side' = side ∧ p = m.price)) :
    (q.trade side m qty).tally side' p = q.tally side' p ∧
      (q.trade side m qty).queue side' p = q.queue side' p := by
  have hother : ∀ p', p' ≠ m.price → ms.filter (fun o => o.price = p') = q.queue side p' :=
    fun p' hp' => (queue_of_makers_cons_ne hm hp').symm
  by_cases hleft : m.remaining - qty = 0
  · rw [trade_of_eq hm hleft]
    refine ⟨tally_put_of_ne h, ?_⟩
    change (q.put side m.price ms ((q.tally side m.price).pop m.remaining)).queue side' p = _
    exact queue_put_of_ne h hother
  · rw [trade_of_ne hm hleft]
    refine ⟨tally_put_of_ne h, ?_⟩
    change (q.put side m.price _
      (((q.tally side m.price).pop m.remaining).join (m.remaining - qty))).queue side' p = _
    refine queue_put_of_ne h fun p' hp' => ?_
    rw [List.filter_cons_of_neg (by simpa using Ne.symm hp')]
    exact hother p' hp'

/-- A maker that is used up leaves the count to those behind it. -/
theorem trade_whole (hm : q.makers side = m :: ms) (h : m.remaining - qty = 0) :
    q.queue side m.price = m :: (q.trade side m qty).queue side m.price ∧
      ((q.trade side m qty).tally side m.price).count =
        if (q.trade side m qty).queue side m.price = [] then 0
        else (q.tally side m.price).count := by
  have hqueue : (q.trade side m qty).queue side m.price =
      ms.filter fun o => o.price = m.price := by
    rw [trade_of_eq hm h]
    change (q.put side m.price ms ((q.tally side m.price).pop m.remaining)).queue side m.price = _
    exact queue_put_self
  rw [hqueue, queue_of_makers_cons hm, trade_of_eq hm h]
  refine ⟨rfl, ?_⟩
  simp only [put, and_self, if_true]
  split
  · rfl
  · rfl

/-- A maker that is put back is counted twice. -/
theorem trade_part (hm : q.makers side = m :: ms) (h : m.remaining - qty ≠ 0) :
    ((q.trade side m qty).queue side m.price).length = (q.queue side m.price).length ∧
      ((q.trade side m qty).tally side m.price).count = (q.tally side m.price).count + 1 := by
  rw [queue_of_makers_cons hm, trade_of_ne hm h]
  constructor
  · change ((q.put side m.price _ (((q.tally side m.price).pop m.remaining).join
      (m.remaining - qty))).queue side m.price).length = _
    rw [queue_put_self, List.filter_cons_of_pos (by simp), List.length_cons, List.length_cons]
  · simp [put, Tally.join, Tally.pop]

/-! ## A sweep -/

/-- The fills at a price. -/
def fillsAt (fs : List (Order × Qty)) (p : Price) : Nat := fs.countP fun f => f.1.price = p

theorem rank_eq_iff {p p' : Price} : side.rank p = side.rank p' ↔ p = p' :=
  ⟨Side.rank_inj, fun e => e ▸ rfl⟩

theorem queue_ne_nil_iff : q.queue side p ≠ [] ↔ ∃ o ∈ q.makers side, o.price = p := by
  constructor
  · intro h
    obtain ⟨o, ho⟩ := List.exists_mem_of_ne_nil _ h
    exact ⟨o, mem_queue.1 ho⟩
  · rintro ⟨o, ho⟩ hnil
    have hmem := mem_queue.2 ho
    rw [hnil] at hmem
    cases hmem

/-- **Drift.** While anything is left at a price, every fill there has put its count one
above the number of orders. -/
theorem Counted.tradeAll (hc : q.Counted) (hq : q.WF) (side : Side) (ok : Price → Bool)
    (need : Qty) (side' : Side) (p : Price) :
    let fs := fills ok need (q.makers side)
    let q' := q.tradeAll side fs
    q'.queue side' p ≠ [] → (q'.tally side' p).count =
      (q'.queue side' p).length + if side' = side then fillsAt fs p else 0 := by
  refine (sweep_rule (P := fun q _ fs => q.WF ∧ ∀ side' p, q.queue side' p ≠ [] →
    (q.tally side' p).count = (q.queue side' p).length + if side' = side then fillsAt fs p else 0)
    ?_ [] ⟨hq, fun side' p _ => ?_⟩).1.2 side' p
  · rintro q need fs m ms ⟨hq, hc⟩ hm - -
    refine ⟨hq.trade hm _, fun side' p hne => ?_⟩
    by_cases h : side' = side ∧ p = m.price
    · obtain ⟨rfl, rfl⟩ := h
      have hone : fillsAt (fs ++ [(m, min need m.remaining)]) m.price = fillsAt fs m.price + 1 := by
        simp [fillsAt]
      have hcount := hc side' m.price (by simp [queue_of_makers_cons hm])
      rw [if_pos rfl] at hcount ⊢
      rw [hone]
      rcases min_cases need m with ⟨-, -, hleft⟩ | ⟨-, -, hleft⟩
      · obtain ⟨hqueue, htally⟩ := trade_whole hm hleft
        rw [hqueue, List.length_cons] at hcount
        rw [htally, if_neg hne, hcount]
        omega
      · obtain ⟨hqueue, htally⟩ := trade_part hm hleft
        rw [htally, hqueue, hcount]
        omega
    · obtain ⟨htally, hqueue⟩ := trade_of_ne_price hm (min need m.remaining) h
      rw [htally, hqueue, hc side' p (hqueue ▸ hne)]
      by_cases hs : side' = side
      · have hp : m.price ≠ p := fun e => h ⟨hs, e.symm⟩
        simp [fillsAt, hs, hp]
      · simp [hs]
  · simp [hc side' p, fillsAt]

/-- Fills and something left meet at a price exactly when the need is met inside its
queue. -/
theorem WF.splits_iff (hq : q.WF) (hok : ∀ p p', side.rank p ≤ side.rank p' → ok p' = true →
    ok p = true) (p : Price) :
    fillsAt (fills ok need (q.makers side)) p ≠ 0 ∧
        (q.tradeAll side (fills ok need (q.makers side))).queue side p ≠ [] ↔
      q.queue side p ≠ [] ∧ ok p = true ∧ q.Splits side need.toNat p := by
  have hord := hq.ordered side
  have hok' : ∀ a b : Order, side.rank a.price ≤ side.rank b.price → ok b.price = true →
      ok a.price = true := fun a b => hok a.price b.price
  have hpos : ∀ m ∈ q.makers side, 0 < m.remaining.toNat := fun m hm =>
    Nat.pos_of_ne_zero (toNat_ne_zero.2 (hq.maker side m hm).2.2)
  have hgroup : Greedy.group (fun o : Order => o.remaining.toNat) (fun o => side.rank o.price)
      (side.rank p) (q.makers side) = supply (q.queue side p) := by
    simp only [Greedy.group, rank_eq_iff]
    rfl
  have hfill : (∃ f ∈ Greedy.fills (fun o : Order => o.remaining.toNat) (fun o => ok o.price)
      need.toNat (q.makers side), side.rank f.1.price = side.rank p) ↔ _ :=
    Greedy.exists_fill_iff hord hok' (side.rank p)
  have hleft : (∃ r ∈ Greedy.rest (fun o : Order => o.remaining.toNat) (fun o => ok o.price)
      (fun o n => { o with remaining := o.remaining - UInt64.ofNat n }) need.toNat
      (q.makers side), side.rank r.price = side.rank p) ↔ _ :=
    Greedy.exists_rest_iff hord hok' (fun _ _ => by rfl) hpos (side.rank p)
  rw [hgroup] at hleft
  simp only [rank_eq_iff] at hfill hleft
  have hfills : fillsAt (fills ok need (q.makers side)) p ≠ 0 ↔
      ∃ f ∈ Greedy.fills (fun o : Order => o.remaining.toNat) (fun o => ok o.price) need.toNat
        (q.makers side), f.1.price = p := by
    rw [← fills_toNat, fillsAt, Nat.ne_zero_iff_zero_lt, List.countP_pos_iff]
    simp
  rw [hfills, hfill, queue_ne_nil_iff, makers_tradeAll hq, hleft, queue_ne_nil_iff]
  constructor
  · rintro ⟨⟨m, hm, rfl, hmok, hlt⟩, r, -, hr, hmore⟩
    exact ⟨⟨m, hm, rfl⟩, hmok, hlt, hmore (hr ▸ hmok)⟩
  · rintro ⟨⟨m, hm, rfl⟩, hmok, hlt, hmore⟩
    exact ⟨⟨m, hm, rfl, hmok, hlt⟩, m, hm, rfl, fun _ => hmore⟩

/-- A sweep keeps the counts exact exactly when it splits no acceptable queue. -/
theorem Counted.tradeAll_iff (hc : q.Counted) (hq : q.WF) (hok : ∀ p p',
    side.rank p ≤ side.rank p' → ok p' = true → ok p = true) (need : Qty) :
    (q.tradeAll side (fills ok need (q.makers side))).Counted ↔
      ∀ o ∈ q.makers side, ok o.price = true → ¬q.Splits side need.toNat o.price := by
  obtain ⟨hq', -⟩ := hq.tradeAll side ok need
  have hdrift := hc.tradeAll hq side ok need
  dsimp only at hdrift
  constructor
  · intro hc' o ho hpok hsplits
    obtain ⟨hfill, hleft⟩ := (hq.splits_iff hok o.price).2
      ⟨queue_ne_nil_iff.2 ⟨o, ho, rfl⟩, hpok, hsplits⟩
    have hcount := hdrift side o.price hleft
    rw [hc', if_pos rfl] at hcount
    omega
  · intro h side' p
    by_cases hnil : (q.tradeAll side (fills ok need (q.makers side))).queue side' p = []
    · rw [hq'.bare side' p hnil, hnil]
      rfl
    · rw [hdrift side' p hnil]
      split
      · next hs =>
        subst hs
        by_contra hne
        obtain ⟨hqueue, hpok, hsplits⟩ := (hq.splits_iff hok p).1 ⟨by omega, hnil⟩
        obtain ⟨o, ho, rfl⟩ := queue_ne_nil_iff.1 hqueue
        exact h o ho hpok hsplits
      · rfl

/-! ## Commands -/

theorem accepts_mono (no : NewOrder) {p p' : Price}
    (h : no.side.opposite.rank p ≤ no.side.opposite.rank p') (hp' : no.accepts p' = true) :
    no.accepts p = true := by
  unfold NewOrder.accepts at hp' ⊢
  rcases Bool.or_eq_true_iff.1 hp' with hall | hlimit
  · rw [hall]
    rfl
  · rw [Side.withinLimit_iff.2 (h.trans (Side.withinLimit_iff.1 hlimit)), Bool.or_true]

/-- Resting an order counts it once. -/
theorem counted_rest_iff (hq : q.WF) : (q.rest o).Counted ↔ q.Counted := by
  refine forall_congr' fun side => forall_congr' fun p => ?_
  by_cases h : side = o.side ∧ p = o.price
  · obtain ⟨rfl, rfl⟩ := h
    rw [tally_rest hq, queue_rest hq, List.length_append, List.length_singleton, Tally.join]
    exact Nat.add_right_cancel_iff
  · rw [tally_rest_of_ne h, queue_rest_of_ne h]

theorem Counted.drop (hc : q.Counted) (hq : q.WF) (ho : o ∈ q.makers side) :
    (q.drop o).Counted := by
  obtain ⟨-, rfl, -⟩ := hq.maker side o ho
  intro side' p'
  by_cases h : side' = o.side ∧ p' = o.price
  · obtain ⟨rfl, rfl⟩ := h
    obtain ⟨l₁, l₂, hl⟩ := List.append_of_mem (mem_queue.2 ⟨ho, rfl⟩ : o ∈ q.queue o.side o.price)
    have hcount := hc o.side o.price
    rw [hl, List.length_append, List.length_cons] at hcount
    rw [PriorityBook.drop, queue_put_self, filter_drop_self hq hl, List.length_append]
    simp only [put, and_self, if_true, filter_drop_self hq hl]
    split
    · next hnil =>
      rw [← List.length_append, hnil]
      rfl
    · change (q.tally o.side o.price).count - 1 = _
      omega
  · rw [PriorityBook.drop, queue_put_of_ne h fun p' hp' => filter_drop_of_ne hq ho hp']
    simp only [put, h, if_false]
    exact hc side' p'

/-- A new order would stop inside the queue of a price that it accepts. -/
def StopsInside (q : PriorityBook) (no : NewOrder) : Prop :=
  ∃ o ∈ q.makers no.side.opposite, no.accepts o.price = true ∧
    q.Splits no.side.opposite no.qty.toNat o.price

/-- The order a command matches, if any, sweeps the prices it reaches whole. -/
def SweepsWhole (q : PriorityBook) : Command → Prop
  | .new no => q.reject? no = none → ¬(no.kind = .fok ∧ q.available no.side no.price < no.qty) →
      ¬q.StopsInside no
  | .cancel _ _ => True
  | .replace id newPrice newQty _ => newQty ≠ 0 → ∀ o, q.live? id = some o →
      (q.drop o).reject? (o.replacement id newPrice newQty) = none →
      ¬(q.drop o).StopsInside (o.replacement id newPrice newQty)

/-- The replacement of an order that was taken out is only checked for its price. -/
theorem reject?_replacement_iff (hq : q.WF) (ho : o ∈ q.makers side) {newPrice : Price}
    {newQty : Qty} (hzero : newQty ≠ 0) :
    (q.drop o).reject? (o.replacement o.id newPrice newQty) = none ↔ 0 < newPrice := by
  have hneeds : (o.replacement o.id newPrice newQty).kind.needsPrice = true := by
    rw [Order.replacement, (hq.maker side o ho).1]
    rfl
  have hfresh : (q.drop o).live? (o.replacement o.id newPrice newQty).id = none :=
    live?_drop_self hq ho
  rw [reject?, hneeds, if_neg (show ¬(o.replacement o.id newPrice newQty).qty = 0 from hzero),
    hfresh, Price.pos_iff]
  by_cases hprice : newPrice ≤ 0
  · simp [Order.replacement, hprice]
  · simp [Order.replacement, hprice]

theorem stopsInside_drop_iff {id : OrderId} {newPrice : Price} {newQty : Qty} :
    (q.drop o).StopsInside (o.replacement id newPrice newQty) ↔
      q.StopsInside (o.replacement id newPrice newQty) := by
  have hmakers : (q.drop o).makers (o.replacement id newPrice newQty).side.opposite =
      q.makers (o.replacement id newPrice newQty).side.opposite :=
    makers_put_of_ne (Side.opposite_ne o.side)
  simp only [StopsInside, Splits, PriorityBook.queue, hmakers]

namespace Counted

theorem execute_iff (hc : q.Counted) (hq : q.WF) (seq : Seq) (ts : Ts) :
    (q.execute no seq ts).1.Counted ↔ ¬q.StopsInside no := by
  have hsweep := hc.tradeAll_iff hq (fun _ _ => accepts_mono no) no.qty
  obtain ⟨hq', -⟩ := hq.tradeAll no.side.opposite no.accepts no.qty
  have hstops : ¬q.StopsInside no ↔ (q.tradeAll no.side.opposite
      (fills no.accepts no.qty (q.makers no.side.opposite))).Counted := by
    rw [hsweep, StopsInside]
    push Not
    rfl
  rw [hstops]
  unfold PriorityBook.execute PriorityBook.settle
  dsimp only
  split
  · rfl
  · split
    · exact counted_rest_iff hq'
    · rfl

theorem enter_iff (hc : q.Counted) (hq : q.WF) (seq : Seq) (ts : Ts) :
    (q.enter no seq ts).1.Counted ↔ q.SweepsWhole (.new no) := by
  unfold PriorityBook.enter
  rw [SweepsWhole]
  cases hreject : q.reject? no with
  | some reason => exact iff_of_true hc fun h => nomatch h
  | none =>
    dsimp only
    split
    · next hkilled => exact iff_of_true hc fun _ h => absurd hkilled h
    · next hlive =>
      rw [hc.execute_iff hq]
      exact ⟨fun h _ _ => h, fun h => h rfl hlive⟩

/-- **The step.** A command keeps exact counts exact exactly when what it matches sweeps
whole queues. -/
theorem apply_iff (hc : q.Counted) (hq : q.WF) (cmd : Sequenced) :
    (q.apply cmd).1.Counted ↔ q.SweepsWhole cmd.cmd := by
  obtain ⟨seq, ts, cmd⟩ := cmd
  cases cmd with
  | new no => exact hc.enter_iff hq seq ts
  | cancel id symbol =>
    refine iff_of_true ?_ trivial
    dsimp only [PriorityBook.apply]
    split
    · exact hc
    · next o hlive =>
      obtain ⟨⟨side, ho⟩, -⟩ := hq.live?_eq_some.1 hlive
      exact hc.drop hq ho
  | replace id newPrice newQty symbol =>
    dsimp only [PriorityBook.apply, SweepsWhole]
    split
    · next hzero => exact iff_of_true hc fun h => absurd hzero h
    · next hzero =>
      split
      · next hlive => exact iff_of_true hc fun _ o ho => nomatch hlive.symm.trans ho
      · next o hlive =>
        obtain ⟨⟨side, ho⟩, -⟩ := hq.live?_eq_some.1 hlive
        obtain ⟨hlimit, -⟩ := hq.maker side o ho
        have hkind : (o.replacement id newPrice newQty).kind = .limit := hlimit
        rw [(hc.drop hq ho).enter_iff (hq.drop ho), SweepsWhole]
        constructor
        · rintro h - o' hlive' hreject
          cases hlive.symm.trans hlive'
          exact h hreject (by simp [hkind])
        · exact fun h hreject _ => h hzero o hlive hreject

end Counted

end PriorityBook

/-! ## The order book -/

variable {A : Type} [Slab A Order] {b b' : OrderBook A} {σ : Queues Nat} {q : PriorityBook}

/-- The count of every level is the number of orders linked from its head to its tail. -/
def OrderBook.CountsLinked (b : OrderBook A) : Prop :=
  ∀ side p l, b.level? side p = some l → ∃ slots,
    Chain (linksOf b.arena) l.head l.tail slots ∧ l.count = slots.length

/-- What is left of the live orders of a side at prices that are better. -/
def OrderBook.ahead (b : OrderBook A) (side : Side) (price : Price) : Nat :=
  (((b.liveOrders side).filter fun o => side.rank o.price < side.rank price).map
    (·.remaining.toNat)).sum

/-- The quantity of an order reaches a price that it accepts, but not the end of what
rests there. -/
def OrderBook.StopsInside (b : OrderBook A) (no : NewOrder) : Prop :=
  ∃ o ∈ b.liveOrders no.side.opposite, no.accepts o.price = true ∧
    b.ahead no.side.opposite o.price < no.qty.toNat ∧
    no.qty.toNat < b.ahead no.side.opposite o.price + b.restingAt no.side.opposite o.price

instance OrderBook.decidableStopsInside (b : OrderBook A) (no : NewOrder) :
    Decidable (b.StopsInside no) :=
  inferInstanceAs (Decidable (∃ o ∈ b.liveOrders no.side.opposite, no.accepts o.price = true ∧
    b.ahead no.side.opposite o.price < no.qty.toNat ∧
    no.qty.toNat < b.ahead no.side.opposite o.price + b.restingAt no.side.opposite o.price))

/-- A command that is not refused and not killed matches no order that would stop inside
the queue of a price. -/
def OrderBook.SweepsWhole (b : OrderBook A) : Command → Prop
  | .new no => validate b no = none →
      ¬(no.kind = .fok ∧ availableQty b no.side no.price < no.qty) → ¬b.StopsInside no
  | .cancel _ _ => True
  | .replace id newPrice newQty _ => newQty ≠ 0 → 0 < newPrice →
      ∀ loc o, b.idIndex[id]? = some loc → b.slot? loc.slot = some o →
        ¬b.StopsInside (o.replacement id newPrice newQty)

instance OrderBook.decidableSweepsWhole (b : OrderBook A) :
    ∀ c : Command, Decidable (b.SweepsWhole c)
  | .new no => inferInstanceAs (Decidable (validate b no = none →
      ¬(no.kind = .fok ∧ availableQty b no.side no.price < no.qty) → ¬b.StopsInside no))
  | .cancel _ _ => isTrue trivial
  | .replace id newPrice newQty _ => decidable_of_iff (newQty ≠ 0 → 0 < newPrice →
      ∀ loc ∈ b.idIndex[id]?, ∀ o ∈ b.slot? loc.slot,
        ¬b.StopsInside (o.replacement id newPrice newQty))
      ⟨fun h hq hp loc o hloc ho => h hq hp loc hloc o ho,
        fun h hq hp loc hloc o ho => h hq hp loc o hloc ho⟩

namespace Refines

theorem countsLinked_iff (hr : Refines b σ none q) : b.CountsLinked ↔ q.Counted := by
  constructor
  · intro h side p
    cases hl : b.level? side p with
    | none =>
      obtain ⟨hnil, hbare⟩ := hr.bare_of_none hl
      rw [hbare, hnil]
      rfl
    | some l =>
      obtain ⟨slots, hchain, hcount⟩ := h side p l hl
      rw [hr.tally side p l hl, ← (hr.filed.queued side p).length_eq,
        (hr.wired.chain side p l hl).unique hchain]
      exact hcount
  · intro h side p l hl
    have hcount := h side p
    rw [hr.tally side p l hl, ← (hr.filed.queued side p).length_eq] at hcount
    exact ⟨σ side p, hr.wired.chain side p l hl, hcount⟩

theorem ahead_eq (hr : Refines b σ none q) (hfree : q.StopFree) (side : Side) (p : Price) :
    b.ahead side p = Greedy.before (fun o : Order => o.remaining.toNat)
      (fun o => side.rank o.price) (side.rank p) (q.makers side) :=
  (((liveOrders_perm hr hfree side).filter _).map _).sum_eq

theorem stopsInside_iff (hr : Refines b σ none q) (hfree : q.StopFree) (no : NewOrder) :
    b.StopsInside no ↔ q.StopsInside no := by
  refine exists_congr fun o => ?_
  rw [(liveOrders_perm hr hfree no.side.opposite).mem_iff, hr.ahead_eq hfree,
    restingAt_eq hr hfree]
  rfl

theorem sweepsWhole_iff (hr : Refines b σ none q) (hfree : q.StopFree) (c : Command) :
    b.SweepsWhole c ↔ q.SweepsWhole c := by
  cases c with
  | new no =>
    rw [OrderBook.SweepsWhole, PriorityBook.SweepsWhole, hr.validate_eq hfree.held,
      hr.availableQty_eq, hr.stopsInside_iff hfree]
  | cancel id symbol => rfl
  | replace id newPrice newQty symbol =>
    have hsame : ∀ o o' : Order, o'.unlinked = o →
        o'.replacement id newPrice newQty = o.replacement id newPrice newQty := by
      rintro _ o' rfl
      rfl
    constructor
    · intro h hzero o hlive hreject
      obtain ⟨⟨side, hmem⟩, rfl⟩ := hr.wf.live?_eq_some.1 hlive
      obtain ⟨s, hidx, ho, -⟩ := hr.locate hlive
      obtain ⟨o', ho', hu⟩ := get?_of_core ho
      have hpos := (reject?_replacement_iff hr.wf hmem hzero).1 hreject
      have hstops := h hzero hpos _ o' hidx ho'
      rwa [hsame o o' hu, hr.stopsInside_iff hfree, ← stopsInside_drop_iff] at hstops
    · intro h hzero hpos loc o' hidx ho'
      cases hlive : q.live? id with
      | none => exact nomatch hidx.symm.trans ((hr.index_none_iff hfree.held).2 hlive)
      | some o =>
        obtain ⟨⟨side, hmem⟩, rfl⟩ := hr.wf.live?_eq_some.1 hlive
        obtain ⟨s, hidx', ho, -⟩ := hr.locate hlive
        obtain ⟨o'', ho'', hu⟩ := get?_of_core ho
        cases hidx.symm.trans hidx'
        cases (show b.slot? s = some o'' from ho'').symm.trans ho'
        have hstops := h hzero o hlive ((reject?_replacement_iff hr.wf hmem hzero).2 hpos)
        rwa [stopsInside_drop_iff, ← hr.stopsInside_iff hfree, ← hsame o o' hu] at hstops

end Refines

/-! ## Runs -/

variable {symbol : SymbolId} {tick : Price} {log : List Entry}

/-- The book is reached by commands none of which submits a stop order, and each of them
sweeps whole queues. -/
def ReachesWhole (symbol : SymbolId) (tick : Price) (log : List Entry) (b : OrderBook A) : Prop :=
  Transition.Run
    (Transition.restrict (fun b e => e.1.cmd.StopFree ∧ b.SweepsWhole e.1.cmd) ApplyStep)
    (OrderBook.new symbol tick) log b

theorem reachesWhole_counted (h : ReachesWhole symbol tick log b) :
    ∃ q, (∃ σ, Refines b σ none q) ∧ q.StopFree ∧ q.Counted := by
  refine Transition.Run.invariant
    (I := fun _ b => ∃ q, (∃ σ, Refines b σ none q) ∧ q.StopFree ∧ q.Counted)
    ⟨_, ⟨_, Refines.new symbol tick⟩, ⟨fun _ => rfl, rfl, rfl⟩, fun _ _ => rfl⟩ ?_ h
  rintro _ b e b' _ ⟨q, ⟨σ, hr⟩, hfree, hc⟩ ⟨⟨hcmd, hwhole⟩, hstep⟩
  obtain ⟨b'', σ', happ, hr', hfree'⟩ := apply_refines hr hfree hcmd
  obtain ⟨rfl, -⟩ := Applies.unique hstep happ
  exact ⟨_, ⟨σ', hr'⟩, hfree', (hc.apply_iff hr.wf e.1).2 ((hr.sweepsWhole_iff hfree _).1 hwhole)⟩

theorem reachesWhole_stopFree (h : ReachesWhole symbol tick log b) :
    ReachesStopFree symbol tick log b :=
  h.mono fun _ _ _ h => ⟨h.1.1, h.2⟩

theorem reachesStopFree_reaches (h : ReachesStopFree symbol tick log b) :
    Reaches symbol tick log b :=
  h.mono fun _ _ _ h => h.2

/-- A run whose counts are exact after every command has swept whole queues. -/
theorem reachesWhole_of_counted (h : ReachesStopFree symbol tick log b)
    (hcounts : ∀ log' (b' : OrderBook A), log' <+: log → Reaches symbol tick log' b' →
      b'.CountsLinked) :
    ReachesWhole symbol tick log b := by
  unfold ReachesStopFree at h
  induction h with
  | nil => exact .nil
  | @snoc ls b b' e hrun hstep ih =>
    have hwhole := ih fun log' b' hlog => hcounts log' b' (hlog.trans (List.prefix_append _ _))
    obtain ⟨q, -, ⟨σ, hr⟩, hfree⟩ := reaches_refines hrun
    have hc := hr.countsLinked_iff.1
      (hcounts _ _ (List.prefix_append _ _) (reachesStopFree_reaches hrun))
    obtain ⟨b'', σ', happ, hr', -⟩ := apply_refines hr hfree hstep.1
    obtain ⟨rfl, -⟩ := Applies.unique hstep.2 happ
    have hc' := hr'.countsLinked_iff.1
      (hcounts _ _ (List.prefix_refl _) (reachesStopFree_reaches (hrun.snoc hstep)))
    exact hwhole.snoc
      ⟨⟨hstep.1, (hr.sweepsWhole_iff hfree _).2 ((hc.apply_iff hr.wf e.1).1 hc')⟩, hstep.2⟩

/-- **Level counts.** The counts are exact after every command of a run exactly when each
command sweeps whole queues. -/
theorem reachesStopFree_countsLinked_iff (h : ReachesStopFree symbol tick log b) :
    (∀ log' (b' : OrderBook A), log' <+: log → Reaches symbol tick log' b' →
      b'.CountsLinked) ↔
      ReachesWhole symbol tick log b := by
  refine ⟨reachesWhole_of_counted h, ?_⟩
  rintro hwhole log' b' ⟨rest, rfl⟩ hreach
  obtain ⟨b₁, hrun, -⟩ := Transition.Run.split hwhole
  obtain ⟨-, rfl⟩ := applyStep_unique hreach
    (reachesStopFree_reaches (reachesWhole_stopFree hrun)) rfl
  obtain ⟨q, ⟨σ, hr⟩, -, hc⟩ := reachesWhole_counted hrun
  exact hr.countsLinked_iff.2 hc

/-- Two offers at one price, one behind them, and a taker for exactly the first price. -/
def sweptOffers : List Sequenced :=
  [⟨1, 0, .new ⟨1, 0, .sell, .limit, .gtc, 100, 0, 3⟩⟩,
    ⟨2, 0, .new ⟨2, 0, .sell, .limit, .gtc, 100, 0, 2⟩⟩,
    ⟨3, 0, .new ⟨3, 0, .sell, .limit, .gtc, 101, 0, 4⟩⟩,
    ⟨4, 0, .new ⟨4, 0, .buy, .market, .gtc, 0, 0, 5⟩⟩]

theorem reachesStopFree_countsLinked_iff_sample :
    ∃ (b : OrderBook (VecSlab Order)) (log : List Entry),
      ReachesStopFree 0 1 log b ∧ b.restingAt .sell 101 = 4 ∧ ReachesWhole 0 1 log b ∧
        b.CountsLinked := by
  have hok : ∃ r,
      applyAll 9 (OrderBook.new 0 1 : OrderBook (VecSlab Order)) sweptOffers = .ok r ∧
      stepsHold 9 (fun b cmd _ => cmd.cmd.StopFree && b.SweepsWhole cmd.cmd)
        (OrderBook.new 0 1 : OrderBook (VecSlab Order)) sweptOffers = true ∧
      r.1.restingAt .sell 101 = 4 := by
    refine ⟨_, rfl, ?_⟩
    decide +kernel
  obtain ⟨⟨b, log⟩, hrun, htest, hresting⟩ := hok
  have hwhole : ReachesWhole 0 1 log b := by
    refine (run_of_stepsHold hrun htest).mono fun b e b' h => ?_
    obtain ⟨hcmd, hfits⟩ := Bool.and_eq_true_iff.1 h.1
    exact ⟨⟨of_decide_eq_true hcmd, of_decide_eq_true hfits⟩, h.2⟩
  have hfree := reachesWhole_stopFree hwhole
  exact ⟨b, log, hfree, hresting, hwhole, (reachesStopFree_countsLinked_iff hfree).2 hwhole log b
    (List.prefix_refl _) (reachesStopFree_reaches hfree)⟩

/-- An offer of five and a taker of two of them. -/
def splitOffer : List Sequenced :=
  [⟨1, 0, .new ⟨1, 0, .sell, .limit, .gtc, 100, 0, 5⟩⟩,
    ⟨2, 0, .new ⟨2, 0, .buy, .market, .gtc, 0, 0, 2⟩⟩]

/-- The maker that is put back is counted twice. -/
theorem splitOffer_counted_twice : ∃ (b : OrderBook (VecSlab Order)) (log : List Entry),
    ReachesStopFree 0 1 log b ∧ b.level? .sell 100 = some ⟨some 0, some 0, 3, 2⟩ ∧
      Chain (linksOf b.arena) (some 0) (some 0) [0] ∧ ¬b.CountsLinked := by
  have hok : ∃ r, applyAll 9 (OrderBook.new 0 1 : OrderBook (VecSlab Order)) splitOffer = .ok r ∧
      r.1.level? .sell 100 = some ⟨some 0, some 0, 3, 2⟩ ∧
      linksOf r.1.arena 0 = some (none, none) := by
    refine ⟨_, rfl, ?_⟩
    decide +kernel
  obtain ⟨⟨b, log⟩, hrun, hlevel, hlinks⟩ := hok
  have hchain : Chain (linksOf b.arena) (some 0) (some 0) [0] :=
    ⟨⟨rfl, none, hlinks, rfl, rfl⟩, List.nodup_singleton 0⟩
  refine ⟨b, log, reachesStopFree_applyAll hrun (by decide), hlevel, hchain, fun h => ?_⟩
  obtain ⟨slots, hslots, hcount⟩ := h .sell 100 _ hlevel
  rw [hslots.unique hchain] at hcount
  cases hcount

end Exchange
