import Exchange.Verify.GreedyMatching

/-!
# Limit protection

A limit order stops at its limit and a fill-or-kill order is only executed when
it fills before its limit. The match loop lets an immediate-or-cancel order
sweep past its limit, so it is protected only as far as the quantity inside the
limit goes.
-/

namespace Exchange

open PriorityBook

/-- The price is no worse than the limit of the order. -/
def NewOrder.Respects (no : NewOrder) (price : Price) : Prop :=
  match no.side with
  | .buy => price ≤ no.price
  | .sell => price ≥ no.price

theorem NewOrder.respects_iff {no : NewOrder} {price : Price} :
    no.Respects price ↔ no.side.withinLimit no.price price = true := by
  unfold Respects
  cases no.side
  · exact decide_eq_true_iff.symm
  · exact decide_eq_true_iff.symm

/-- A trade of an execution is a fill of the taker. -/
theorem PriorityBook.mem_execute_trade {q : PriorityBook} {no : NewOrder} {seq seq' : Seq}
    {ts ts' : Ts} {taker maker : OrderId} {price : Price} {qty : Qty} {side : Side} :
    .trade seq' taker maker price qty side ts' ∈ (q.execute no seq ts).2 ↔
      (seq' = seq ∧ taker = no.id ∧ side = no.side ∧ ts' = ts) ∧
        ∃ m, (m, qty) ∈ fills no.accepts no.qty (q.makers no.side.opposite) ∧ m.id = maker ∧
          m.price = price := by
  have hsettle : ∀ (q : PriorityBook) filled,
      .trade seq' taker maker price qty side ts' ∉ (q.settle no filled seq ts).2 := by
    intro q filled hmem
    unfold PriorityBook.settle at hmem
    dsimp only at hmem
    split at hmem
    · simp at hmem
    · split at hmem
      · split at hmem <;> simp at hmem
      · split at hmem <;> simp at hmem
  unfold PriorityBook.execute
  rw [List.mem_append, or_iff_left (hsettle _ _), List.mem_flatMap]
  constructor
  · intro ⟨⟨m, n⟩, hf, hmem⟩
    unfold fillEvents at hmem
    rcases List.mem_cons.1 hmem with he | hmem
    · cases he
      exact ⟨⟨rfl, rfl, rfl, rfl⟩, m, hf, rfl, rfl⟩
    · split at hmem <;> simp at hmem
  · intro ⟨⟨hseq, htaker, hside, hts⟩, m, hf, hid, hprice⟩
    subst hseq htaker hside hts hid hprice
    exact ⟨(m, qty), hf, List.mem_cons_self⟩

/-- The makers used are makers. -/
theorem PriorityBook.fills_mem {ok : Price → Bool} {need : Qty} {ms : List Order}
    {f : Order × Qty} (h : f ∈ fills ok need ms) : f.1 ∈ ms := by
  induction ms generalizing need with
  | nil => cases h
  | cons m ms ih =>
    unfold fills at h
    split at h
    · cases h
    · rcases List.mem_cons.1 h with rfl | h
      · exact List.mem_cons_self
      · exact List.mem_cons_of_mem m (ih h)

variable {A : Type} [Slab A Order] {b b' : OrderBook A} {symbol : SymbolId} {tick : Price}
  {log : List Entry} {cmd : Sequenced} {events : List OutputEvent}

/-- The quantity resting opposite to the order at prices inside its limit. -/
def OrderBook.insideLimit (b : OrderBook A) (no : NewOrder) : Nat :=
  (((b.liveOrders no.side.opposite).filter fun o => no.side.withinLimit no.price o.price).map
    (·.remaining.toNat)).sum

/-- Nothing rests beyond the limit, or the order is filled inside it. -/
def OrderBook.Covers (b : OrderBook A) (no : NewOrder) : Prop :=
  (∀ o ∈ b.liveOrders no.side.opposite, no.side.withinLimit no.price o.price = true) ∨
    no.qty.toNat ≤ b.insideLimit no

namespace PriorityBook

variable {q : PriorityBook} {no : NewOrder}

/-- When the fills of an order are inside its limit. -/
theorem fills_respect (hq : q.WF) (hkind : no.kind = .limit ∨ no.kind = .ioc ∨ no.kind = .fok)
    (hlive : q.live? no.id = none)
    (hfill : no.kind = .fok → ¬q.available no.side no.price < no.qty) :
    (∀ f ∈ fills no.accepts no.qty (q.makers no.side.opposite), no.Respects f.1.price) ↔
      (no.kind = .ioc →
        (∀ o ∈ q.makers no.side.opposite, no.side.withinLimit no.price o.price = true) ∨
        no.qty.toNat ≤ supply ((q.makers no.side.opposite).filter
          fun o => no.side.withinLimit no.price o.price)) := by
  have hpos : ∀ m ∈ q.makers no.side.opposite, 0 < m.remaining.toNat := fun m hm =>
    Nat.pos_of_ne_zero (toNat_ne_zero.2 (hq.maker _ m hm).2.2)
  have hnat : (∀ f ∈ fills no.accepts no.qty (q.makers no.side.opposite),
      no.Respects f.1.price) ↔
      ∀ f ∈ Greedy.fills (fun o : Order => o.remaining.toNat) (fun o => no.accepts o.price)
        no.qty.toNat (q.makers no.side.opposite),
        no.side.withinLimit no.price f.1.price = true := by
    rw [← fills_toNat, List.forall_mem_map]
    exact forall₂_congr fun f _ => NewOrder.respects_iff
  rw [hnat]
  rcases hkind with hkind | hkind | hkind
  · refine iff_of_true (fun f hf => ?_) (by simp [hkind])
    have hok := (Greedy.fills_bounds hpos f hf).2.1
    simpa [NewOrder.accepts, hkind, OrderType.sweepsAll] using hok
  · have hall : ∀ m ∈ q.makers no.side.opposite, no.accepts m.price = true := fun m _ => by
      simp [NewOrder.accepts, hkind, OrderType.sweepsAll]
    have htake := hq.takeWhile_withinLimit no.side no.price
    have h : _ ↔ (∀ m ∈ q.makers no.side.opposite, no.side.withinLimit no.price m.price = true) ∨
        no.qty.toNat ≤ Greedy.supply (fun o : Order => o.remaining.toNat)
          ((q.makers no.side.opposite).takeWhile fun o => no.side.withinLimit no.price o.price) :=
      Greedy.forall_fills_iff hall
    rw [htake] at h
    rw [h]
    exact ⟨fun h _ => h, fun h => h hkind⟩
  · refine iff_of_true (fun f hf => ?_) (by simp [hkind])
    have hm : Matchable q no := ⟨.inr (.inr hkind), hlive, hfill⟩
    rw [Greedy.fills_eq_of_enough (fun m _ _ => by
      simp [NewOrder.accepts, hkind, OrderType.sweepsAll]) (fok_enough hq hm hkind)] at hf
    have hok := (Greedy.fills_bounds hpos f hf).2.1
    simpa [NewOrder.wants, hkind] using hok

/-- Makers of the trades of a new order. -/
theorem enter_trade_maker {seq seq' : Seq} {ts ts' : Ts} {taker maker : OrderId} {price : Price}
    {qty : Qty} {side : Side}
    (h : .trade seq' taker maker price qty side ts' ∈ (q.enter no seq ts).2) :
    side = no.side ∧ ∃ m ∈ q.makers side.opposite, m.id = maker ∧ m.price = price := by
  unfold PriorityBook.enter at h
  split at h
  · simp at h
  · split at h
    · simp at h
    · obtain ⟨⟨-, -, rfl, -⟩, m, hf, hid, hprice⟩ :=
        mem_execute_trade.1 ((List.mem_cons.1 h).resolve_left nofun)
      exact ⟨rfl, m, fills_mem hf, hid, hprice⟩

/-- A trade is at the price of its maker. -/
theorem apply_trade_maker {cmd : Sequenced} {seq : Seq} {ts : Ts}
    {taker maker : OrderId} {price : Price} {qty : Qty} {side : Side}
    (h : .trade seq taker maker price qty side ts ∈ (q.apply cmd).2) :
    ∃ m ∈ q.makers side.opposite, m.id = maker ∧ m.price = price := by
  rcases q.apply_cases cmd with ⟨no, -, he⟩ | ⟨id, reason, -, he⟩ | ⟨id, symbol, o, -, -, he⟩ |
    ⟨id, newPrice, newQty, symbol, o, -, -, -, he⟩
  · rw [he] at h
    exact (enter_trade_maker h).2
  · rw [he] at h
    simp at h
  · rw [he] at h
    simp at h
  · rw [he] at h
    obtain ⟨-, m, hm, hid, hprice⟩ :=
      enter_trade_maker ((List.mem_cons.1 h).resolve_left nofun)
    refine ⟨m, ?_, hid, hprice⟩
    by_cases hside : side.opposite = o.side
    · rw [PriorityBook.drop, hside, makers_put_self] at hm
      rw [hside]
      exact (List.mem_filter.1 hm).1
    · rwa [PriorityBook.drop, makers_put_of_ne hside] at hm

end PriorityBook

/-- **Limit protection.** Every trade is at the limit price of its maker. An accepted
limit or fill-or-kill order never trades beyond its limit, and an accepted
immediate-or-cancel order exactly when nothing rests there or it is filled before. -/
theorem stopFree_limitProtected (h : ReachesStopFree symbol tick log b) (hcmd : cmd.cmd.StopFree)
    (happ : Applies b cmd b' events) :
    (∀ seq taker maker price qty side ts, .trade seq taker maker price qty side ts ∈ events →
      ∃ o ∈ b.liveOrders side.opposite, o.id = maker ∧ o.price = price) ∧
    ∀ no, cmd.cmd = .new no → no.kind = .limit ∨ no.kind = .ioc ∨ no.kind = .fok →
      .accepted no.id cmd.seq ∈ events →
      ((∀ seq maker price qty side ts, .trade seq no.id maker price qty side ts ∈ events →
        no.Respects price) ↔ (no.kind = .ioc → b.Covers no)) := by
  obtain ⟨q, -, ⟨σ, hr⟩, hfree⟩ := reaches_refines h
  obtain ⟨b'', -, happ', -⟩ := apply_refines hr hfree hcmd
  obtain ⟨-, rfl⟩ := Applies.unique happ happ'
  refine ⟨fun seq taker maker price qty side ts ht => ?_, fun no hno hkind hacc => ?_⟩
  · obtain ⟨m, hm, hid, hprice⟩ := apply_trade_maker ht
    exact ⟨m, (liveOrders_perm hr hfree _).mem_iff.2 hm, hid, hprice⟩
  · have happly : q.apply cmd = q.enter no cmd.seq cmd.ts := by
      unfold PriorityBook.apply
      rw [hno]
    rw [happly] at hacc ⊢
    have hperm := liveOrders_perm hr hfree no.side.opposite
    have hcovers : b.Covers no ↔
        (∀ o ∈ q.makers no.side.opposite, no.side.withinLimit no.price o.price = true) ∨
        no.qty.toNat ≤ supply ((q.makers no.side.opposite).filter
          fun o => no.side.withinLimit no.price o.price) := by
      have hsum : b.insideLimit no = supply ((q.makers no.side.opposite).filter
          fun o => no.side.withinLimit no.price o.price) := ((hperm.filter _).map _).sum_eq
      unfold OrderBook.Covers
      rw [hsum]
      exact or_congr_left (forall_congr' fun o => imp_congr_left hperm.mem_iff)
    rw [hcovers]
    unfold PriorityBook.enter at hacc ⊢
    cases hreject : q.reject? no with
    | some reason =>
      rw [hreject] at hacc
      simp at hacc
    | none =>
      dsimp only
      by_cases hfok : no.kind = .fok ∧ q.available no.side no.price < no.qty
      · rw [if_pos hfok]
        refine iff_of_true ?_ fun h => nomatch hfok.1.symm.trans h
        simp
      · rw [if_neg hfok, ← fills_respect hr.wf hkind (live?_of_reject?_none hreject)
          fun hk hlt => hfok ⟨hk, hlt⟩]
        constructor
        · intro h ⟨m, qty⟩ hf
          exact h cmd.seq m.id m.price qty no.side cmd.ts (List.mem_cons_of_mem _
            (mem_execute_trade.2 ⟨⟨rfl, rfl, rfl, rfl⟩, m, hf, rfl, rfl⟩))
        · intro h seq maker price qty side ts ht
          obtain ⟨-, m, hf, -, hprice⟩ :=
            mem_execute_trade.1 ((List.mem_cons.1 ht).resolve_left nofun)
          exact hprice ▸ h (m, qty) hf

/-- Asks at 100 and 105. -/
def twoAsks : List Sequenced :=
  [⟨1, 0, .new ⟨1, 0, .sell, .limit, .gtc, 100, 0, 5⟩⟩,
   ⟨2, 0, .new ⟨2, 0, .sell, .limit, .gtc, 105, 0, 5⟩⟩]

theorem stopFree_limitProtected_sample : ∃ (b : OrderBook (VecSlab Order)) (log : List Entry),
    ReachesStopFree 0 1 log b ∧ ∃ b' events,
      Applies b ⟨3, 0, .new ⟨3, 0, .buy, .limit, .gtc, 102, 0, 7⟩⟩ b' events ∧
      .trade 3 3 1 100 5 .buy 0 ∈ events ∧
      ∀ seq maker price qty side ts, .trade seq 3 maker price qty side ts ∈ events →
        NewOrder.Respects ⟨3, 0, .buy, .limit, .gtc, 102, 0, 7⟩ price := by
  have hok : ∃ r r', applyAll 9 (OrderBook.new 0 1 : OrderBook (VecSlab Order)) twoAsks = .ok r ∧
      applyWithin 9 r.1 ⟨3, 0, .new ⟨3, 0, .buy, .limit, .gtc, 102, 0, 7⟩⟩ = .ok r' ∧
      .accepted 3 3 ∈ r'.2 ∧ .trade 3 3 1 100 5 .buy 0 ∈ r'.2 := by
    refine ⟨_, _, rfl, rfl, ?_⟩
    decide +kernel
  obtain ⟨⟨b, log⟩, ⟨b', events⟩, hrun, happ, hacc, htrade⟩ := hok
  have hreach := reachesStopFree_applyAll hrun (by decide)
  have hprotected := (stopFree_limitProtected hreach (by decide) ⟨9, happ⟩).2 _ rfl (.inl rfl) hacc
  exact ⟨b, log, hreach, b', events, ⟨9, happ⟩, htrade, hprotected.2 fun h => nomatch h⟩

/-- An immediate-or-cancel buy limited to 102 buys at 105. -/
theorem ioc_beyond_limit : ∃ (b : OrderBook (VecSlab Order)) (log : List Entry),
    ReachesStopFree 0 1 log b ∧ log.map Prod.fst = twoAsks ∧ ∃ b' events,
      Applies b ⟨3, 0, .new ⟨3, 0, .buy, .ioc, .gtc, 102, 0, 7⟩⟩ b' events ∧
      .accepted 3 3 ∈ events ∧ .trade 3 3 2 105 2 .buy 0 ∈ events ∧
      ¬NewOrder.Respects ⟨3, 0, .buy, .ioc, .gtc, 102, 0, 7⟩ 105 := by
  have hok : ∃ r r', applyAll 9 (OrderBook.new 0 1 : OrderBook (VecSlab Order)) twoAsks = .ok r ∧
      applyWithin 9 r.1 ⟨3, 0, .new ⟨3, 0, .buy, .ioc, .gtc, 102, 0, 7⟩⟩ = .ok r' ∧
      r.2.map Prod.fst = twoAsks ∧ .accepted 3 3 ∈ r'.2 ∧ .trade 3 3 2 105 2 .buy 0 ∈ r'.2 := by
    refine ⟨_, _, rfl, rfl, ?_⟩
    decide +kernel
  obtain ⟨⟨b, log⟩, ⟨b', events⟩, hrun, happ, hlog, hacc, htrade⟩ := hok
  refine ⟨b, log, reachesStopFree_applyAll hrun (by decide), hlog, b', events, ⟨9, happ⟩, hacc,
    htrade, ?_⟩
  change ¬(105 : Price) ≤ 102
  decide

end Exchange
