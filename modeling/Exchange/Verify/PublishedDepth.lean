import Mathlib.Data.List.Sort
import Exchange.Verify.ExactTotals

/-!
# Published depth

While what rests adds up to no more than a machine word, the totals are exact, and the
depth of the book is its live orders added up by price.
-/

namespace Exchange

open PriorityBook

variable {A : Type} [Slab A Order] {b b' : OrderBook A} {σ : Queues Nat} {q : PriorityBook}
  {symbol : SymbolId} {tick : Price} {log : List Entry}

/-! ## What is published -/

/-- What is left of all live orders together. -/
def OrderBook.liveQty (b : OrderBook A) : Nat :=
  ((b.liveOrders .buy ++ b.liveOrders .sell).map (·.remaining.toNat)).sum

/-- The live orders of a side added up by price, best price first. -/
def OrderBook.aggregate (b : OrderBook A) (side : Side) : List (Price × Nat) :=
  (((b.liveOrders side).map (·.price)).dedup.insertionSort
    fun p p' => side.rank p ≤ side.rank p').map
      fun p => (p, (((b.liveOrders side).filter fun o => o.price = p).map (·.remaining.toNat)).sum)

def quantities (l : List (Price × Qty)) : List (Price × Nat) := l.map fun e => (e.1, e.2.toNat)

/-- What the book publishes is what its live orders add up to. -/
structure Published (b : OrderBook A) : Prop where
  totals : b.TotalsLinked
  bids : ∀ n, quantities (b.depth n).bids = (b.aggregate .buy).take n
  asks : ∀ n, quantities (b.depth n).asks = (b.aggregate .sell).take n
  bestFirst : ∀ side, (b.aggregate side).Pairwise fun e e' => side.rank e.1 < side.rank e'.1
  best : ∀ n, n ≠ 0 → b.bestBid = (b.depth n).bids.head? ∧ b.bestAsk = (b.depth n).asks.head?
  conserved : b.checkQtyConservation = .ok true

/-- The book is reached by commands none of which submits a stop order, and after each
of them what rests adds up to no more than a machine word. -/
def ReachesWithin (symbol : SymbolId) (tick : Price) (log : List Entry) (b : OrderBook A) : Prop :=
  Transition.Run (fun b e b' => (e.1.cmd.StopFree ∧ ApplyStep b e b') ∧ b'.liveQty < 2 ^ 64)
    (OrderBook.new symbol tick) log b

/-- A run whose steps are tested. -/
theorem reachesWithin_of_stepsHold {fuel : Nat} {cmds : List Sequenced}
    (h : applyAll fuel (OrderBook.new symbol tick) cmds = .ok (b, log))
    (htest : stepsHold fuel (fun _ cmd b' => cmd.cmd.StopFree && b'.liveQty < 2 ^ 64)
      (OrderBook.new symbol tick : OrderBook A) cmds = true) : ReachesWithin symbol tick log b := by
  refine (run_of_stepsHold h htest).mono fun b e b' hstep => ?_
  obtain ⟨hcmd, hlt⟩ := Bool.and_eq_true_iff.1 hstep.1
  exact ⟨⟨of_decide_eq_true hcmd, hstep.2⟩, of_decide_eq_true hlt⟩

/-! ## Aggregated depth -/

theorem liveQty_eq (hr : Refines b σ none q) (hfree : q.StopFree) : b.liveQty = q.total := by
  have hperm := (liveOrders_perm hr hfree .buy).append (liveOrders_perm hr hfree .sell)
  rw [OrderBook.liveQty, (hperm.map _).sum_eq, List.map_append, List.sum_append]
  rfl

/-- The ladder of exact totals is the aggregate. -/
theorem aggregate_eq (hr : Refines b σ none q) (hfree : q.StopFree) (hx : q.Exact) (side : Side) :
    b.aggregate side = quantities (q.ladder side) := by
  have hperm := liveOrders_perm hr hfree side
  have htotal : Std.Total fun p p' : Price => side.rank p ≤ side.rank p' :=
    ⟨fun p p' => le_total (side.rank p) (side.rank p')⟩
  have htrans : IsTrans Price fun p p' => side.rank p ≤ side.rank p' :=
    ⟨fun _ _ _ h h' => le_trans h h'⟩
  have hprices : (((b.liveOrders side).map (·.price)).dedup.insertionSort
      fun p p' => side.rank p ≤ side.rank p') = ((q.makers side).map (·.price)).dedup :=
    List.Perm.eq_of_pairwise (fun _ _ _ _ h h' => Side.rank_inj (le_antisymm h h'))
      (List.pairwise_insertionSort _ _) ((hr.wf.prices_sorted side).imp le_of_lt)
      ((List.perm_insertionSort _ _).trans (hperm.map _).dedup)
  rw [OrderBook.aggregate, hprices, quantities, ladder, List.map_map]
  refine List.map_congr_left fun p _ => ?_
  have hsum := ((hperm.filter fun o => o.price = p).map (·.remaining.toNat)).sum_eq
  exact Prod.ext rfl (hsum.trans (hx side p).symm)

theorem quantities_take (l : List (Price × Qty)) (n : Nat) :
    quantities (l.take n) = (quantities l).take n :=
  List.map_take

/-- The best entries of the ladder are those of the aggregate. -/
theorem depth_eq (hr : Refines b σ none q) (hfree : q.StopFree) (hx : q.Exact) (side : Side)
    (n : Nat) : quantities (((b.levels side).toList.take n).map fun e => (e.1, e.2.totalQty)) =
      (b.aggregate side).take n := by
  rw [aggregate_eq hr hfree hx, ← quantities_take, ← hr.levels_eq, List.map_take]

/-! ## Conservation -/

/-- Sums of machine words wrap. -/
theorem toNat_foldl_add {α : Type} (f : α → Qty) (l : List α) (total : Qty) :
    (l.foldl (fun total a => total + f a) total).toNat =
      (total.toNat + (l.map fun a => (f a).toNat).sum) % 2 ^ 64 := by
  induction l generalizing total with
  | nil =>
    rw [List.map_nil, List.sum_nil, Nat.add_zero, Nat.mod_eq_of_lt total.toNat_lt]
    rfl
  | cons a l ih =>
    rw [List.foldl_cons, ih, UInt64.toNat_add, List.map_cons, List.sum_cons]
    omega

/-- The index names occupied slots, so the sum over it answers. -/
theorem foldlM_remaining {l : List (OrderId × Location)}
    (h : ∀ e ∈ l, ∃ o, b.slot? e.2.slot = some o) (total : Qty) :
    ∃ sum, l.foldlM (fun total e => do return total + (← b.order e.2.slot).remaining) total =
        .ok sum ∧
      sum.toNat = (total.toNat + (l.map fun e => b.remainingAt e.2.slot).sum) % 2 ^ 64 := by
  induction l generalizing total with
  | nil => exact ⟨total, rfl, by simp [Nat.mod_eq_of_lt total.toNat_lt]⟩
  | cons e l ih =>
    obtain ⟨o, ho⟩ := h e List.mem_cons_self
    obtain ⟨sum, hsum, hmod⟩ := ih (fun e he => h e (List.mem_cons_of_mem _ he))
      (total + o.remaining)
    refine ⟨sum, ?_, ?_⟩
    · rw [List.foldlM_cons, order_eq ho]
      exact hsum
    · rw [hmod, UInt64.toNat_add, List.map_cons, List.sum_cons, OrderBook.remainingAt, ho]
      dsimp only
      omega

/-- Summing over the index is summing over the live orders. -/
theorem sum_index (hr : Refines b σ none q) :
    (b.idIndex.toList.map fun e => b.remainingAt e.2.slot).sum = b.liveQty := by
  have hsides : ∀ l : List Order,
      ((l.filter fun o => o.side = .buy) ++ l.filter fun o => o.side = .sell).Perm l := by
    intro l
    have hnot : (fun o : Order => decide (o.side = .sell)) = fun o => !decide (o.side = .buy) := by
      funext o
      cases o.side <;> rfl
    rw [hnot]
    exact List.filter_append_perm _ l
  rw [OrderBook.liveQty]
  unfold OrderBook.liveOrders
  rw [((hsides _).map _).sum_eq]
  have hlive : ∀ e ∈ b.idIndex.toList, ∃ o, b.slot? e.2.slot = some o := by
    intro e he
    obtain ⟨o, ho, -⟩ := hr.filed.of_index (OrderedMap.mem_toList_iff.1 he)
    obtain ⟨o', ho', -⟩ := get?_of_core ho
    exact ⟨o', ho'⟩
  generalize b.idIndex.toList = l at hlive
  induction l with
  | nil => rfl
  | cons e l ih =>
    obtain ⟨o, ho⟩ := hlive e List.mem_cons_self
    rw [List.map_cons, List.sum_cons, ih fun e he => hlive e (List.mem_cons_of_mem _ he),
      List.filterMap_cons_some (b := o.unlinked) (by rw [ho]; rfl), List.map_cons, List.sum_cons,
      OrderBook.remainingAt, ho]
    rfl

theorem sum_levels (hr : Refines b σ none q) (hx : q.Exact) (side : Side) :
    ((b.levels side).toList.map fun e => e.2.totalQty.toNat).sum = supply (q.makers side) := by
  have hladder : ((b.levels side).toList.map fun e => e.2.totalQty.toNat) =
      ((q.makers side).map (·.price)).dedup.map fun p => supply (q.queue side p) := by
    have h := congrArg (List.map fun e : Price × Qty => e.2.toNat) (hr.levels_eq side)
    rw [ladder, List.map_map, List.map_map] at h
    exact h.trans (List.map_congr_left fun p _ => hx side p)
  rw [hladder]
  refine (Priority.sum_groups (fun o : Order => o.price) (fun o => o.remaining.toNat) _
    (List.nodup_dedup _)).trans ?_
  have hall : ∀ o ∈ q.makers side,
      decide (o.price ∈ ((q.makers side).map (·.price)).dedup) = true :=
    fun o ho => decide_eq_true (List.mem_dedup.2 (List.mem_map_of_mem ho))
  rw [List.filter_eq_self.2 hall]
  rfl

theorem checkQtyConservation_eq (hr : Refines b σ none q) (hfree : q.StopFree) (hx : q.Exact) :
    b.checkQtyConservation = .ok true := by
  obtain ⟨sum, hsum, hmod⟩ := foldlM_remaining (b := b) (l := b.idIndex.toList) (fun e he => by
    obtain ⟨o, ho, -⟩ := hr.filed.of_index (OrderedMap.mem_toList_iff.1 he)
    obtain ⟨o', ho', -⟩ := get?_of_core ho
    exact ⟨o', ho'⟩) 0
  unfold OrderBook.checkQtyConservation
  rw [hsum, Fuel.ok_bind]
  refine congrArg Except.ok (beq_iff_eq.2 (UInt64.toNat_inj.1 ?_))
  have hbids : (b.bids.toList.map fun e => e.2.totalQty.toNat).sum = _ := sum_levels hr hx .buy
  have hasks : (b.asks.toList.map fun e => e.2.totalQty.toNat).sum = _ := sum_levels hr hx .sell
  rw [hmod, sum_index hr, liveQty_eq hr hfree, UInt64.toNat_add, toNat_foldl_add, toNat_foldl_add,
    UInt64.toNat_zero, hbids, hasks, total]
  omega

/-! ## Runs -/

theorem published_of_exact (hr : Refines b σ none q) (hfree : q.StopFree) (hx : q.Exact) :
    Published b := by
  refine ⟨hr.totalsLinked_iff.2 hx, depth_eq hr hfree hx .buy, depth_eq hr hfree hx .sell,
    fun side => ?_, fun n hn => ?_, checkQtyConservation_eq hr hfree hx⟩
  · rw [aggregate_eq hr hfree hx, quantities, ladder, List.pairwise_map, List.pairwise_map]
    exact hr.wf.prices_sorted side
  · obtain ⟨n, rfl⟩ := Nat.exists_eq_succ_of_ne_zero hn
    simp [OrderBook.bestBid, OrderBook.bestAsk, OrderBook.best?, OrderedMap.first?,
      OrderBook.depth, OrderBook.levels, List.head?_take]

theorem reachesWithin_exact (h : ReachesWithin symbol tick log b) :
    ∃ q, (∃ σ, Refines b σ none q) ∧ q.StopFree ∧ q.Exact := by
  refine Transition.Run.invariant
    (I := fun _ b => ∃ q, (∃ σ, Refines b σ none q) ∧ q.StopFree ∧ q.Exact)
    ⟨_, ⟨_, Refines.new symbol tick⟩, ⟨fun _ => rfl, rfl, rfl⟩, .new symbol tick⟩ ?_ h
  rintro _ b e b' _ ⟨q, ⟨σ, hr⟩, hfree, hx⟩ ⟨⟨hcmd, hstep⟩, hlt⟩
  obtain ⟨b'', σ', happ, hr', hfree'⟩ := apply_refines hr hfree hcmd
  obtain ⟨rfl, -⟩ := Applies.unique hstep happ
  rw [liveQty_eq hr' hfree'] at hlt
  exact ⟨_, ⟨σ', hr'⟩, hfree', hx.apply hr.wf (hasRoomFor_of_total hr.wf hx hlt)⟩

/-- **Published depth.** While the live quantities fit a machine word, every level
total is what its linked orders add up to, and the depth is the live orders added up
by price. -/
theorem reachesWithin_published (h : ReachesWithin symbol tick log b) : Published b := by
  obtain ⟨q, ⟨σ, hr⟩, hfree, hx⟩ := reachesWithin_exact h
  exact published_of_exact hr hfree hx

/-- Two bids, and a market sell into the better one. -/
def bidsAndSell : List Sequenced :=
  [⟨1, 0, .new ⟨1, 0, .buy, .limit, .gtc, 100, 0, 5⟩⟩,
   ⟨2, 0, .new ⟨2, 0, .buy, .limit, .gtc, 99, 0, 5⟩⟩,
   ⟨3, 0, .new ⟨3, 0, .sell, .market, .gtc, 0, 0, 2⟩⟩]

theorem reachesWithin_published_sample : ∃ (b : OrderBook (VecSlab Order)) (log : List Entry),
    ReachesWithin 0 1 log b ∧ b.aggregate .buy = [(100, 3), (99, 5)] ∧ Published b := by
  have hok : ∃ r,
      applyAll 9 (OrderBook.new 0 1 : OrderBook (VecSlab Order)) bidsAndSell = .ok r ∧
      stepsHold 9 (fun _ cmd b' => cmd.cmd.StopFree && b'.liveQty < 2 ^ 64)
        (OrderBook.new 0 1 : OrderBook (VecSlab Order)) bidsAndSell = true ∧
      r.1.aggregate .buy = [(100, 3), (99, 5)] := by
    refine ⟨_, rfl, ?_⟩
    decide +kernel
  obtain ⟨⟨b, log⟩, hrun, htest, haggregate⟩ := hok
  have hreach : ReachesWithin 0 1 log b := reachesWithin_of_stepsHold hrun htest
  exact ⟨b, log, hreach, haggregate, reachesWithin_published hreach⟩

end Exchange
