import Mathlib.Algebra.Order.BigOperators.Group.List
import Mathlib.Algebra.Order.Group.Nat
import Mathlib.Data.List.TakeWhile
import Exchange.Verify.TimePriority
import Exchange.Verify.Representation

/-!
# Matching is greedy

The reference takes the live orders of the opposite side, sorts them by price and
by the command that entered them, and lets the taker consume them one after
another. The trades of every accepted order are those of the reference.
-/

namespace Exchange

open PriorityBook

/-! ## The reference -/

/-- The taker may trade at `price`; a market order has no limit. -/
def NewOrder.wants (no : NewOrder) (price : Price) : Bool :=
  no.kind = .market || no.side.withinLimit no.price price

/-- The order with `n` less to trade. -/
def Order.reduce (o : Order) (n : Nat) : Order :=
  { o with remaining := o.remaining - UInt64.ofNat n }

/-- What the naive matching gives the taker: the makers used, and how much of each. -/
def naiveFills (no : NewOrder) (makers : List Order) : List (Order × Nat) :=
  Greedy.fills (fun o => o.remaining.toNat) (fun o => no.wants o.price) no.qty.toNat makers

/-- The makers the naive matching leaves. -/
def naiveRest (no : NewOrder) (makers : List Order) : List Order :=
  Greedy.rest (fun o => o.remaining.toNat) (fun o => no.wants o.price) Order.reduce no.qty.toNat
    makers

/-- Maker, price and quantity of a trade. -/
def OutputEvent.fill? : OutputEvent → Option (OrderId × Price × Nat)
  | .trade _ _ maker price qty _ _ => some (maker, price, qty.toNat)
  | _ => none

/-! ## The fill-or-kill check -/

theorem toNat_foldl_satAdd (l : List (Price × Qty)) (total : Qty) :
    (l.foldl (fun total e => total.satAdd e.2) total).toNat =
      min (2 ^ 64 - 1) (total.toNat + (l.map (·.2.toNat)).sum) := by
  induction l generalizing total with
  | nil =>
    have := total.toNat_lt
    rw [List.foldl_nil, List.map_nil, List.sum_nil]
    omega
  | cons e l ih =>
    rw [List.foldl_cons, ih, toNat_satAdd, List.map_cons, List.sum_cons]
    omega

namespace PriorityBook

variable {q : PriorityBook} {no : NewOrder}

/-- The makers inside the limit are in front of the first one beyond it. -/
theorem WF.takeWhile_withinLimit (hq : q.WF) (aggressor : Side) (limit : Price) :
    (q.makers aggressor.opposite).takeWhile (fun o => aggressor.withinLimit limit o.price) =
      (q.makers aggressor.opposite).filter fun o => aggressor.withinLimit limit o.price := by
  refine Priority.takeWhile_eq_filter (hq.ordered _) fun x y hxy hy => ?_
  rw [Side.withinLimit_iff] at hy ⊢
  exact le_trans hxy hy

/-- The check adds up, saturating, the cached totals of the prices inside the limit. -/
theorem WF.available_eq (hq : q.WF) (aggressor : Side) (limit : Price) :
    (q.available aggressor limit).toNat = min (2 ^ 64 - 1)
      ((((q.makers aggressor.opposite).map (·.price)).dedup.filter
        fun p => aggressor.withinLimit limit p).map
          fun p => (q.tally aggressor.opposite p).totalQty.toNat).sum := by
  have hprices : ((q.makers aggressor.opposite).map (·.price)).dedup.takeWhile
      (fun p => aggressor.withinLimit limit p) =
      ((q.makers aggressor.opposite).map (·.price)).dedup.filter
        fun p => aggressor.withinLimit limit p := by
    have hord : Priority.Ordered aggressor.opposite.rank
        ((q.makers aggressor.opposite).map (·.price)).dedup :=
      (hq.prices_sorted _).imp le_of_lt
    refine Priority.takeWhile_eq_filter hord fun x y hxy hy => ?_
    rw [Side.withinLimit_iff] at hy ⊢
    exact le_trans hxy hy
  unfold available
  rw [toNat_foldl_satAdd, ladder, List.takeWhile_map, UInt64.toNat_zero, Nat.zero_add,
    List.map_map]
  exact congrArg (fun ps : List Price => min _ (ps.map fun p =>
    (q.tally aggressor.opposite p).totalQty.toNat).sum) hprices

/-- Adding up price by price is adding up the makers inside the limit. -/
theorem sum_withinLimit (q : PriorityBook) (aggressor : Side) (limit : Price) :
    ((((q.makers aggressor.opposite).map (·.price)).dedup.filter
        fun p => aggressor.withinLimit limit p).map
          fun p => supply (q.queue aggressor.opposite p)).sum =
      supply ((q.makers aggressor.opposite).filter
        fun o => aggressor.withinLimit limit o.price) := by
  refine (Priority.sum_groups (fun o : Order => o.price) (fun o => o.remaining.toNat) _
    ((List.nodup_dedup _).filter _)).trans (congrArg supply (List.filter_congr fun o ho => ?_))
  have hprice : o.price ∈ (q.makers aggressor.opposite).map (·.price) := List.mem_map_of_mem ho
  simp [List.mem_filter, List.mem_dedup, hprice]

/-- What is reported available is there, in front of the first maker beyond the
limit. -/
theorem WF.available_le (hq : q.WF) (aggressor : Side) (limit : Price) :
    (q.available aggressor limit).toNat ≤
      supply ((q.makers aggressor.opposite).takeWhile
        fun o => aggressor.withinLimit limit o.price) := by
  rw [hq.available_eq, hq.takeWhile_withinLimit, ← sum_withinLimit]
  exact le_trans (Nat.min_le_right _ _) (List.sum_le_sum fun p _ => hq.backed _ p)

/-! ## One order -/

/-- The kinds whose trades the reference gives. A kill of an unfillable
fill-or-kill order comes before matching. -/
structure Matchable (q : PriorityBook) (no : NewOrder) : Prop where
  kind : no.kind = .limit ∨ no.kind = .market ∨ no.kind = .fok
  fresh : q.live? no.id = none
  fillable : no.kind = .fok → ¬q.available no.side no.price < no.qty

section Matchable

variable (hq : q.WF) (hm : Matchable q no)
include hq hm

/-- The match loop does not look at the limit of a fill-or-kill order, but it ends
before that could matter. -/
theorem fok_enough (hkind : no.kind = .fok) :
    no.qty.toNat ≤ Greedy.supply (fun o : Order => o.remaining.toNat)
      ((q.makers no.side.opposite).takeWhile fun o => no.wants o.price) := by
  have hwants : (fun o : Order => no.wants o.price) =
      fun o => no.side.withinLimit no.price o.price := by
    funext o
    simp [NewOrder.wants, hkind]
  have hle := hq.available_le no.side no.price
  have hfill := hm.fillable hkind
  rw [UInt64.lt_iff_toNat_lt] at hfill
  rw [hwants]
  exact le_trans (Nat.not_lt.1 hfill) hle

omit hq in
theorem accepts_eq_wants (hkind : no.kind ≠ .fok) (p : Price) : no.accepts p = no.wants p := by
  rcases hm.kind with h | h | h
  · simp [NewOrder.accepts, NewOrder.wants, h, OrderType.sweepsAll]
  · simp [NewOrder.accepts, NewOrder.wants, h, OrderType.sweepsAll]
  · exact absurd h hkind

theorem fills_eq_naive :
    (fills no.accepts no.qty (q.makers no.side.opposite)).map (fun f => (f.1, f.2.toNat)) =
      naiveFills no (q.makers no.side.opposite) := by
  rw [fills_toNat, naiveFills]
  by_cases hkind : no.kind = .fok
  · refine Greedy.fills_eq_of_enough (fun m _ _ => ?_) (fok_enough hq hm hkind)
    simp [NewOrder.accepts, hkind, OrderType.sweepsAll]
  · simp only [accepts_eq_wants hm hkind]

theorem rest_eq_naive :
    (q.tradeAll no.side.opposite (fills no.accepts no.qty (q.makers no.side.opposite))).makers
        no.side.opposite = naiveRest no (q.makers no.side.opposite) := by
  rw [makers_tradeAll hq, naiveRest]
  by_cases hkind : no.kind = .fok
  · refine Greedy.rest_eq_of_enough Order.reduce (fun m _ _ => ?_) (fok_enough hq hm hkind)
    simp [NewOrder.accepts, hkind, OrderType.sweepsAll]
  · simp only [accepts_eq_wants hm hkind]
    rfl

/-- What is left of the taker. -/
theorem toNat_left :
    (no.qty - taken (fills no.accepts no.qty (q.makers no.side.opposite))).toNat =
      no.qty.toNat - Greedy.total (naiveFills no (q.makers no.side.opposite)) := by
  obtain ⟨htaken, hle⟩ :=
    @toNat_taken no.accepts no.qty (q.makers no.side.opposite)
  rw [UInt64.toNat_sub_of_le _ _ hle, htaken, fills_eq_naive hq hm]

end Matchable

theorem fill?_settle (q : PriorityBook) (no : NewOrder) (filled : Qty) (seq : Seq) (ts : Ts) :
    (q.settle no filled seq ts).2.filterMap OutputEvent.fill? = [] := by
  have hreport : (if filled = 0 then [] else
      [OutputEvent.partiallyFilled no.id filled (no.qty - filled) seq]).filterMap
        OutputEvent.fill? = [] := by
    split <;> rfl
  unfold settle
  dsimp only
  split
  · rfl
  · split
    · exact hreport
    · rw [List.filterMap_append, hreport]
      rfl

theorem fill?_fills (fs : List (Order × Qty)) (seq : Seq) (ts : Ts) (taker : OrderId)
    (side : Side) :
    (fs.flatMap (fillEvents seq ts taker side)).filterMap OutputEvent.fill? =
      (fs.map fun f => (f.1, f.2.toNat)).map fun f => (f.1.id, f.1.price, f.2) := by
  induction fs with
  | nil => rfl
  | cons f fs ih =>
    rw [List.flatMap_cons, List.filterMap_append, ih, fillEvents]
    split <;> rfl

/-- **Greedy matching of one order.** Its trades are those of the reference, the
makers left are those the reference leaves, and the remainder of a limit order is
last at its price. -/
theorem execute_greedy (hq : q.WF) (hm : Matchable q no) (seq : Seq) (ts : Ts) :
    (q.execute no seq ts).2.filterMap OutputEvent.fill? =
        (naiveFills no (q.makers no.side.opposite)).map (fun f => (f.1.id, f.1.price, f.2)) ∧
      (q.execute no seq ts).1.makers no.side.opposite =
        naiveRest no (q.makers no.side.opposite) ∧
      (no.kind = .limit →
        Greedy.total (naiveFills no (q.makers no.side.opposite)) < no.qty.toNat →
        ∃ o : Order, o.id = no.id ∧ o.remaining.toNat =
            no.qty.toNat - Greedy.total (naiveFills no (q.makers no.side.opposite)) ∧
          (q.execute no seq ts).1.queue no.side no.price = q.queue no.side no.price ++ [o]) := by
  have hleft := toNat_left hq hm
  have hrest := rest_eq_naive hq hm
  obtain ⟨hq', -⟩ := hq.tradeAll no.side.opposite no.accepts no.qty
  have hown := (tradeAll_frame no.side.opposite q
    (fills no.accepts no.qty (q.makers no.side.opposite))).1
  rw [Side.opposite_opposite] at hown
  unfold execute
  dsimp only
  refine ⟨?_, ?_, fun hkind hlt => ?_⟩
  · rw [List.filterMap_append, fill?_fills, fill?_settle, fills_eq_naive hq hm, List.append_nil]
  · rw [← hrest]
    unfold settle
    dsimp only
    split
    · rfl
    · split
      · exact makers_put_of_ne (Side.opposite_ne no.side)
      · rfl
  · have hne : no.qty - taken (fills no.accepts no.qty (q.makers no.side.opposite)) ≠ 0 := by
      rw [← toNat_ne_zero]
      omega
    unfold settle
    dsimp only
    rw [if_neg hne, if_pos hkind]
    refine ⟨{ no.toOrder seq ts with
      remaining := no.qty - taken (fills no.accepts no.qty (q.makers no.side.opposite)) }, rfl,
      hleft, (queue_rest hq' _).trans ?_⟩
    congr 1
    exact congrArg (fun ms : List Order => ms.filter fun o => o.price = no.price) hown

end PriorityBook

/-! ## The order book -/

variable {A : Type} [Slab A Order]

/-- The live orders of a side, links aside, in the order the index enumerates them. -/
def OrderBook.liveOrders (b : OrderBook A) (side : Side) : List Order :=
  (b.idIndex.toList.filterMap fun e => (b.slot? e.2.slot).map Order.unlinked).filter
    fun o => o.side = side

/-- `x` is at a better price than `y`, or at the same price and entered no later. -/
def precedes (log : List Entry) (side : Side) (x y : Order) : Bool :=
  side.rank x.price < side.rank y.price ||
    (x.price = y.price && arrival log x.id ≤ arrival log y.id)

/-- The live orders of a side by price and position in the log. -/
def OrderBook.byPriority (b : OrderBook A) (log : List Entry) (side : Side) : List Order :=
  (b.liveOrders side).mergeSort (precedes log side)

/-- The order a command submits to matching: a new one, or the replacement of a
live one. -/
def OrderBook.submission (b : OrderBook A) : Command → Option NewOrder
  | .new no => some no
  | .cancel _ _ => none
  | .replace id newPrice newQty _ => do
    let loc ← b.idIndex[id]?
    let o ← b.slot? loc.slot
    return o.replacement id newPrice newQty

section Priority

variable {b : OrderBook A} {σ : Queues Nat} {q : PriorityBook} {log : List Entry} {n : Nat}

theorem liveOrders_perm (hr : Refines b σ none q) (hfree : q.StopFree) (side : Side) :
    (b.liveOrders side).Perm (q.makers side) := by
  have hentry : ∀ e ∈ b.idIndex.toList, ∀ o,
      (b.slot? e.2.slot).map Order.unlinked = some o →
        o.id = e.1 ∧ o ∈ q.makers o.side := by
    intro e he o ho
    have hidx : b.idIndex[e.1]? = some e.2 := OrderedMap.mem_toList_iff.1 he
    obtain ⟨o', ho', hid, -, hmem⟩ := hr.filed.of_index hidx
    cases ho'.symm.trans ho
    have hmem := hmem.resolve_right (by simp [hfree.held])
    obtain ⟨x, hx, hcore⟩ := hr.filed.core_of_mem hmem
    cases ho'.symm.trans hcore
    exact ⟨hid, (mem_queue.1 hx).1⟩
  have hnodup : (b.idIndex.toList.filterMap fun e =>
      (b.slot? e.2.slot).map Order.unlinked).Nodup := by
    refine List.pairwise_filterMap.2 ((Std.ExtTreeMap.distinct_keys_toList
      (t := b.idIndex)).imp_of_mem ?_)
    intro e e' he he' hne o ho o' ho' heq
    refine hne (Std.LawfulEqCmp.compare_eq_iff_eq.2 ?_)
    rw [← (hentry e he o ho).1, ← (hentry e' he' o' ho').1, heq]
  refine (List.perm_ext_iff_of_nodup (hnodup.filter _)
    (List.Nodup.of_map _ (hr.wf.ids side))).2 fun o => ?_
  rw [List.mem_filter, List.mem_filterMap]
  constructor
  · rintro ⟨⟨e, he, ho⟩, hside⟩
    have hmem := (hentry e he o ho).2
    rwa [of_decide_eq_true hside] at hmem
  · intro ho
    obtain ⟨s, hidx, hcore, -⟩ := hr.locate (hr.wf.live?_eq_some.2 ⟨⟨side, ho⟩, rfl⟩)
    exact ⟨⟨_, OrderedMap.mem_toList_iff.2 hidx, hcore⟩,
      decide_eq_true (hr.wf.maker side o ho).2.1⟩

/-- Sorting the live orders finds the makers of the priority book. -/
theorem byPriority_eq (hr : Refines b σ none q) (hfree : q.StopFree)
    (hrank : Ranked (arrival log) n q) (side : Side) : b.byPriority log side = q.makers side := by
  refine Priority.mergeSort_eq_of_perm ?_ ?_ (liveOrders_perm hr hfree side)
    ((hrank.order side).imp fun {x y} h => ?_)
  · intro x y z hxy hyz
    simp only [precedes, Bool.or_eq_true, Bool.and_eq_true, decide_eq_true_eq] at hxy hyz ⊢
    grind
  · intro x y
    simp only [precedes, Bool.or_eq_true, Bool.and_eq_true, decide_eq_true_eq]
    rcases lt_trichotomy (side.rank x.price) (side.rank y.price) with h | h | h
    · exact .inl (.inl h)
    · have h := Side.rank_inj h
      rcases Nat.le_total (arrival log x.id) (arrival log y.id) with hle | hle
      · exact .inl (.inr ⟨h, hle⟩)
      · exact .inr (.inr ⟨h.symm, hle⟩)
    · exact .inr (.inl h)
  · simp only [precedes, Bool.or_eq_false_iff, Bool.and_eq_false_iff, decide_eq_false_iff_not]
    rcases h with hlt | ⟨heq, hlt⟩
    · exact ⟨by omega, .inl fun e => by rw [e] at hlt; omega⟩
    · exact ⟨by rw [heq]; omega, .inr (by omega)⟩

/-- Read along the links, a level holds the orders of its price by priority. -/
theorem queue_eq (hr : Refines b σ none q) (hfree : q.StopFree) (hrank : Ranked (arrival log) n q)
    (side : Side) (p : Price) :
    (σ side p).map (fun s => (b.slot? s).map Order.unlinked) =
      ((b.byPriority log side).filter fun o => o.price = p).map some := by
  rw [byPriority_eq hr hfree hrank]
  have h := hr.filed.queued side p
  change List.Forall₂ _ (σ side p) ((q.makers side).filter fun o => o.price = p) at h
  generalize σ side p = slots, ((q.makers side).filter fun o => o.price = p) = orders at h ⊢
  induction h with
  | nil => rfl
  | cons hcore _ ih => exact congrArg₂ List.cons hcore ih

theorem ranked_run {symbol : SymbolId} {tick : Price}
    (h : Transition.Run PriorityStep (PriorityBook.new symbol tick) log q) :
    q.WF ∧ Ranked (arrival log) (log.length + 1) q := by
  refine Transition.Run.invariant
    (I := fun log q => q.WF ∧ Ranked (arrival log) (log.length + 1) q) ?_ ?_ h
  · exact ⟨WF.new symbol tick, fun side => List.Pairwise.nil, fun side x hx => nomatch hx⟩
  · rintro log q ⟨cmd, events⟩ q' - ⟨hq, hrank⟩ ⟨-, happly⟩
    have hq' := hq.apply cmd
    have hrank' := hrank.apply hq cmd
    rw [happly] at hq' hrank'
    exact ⟨hq', by simpa using hrank'⟩

/-- An accepted order that is not killed has passed its checks and is executed. -/
theorem enter_of_accepted {no : NewOrder} {seq : Seq} {ts : Ts}
    (hkind : no.kind = .limit ∨ no.kind = .market ∨ no.kind = .fok)
    (hacc : .accepted no.id seq ∈ (q.enter no seq ts).2)
    (hpass : .rejected no.id .fokUnfillable seq ∉ (q.enter no seq ts).2) :
    Matchable q no ∧
      q.enter no seq ts =
        ((q.execute no seq ts).1, .accepted no.id seq :: (q.execute no seq ts).2) := by
  unfold PriorityBook.enter at hacc hpass ⊢
  cases hreject : q.reject? no with
  | some reason =>
    rw [hreject] at hacc
    simp at hacc
  | none =>
    rw [hreject] at hpass
    dsimp only at hpass ⊢
    by_cases hfok : no.kind = .fok ∧ q.available no.side no.price < no.qty
    · rw [if_pos hfok] at hpass
      simp at hpass
    · rw [if_neg hfok]
      exact ⟨⟨hkind, live?_of_reject?_none hreject, fun hk hlt => hfok ⟨hk, hlt⟩⟩, rfl⟩

/-- A submitted order is refused, or entered into the book less the order it
replaces. -/
theorem apply_of_submission (hr : Refines b σ none q) (hfree : q.StopFree) {cmd : Sequenced}
    {no : NewOrder} (hno : b.submission cmd.cmd = some no) :
    (∃ reason, q.apply cmd = (q, [.rejected no.id reason cmd.seq])) ∨
      ∃ (q₀ : PriorityBook) (before : List OutputEvent), q₀.WF ∧
        q₀.makers no.side.opposite = q.makers no.side.opposite ∧
        (q₀.live? no.id = none → q₀.queue no.side no.price =
          (q.queue no.side no.price).filter fun o => o.id ≠ no.id) ∧
        q.apply cmd = ((q₀.enter no cmd.seq cmd.ts).1, before ++ (q₀.enter no cmd.seq cmd.ts).2) ∧
        (before = [] ∨ before = [.replaced no.id cmd.seq]) := by
  have hwf := hr.wf
  obtain ⟨seq, ts, cmd⟩ := cmd
  unfold PriorityBook.apply
  cases cmd with
  | new no' =>
    cases hno
    refine .inr ⟨q, [], hwf, rfl, fun hlive => ?_, rfl, .inl rfl⟩
    refine (List.filter_eq_self.2 fun o ho => ?_).symm
    simpa using hwf.live?_eq_none.1 hlive _ o (mem_queue.1 ho).1
  | cancel id symbol => cases hno
  | replace id newPrice newQty symbol =>
    obtain ⟨loc, hidx, hno⟩ := Option.bind_eq_some_iff.1 hno
    obtain ⟨o', ho', hno⟩ := Option.bind_eq_some_iff.1 hno
    cases hno
    obtain ⟨o, ho, hid, -, hmem⟩ := hr.filed.of_index hidx
    have hu : o'.unlinked = o := Option.some.inj ((congrArg _ ho').symm.trans ho)
    obtain ⟨x, hx, hcore⟩ := hr.filed.core_of_mem (hmem.resolve_right (by simp [hfree.held]))
    cases ho.symm.trans hcore
    have hmaker := (mem_queue.1 hx).1
    have hlive : q.live? id = some o := hwf.live?_eq_some.2 ⟨⟨_, hmaker⟩, hid⟩
    have hno : o'.replacement id newPrice newQty = o.replacement id newPrice newQty := by
      rw [← hu]
      rfl
    rw [hno]
    dsimp only
    by_cases hzero : newQty = 0
    · exact .inl ⟨_, if_pos hzero⟩
    · rw [if_neg hzero, hlive]
      refine .inr ⟨q.drop o, [.replaced id seq], hwf.drop hmaker,
        makers_put_of_ne (Side.opposite_ne o.side), fun _ => ?_, rfl, .inr rfl⟩
      have hid' : (o.replacement id newPrice newQty).id = o.id := hid.symm
      rw [hid', ← filter_drop, queue, drop]
      exact congrArg (List.filter _) makers_put_self

/-- **Price-time priority.** The trades of an accepted order are those of the naive
reference on the opposite side's live orders, sorted by price and by the command
that entered them. The makers left are those the reference leaves, in that order;
what remains of a limit order is last at its price; and the levels of the book hold
the live orders in that order. -/
theorem stopFree_priceTime {symbol : SymbolId} {tick : Price} {cmd : Sequenced} {no : NewOrder}
    {b' : OrderBook A} {events : List OutputEvent} (h : ReachesStopFree symbol tick log b)
    (hcmd : cmd.cmd.StopFree) (hno : b.submission cmd.cmd = some no)
    (hkind : no.kind = .limit ∨ no.kind = .market ∨ no.kind = .fok)
    (happ : Applies b cmd b' events) (hacc : .accepted no.id cmd.seq ∈ events)
    (hpass : .rejected no.id .fokUnfillable cmd.seq ∉ events) :
    events.filterMap OutputEvent.fill? =
        (naiveFills no (b.byPriority log no.side.opposite)).map
          (fun f => (f.1.id, f.1.price, f.2)) ∧
      b'.byPriority (log ++ [(cmd, events)]) no.side.opposite =
        naiveRest no (b.byPriority log no.side.opposite) ∧
      (no.kind = .limit →
        Greedy.total (naiveFills no (b.byPriority log no.side.opposite)) < no.qty.toNat →
        ∃ o : Order, o.id = no.id ∧ o.remaining.toNat =
            no.qty.toNat - Greedy.total (naiveFills no (b.byPriority log no.side.opposite)) ∧
          ((b'.byPriority (log ++ [(cmd, events)]) no.side).filter fun x => x.price = no.price) =
            ((b.byPriority log no.side).filter
              fun x => x.price = no.price ∧ x.id ≠ no.id) ++ [o]) ∧
      ∃ σ', Represents b' σ' ∧ ∀ side p,
        (σ' side p).map (fun s => (b'.slot? s).map Order.unlinked) =
          ((b'.byPriority (log ++ [(cmd, events)]) side).filter fun o => o.price = p).map some := by
  obtain ⟨q, hrun, ⟨σ, hr⟩, hfree⟩ := reaches_refines h
  obtain ⟨hq, hrank⟩ := ranked_run hrun
  obtain ⟨b'', σ', happ', hr', hfree'⟩ := apply_refines hr hfree hcmd
  obtain ⟨rfl, hevents⟩ := Applies.unique happ happ'
  have hrank' := hrank.apply hq cmd
  rw [← hevents] at hrank'
  rw [byPriority_eq hr hfree hrank, byPriority_eq hr hfree hrank,
    byPriority_eq hr' hfree' hrank', byPriority_eq hr' hfree' hrank']
  rcases apply_of_submission hr hfree hno with ⟨reason, hq'⟩ |
    ⟨q₀, before, hq₀, hmakers, hqueue, hq', hbefore⟩
  · rw [hevents, hq'] at hacc
    simp at hacc
  · rw [hq'] at hevents
    have hentered : ∀ e ∈ events,
        e ∈ (q₀.enter no cmd.seq cmd.ts).2 ∨ e = .replaced no.id cmd.seq := by
      intro e he
      rw [hevents] at he
      rcases List.mem_append.1 he with he | he
      · rcases hbefore with rfl | rfl
        · cases he
        · exact .inr (List.mem_singleton.1 he)
      · exact .inl he
    obtain ⟨hm, henter⟩ := enter_of_accepted hkind ((hentered _ hacc).resolve_right nofun)
      fun he => hpass (hevents ▸ List.mem_append_right _ he)
    obtain ⟨htrades, hrest, hlast⟩ := execute_greedy hq₀ hm cmd.seq cmd.ts
    rw [hmakers] at htrades hrest hlast
    rw [henter] at hevents hq'
    have hfills : events.filterMap OutputEvent.fill? =
        (q₀.execute no cmd.seq cmd.ts).2.filterMap OutputEvent.fill? := by
      rw [hevents]
      rcases hbefore with rfl | rfl
      · rfl
      · rfl
    rw [hq'] at hr' hfree' hrank' ⊢
    refine ⟨hfills.trans htrades, hrest, fun hk hlt => ?_, σ', hr'.represents hfree',
      queue_eq hr' hfree' hrank'⟩
    obtain ⟨o, hid, hrem, hq⟩ := hlast hk hlt
    refine ⟨o, hid, hrem, ?_⟩
    rw [hqueue hm.fresh, queue, queue, List.filter_filter] at hq
    rw [hq]
    simp [Bool.and_comm]

theorem stopFree_priceTime_sample : ∃ (b : OrderBook (VecSlab Order)) (log : List Entry),
    log.map Prod.fst = sampleCommands.take 2 ∧
      (naiveFills ⟨3, 0, .sell, .market, .gtc, 0, 0, 7⟩ (b.byPriority log .buy)).map
        (fun f => (f.1.id, f.1.price, f.2)) = [(1, 100, 5), (2, 100, 2)] := by
  have hok : ∃ r r', applyAll 9 (OrderBook.new 0 1 : OrderBook (VecSlab Order))
      (sampleCommands.take 2) = .ok r ∧
      applyWithin 9 r.1 ⟨3, 0, .new ⟨3, 0, .sell, .market, .gtc, 0, 0, 7⟩⟩ = .ok r' ∧
      r.2.map Prod.fst = sampleCommands.take 2 ∧
      .accepted 3 3 ∈ r'.2 ∧ .rejected 3 .fokUnfillable 3 ∉ r'.2 ∧
      r'.2.filterMap OutputEvent.fill? = [(1, 100, 5), (2, 100, 2)] := by
    refine ⟨_, _, rfl, rfl, ?_⟩
    decide +kernel
  obtain ⟨⟨b, log⟩, ⟨b', events⟩, hrun, happ, hlog, hacc, hpass, hfills⟩ := hok
  have hgreedy := stopFree_priceTime (reachesStopFree_applyAll hrun (by decide))
    (by decide) rfl (.inr (.inl rfl)) ⟨9, happ⟩ hacc hpass
  exact ⟨b, log, hlog, hgreedy.1.symm.trans hfills⟩

end Priority

end Exchange
