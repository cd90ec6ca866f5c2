import Exchange.Verify.PublishedDepth
import Exchange.Verify.CascadeBook

/-!
# Depth through cascades

Stop orders that wait are in the index and in no level, and those that fire only take.
So as long as no stop order is taken out at the price of a level of its side, and what
rests leaves room for what comes in, the depth is the resting orders added up by price.
-/

namespace Exchange

open PriorityBook Transition

/-! ## Room -/

namespace PriorityBook

variable {q q₁ q₂ : PriorityBook} {seq : Seq} {ts : Ts} {es : List OutputEvent} {side : Side}
  {no : NewOrder} {id : OrderId} {o : Order}

/-- There is room for an order when there is room for all of it beside all that rests. -/
theorem hasRoom_of_add_lt (h : no.kind = .limit → q.total + no.qty.toNat < 2 ^ 64) :
    q.HasRoom no := by
  intro hkind
  have hroom := h hkind
  have hqueue := supply_queue_le q no.side no.price
  have htaken : taken (fills no.accepts no.qty (q.makers no.side.opposite)) ≤ no.qty :=
    (toNat_taken _ _).2
  have hleft := UInt64.toNat_sub_of_le _ _ htaken
  omega

theorem total_drop_le (q : PriorityBook) (o : Order) : (q.drop o).total ≤ q.total := by
  have hside : ∀ side, supply ((q.drop o).makers side) ≤ supply (q.makers side) := by
    intro side
    change supply (if side = o.side then (q.makers o.side).filter fun o' => o'.id ≠ o.id
      else q.makers side) ≤ _
    split
    · next h =>
      rw [h]
      exact supply_le_of_sublist List.filter_sublist
    · exact le_refl _
  exact Nat.add_le_add (hside .buy) (hside .sell)

/-- A stop market order that fires takes and does not rest. -/
theorem Fires.exact (h : q.Fires seq ts es q₁) (hq : q.StopWF) (hx : q.Exact) : q₁.Exact := by
  induction h with
  | refl => exact hx
  | prune _ _ _ ih => exact ih
  | @fire es q₁ side t p s o hfires hheld hkind _ _ _ ih =>
    have hwf := ((hfires.stopWF hq).release s).wf
    have hmarket : o.activated.kind ≠ .limit := by simp [Order.activated, hkind]
    exact Exact.execute (q := q₁.release s) ih hwf (fun h => absurd h hmarket) seq ts

theorem Enters.exact (h : q.Enters seq ts no q₁ es) (hq : q.StopWF) (hx : q.Exact)
    (hroom : no.kind = .limit → q.total + no.qty.toNat < 2 ^ 64) : q₁.Exact := by
  cases h with
  | rejected => exact hx
  | held => exact hx
  | killed => exact hx
  | executed hno _ _ hfires =>
    obtain ⟨-, hlives⟩ := qty_and_not_lives_of_not_refuses hno
    obtain ⟨hlive, hw⟩ := hq.wf.not_lives.1 hlives
    exact hfires.exact (hq.execute hlive hw seq ts)
      (hx.execute hq.wf (hasRoom_of_add_lt hroom) seq ts)

/-- A held order is taken out quietly where there is no level at its trigger price. -/
theorem discount_eq (h : q.queue o.side o.stopPrice = []) :
    q.discount o.side o.stopPrice o.remaining = q := by
  have htally : (q.discount o.side o.stopPrice o.remaining).tally = q.tally := by
    funext side p
    refine if_neg ?_
    rintro ⟨rfl, rfl, hne⟩
    exact hne h
  calc q.discount o.side o.stopPrice o.remaining =
      { q with tally := (q.discount o.side o.stopPrice o.remaining).tally } := rfl
    _ = q := by rw [htally]

theorem TakesOut.exact (h : q.TakesOut id o q₁) (hq : q.StopWF) (hx : q.Exact)
    (hspares : ∀ s x, q.held s = some x → x.id = id → q.queue x.side x.stopPrice = []) :
    q₁.Exact ∧ q₁.total ≤ q.total := by
  cases h with
  | maker ho => exact ⟨hx.drop hq.wf ho, q.total_drop_le o⟩
  | @held s _ ho hid =>
    rw [discount_eq (hspares s o ho hid)]
    exact ⟨hx, le_refl _⟩

end PriorityBook

/-- What a command may bring to rest. -/
def Command.brings : Command → Nat
  | .new no => if no.kind = .limit then no.qty.toNat else 0
  | .cancel _ _ => 0
  | .replace _ _ newQty _ => newQty.toNat

/-- **The totals step.** -/
theorem StopStep.exact {q q₁ : PriorityBook} {e : Entry} (h : StopStep q e q₁) (hq : q.StopWF)
    (hx : q.Exact) (hroom : q.total + e.1.cmd.brings < 2 ^ 64)
    (hspares : ∀ id, e.1.cmd.takesOut = some id → ∀ s x, q.held s = some x → x.id = id →
      q.queue x.side x.stopPrice = []) : q₁.Exact := by
  cases h with
  | new h =>
    refine h.exact hq hx fun hkind => ?_
    rw [Command.brings, if_pos hkind] at hroom
    exact hroom
  | cancelUnknown => exact hx
  | cancel h => exact (h.exact hq hx (hspares _ rfl)).1
  | replaceZero => exact hx
  | replaceUnknown => exact hx
  | replace hqty h henters =>
    obtain ⟨hx₁, hle⟩ := h.exact hq hx (hspares _ (if_neg hqty))
    refine henters.exact (h.stopWF hq) hx₁ fun _ => ?_
    exact lt_of_le_of_lt (Nat.add_le_add_right hle _) hroom

/-! ## Resting orders -/

variable {A : Type} [Slab A Order] {b b' : OrderBook A} {σ : Queues Nat} {q : PriorityBook}
  {symbol : SymbolId} {tick : Price} {log : List Entry}

/-- The live orders of a side but for the stop orders, which wait. -/
def OrderBook.restingOrders (b : OrderBook A) (side : Side) : List Order :=
  (b.liveOrders side).filter fun o => !o.kind.isStop

/-- What is left of all resting orders together. -/
def OrderBook.restingQty (b : OrderBook A) : Nat :=
  ((b.restingOrders .buy ++ b.restingOrders .sell).map (·.remaining.toNat)).sum

theorem mem_liveOrders (hr : Refines b σ none q) {side : Side} {o : Order} :
    o ∈ b.liveOrders side ↔ (∃ s, coreOf b.arena s = some o) ∧ o.side = side := by
  unfold OrderBook.liveOrders
  rw [List.mem_filter, List.mem_filterMap, decide_eq_true_iff]
  refine and_congr_left fun _ => ⟨fun ⟨e, _, ho⟩ => ⟨e.2.slot, ho⟩, fun ⟨s, hcore⟩ => ?_⟩
  exact ⟨(o.id, o.location s),
    OrderedMap.mem_toList_iff.2 (hr.filed.index_eq hcore (by simp)), hcore⟩

theorem liveOrders_nodup (hr : Refines b σ none q) (side : Side) :
    (b.liveOrders side).Nodup := by
  have hid : ∀ e ∈ b.idIndex.toList, ∀ o, (b.slot? e.2.slot).map Order.unlinked = some o →
      o.id = e.1 := by
    intro e he o ho
    obtain ⟨o', ho', hid, -⟩ := hr.filed.of_index (OrderedMap.mem_toList_iff.1 he)
    cases ho'.symm.trans ho
    exact hid
  refine List.Nodup.filter _ (List.pairwise_filterMap.2
    ((Std.ExtTreeMap.distinct_keys_toList (t := b.idIndex)).imp_of_mem ?_))
  intro e e' he he' hne o ho o' ho' heq
  refine hne (Std.LawfulEqCmp.compare_eq_iff_eq.2 ?_)
  rw [← hid e he o ho, ← hid e' he' o' ho', heq]

theorem restingOrders_perm (hr : Refines b σ none q) (side : Side) :
    (b.restingOrders side).Perm (q.makers side) := by
  refine (List.perm_ext_iff_of_nodup ((liveOrders_nodup hr side).filter _)
    (List.Nodup.of_map _ (hr.wf.ids side))).2 fun o => ?_
  rw [List.mem_filter, mem_liveOrders hr]
  constructor
  · rintro ⟨⟨⟨s, hcore⟩, rfl⟩, hkind⟩
    rcases (hr.filed.covered s o hcore).resolve_left (by simp) with hmem | hheld
    · obtain ⟨x, hx, hcore'⟩ := hr.filed.core_of_mem hmem
      cases hcore.symm.trans hcore'
      exact (mem_queue.1 hx).1
    · simp [(hr.filed.held_core s o hheld).2] at hkind
  · intro ho
    obtain ⟨s, -, hcore, -⟩ := hr.locate (hr.wf.live?_eq_some.2 ⟨⟨side, ho⟩, rfl⟩)
    obtain ⟨hkind, hside, -⟩ := hr.wf.maker side o ho
    exact ⟨⟨⟨s, hcore⟩, hside⟩, by rw [hkind]; rfl⟩

theorem restingQty_eq (hr : Refines b σ none q) : b.restingQty = q.total := by
  have hperm := (restingOrders_perm hr .buy).append (restingOrders_perm hr .sell)
  rw [OrderBook.restingQty, (hperm.map _).sum_eq, List.map_append, List.sum_append]
  rfl

/-! ## Depth -/

/-- The levels of a side as they are published, best price first. -/
def OrderBook.published (b : OrderBook A) (side : Side) : List (Price × Qty) :=
  (b.levels side).toList.map fun e => (e.1, e.2.totalQty)

/-- What is published of each side is, best price first, what rests at each price. -/
structure PublishesResting (b : OrderBook A) : Prop where
  totals : b.TotalsLinked
  bids : ∀ n, (b.depth n).bids = (b.published .buy).take n
  asks : ∀ n, (b.depth n).asks = (b.published .sell).take n
  bestFirst : ∀ side, (b.published side).Pairwise fun e e' => side.rank e.1 < side.rank e'.1
  priced : ∀ side p, (∃ v, (p, v) ∈ b.published side) ↔ ∃ o ∈ b.restingOrders side, o.price = p
  summed : ∀ side, ∀ e ∈ b.published side, e.2.toNat =
    (((b.restingOrders side).filter fun o => o.price = e.1).map (·.remaining.toNat)).sum

theorem publishesResting_of_exact (hr : Refines b σ none q) (hx : q.Exact) :
    PublishesResting b := by
  have hladder : ∀ side, b.published side = q.ladder side := hr.levels_eq
  refine ⟨hr.totalsLinked_iff.2 hx, fun n => List.map_take, fun n => List.map_take,
    fun side => ?_, fun side p => ?_, fun side e he => ?_⟩
  · rw [hladder, ladder, List.pairwise_map]
    exact hr.wf.prices_sorted side
  · rw [hladder]
    simp only [ladder, List.mem_map, List.mem_dedup, (restingOrders_perm hr side).mem_iff]
    constructor
    · rintro ⟨v, p', ⟨o, ho, rfl⟩, heq⟩
      exact ⟨o, ho, (Prod.mk.inj heq).1⟩
    · rintro ⟨o, ho, rfl⟩
      exact ⟨_, o.price, ⟨o, ho, rfl⟩, rfl⟩
  · rw [hladder] at he
    obtain ⟨p, -, rfl⟩ := List.mem_map.1 he
    have hperm := ((restingOrders_perm hr side).filter fun o => o.price = p).map
      (·.remaining.toNat)
    exact (hx side p).trans hperm.sum_eq.symm

/-! ## Runs -/

/-- The command takes no stop order out whose trigger price is that of a level of its
side. -/
def Command.SparesLevels (b : OrderBook A) (c : Command) : Prop :=
  ∀ id, c.takesOut = some id → ∀ loc o, b.idIndex[id]? = some loc →
    b.slot? loc.slot = some o → o.kind.isStop = true → b.level? o.side o.stopPrice = none

/-- The book is reached by clear commands that take no stop order out at a level, each
with room for what it brings. -/
def ReachesSparing (symbol : SymbolId) (tick : Price) (log : List Entry) (b : OrderBook A) :
    Prop :=
  Run (restrict (fun b e => e.1.cmd.Clear b ∧ e.1.cmd.SparesLevels b ∧
    b.restingQty + e.1.cmd.brings < 2 ^ 64) ApplyStep) (OrderBook.new symbol tick) log b

theorem Command.SparesLevels.queue {c : Command} (h : c.SparesLevels b) (hm : Models b q)
    {id : OrderId} (hid : c.takesOut = some id) {s : Nat} {o : Order} (ho : q.held s = some o)
    (hname : o.id = id) : q.queue o.side o.stopPrice = [] := by
  subst hname
  have hslot := hm.slot?_of_held ho
  obtain ⟨σ, hr⟩ := hm
  obtain ⟨hcore, hstop⟩ := hr.filed.held_core s o ho
  have hidx := hr.filed.index_eq (o := o) hcore (by simp)
  exact (hr.bare_of_none (h o.id hid _ o hidx hslot hstop)).1

/-- **Depth through cascades.** The depth of a book that is reached by clear commands is
what rests added up by price, whatever the commands trigger, if no stop order is taken
out at a level and there is room for each command. -/
theorem reachesSparing_published [LifoSlab A Order] (h : ReachesSparing symbol tick log b) :
    PublishesResting b := by
  have hinv : ∃ q, Models b q ∧ HeldLive q ∧ q.StopWF ∧ q.Exact := by
    refine Run.invariant (I := fun _ (b : OrderBook A) => ∃ q, Models b q ∧ HeldLive q ∧
      q.StopWF ∧ q.Exact)
      ⟨_, ⟨_, Refines.new symbol tick⟩, nofun, .new symbol tick, .new symbol tick⟩ ?_ h
    rintro - b e b' - ⟨q, hm, hlive, hq, hx⟩ ⟨⟨hclear, hspares, hroom⟩, happ⟩
    obtain ⟨q', hstep, hm', hlive'⟩ := apply_stopStep hm hlive hclear happ
    have hroom' : q.total + e.1.cmd.brings < 2 ^ 64 := by
      obtain ⟨σ, hr⟩ := hm
      rwa [restingQty_eq hr] at hroom
    have hx' := hstep.exact hq hx hroom' fun id hid s x ho hname => hspares.queue hm hid ho hname
    exact ⟨q', hm', hlive', hstep.stopWF hq, hx'⟩
  obtain ⟨q, ⟨σ, hr⟩, -, -, hx⟩ := hinv
  exact publishesResting_of_exact hr hx

/-- A new order is clear on a book that files stop market orders only. -/
theorem ReachesSparing.new {no : NewOrder} {seq : Seq} {ts : Ts} {events : List OutputEvent}
    (h : ReachesSparing symbol tick log b)
    (hfiled : ∀ s ∈ b.filedSlots, (b.slot? s).all fun o => o.kind = .stopMarket)
    (hfree : Slab.vacantKey b.arena ∉ b.filedSlots)
    (hroom : b.restingQty + no.qty.toNat < 2 ^ 64)
    (happ : Applies b ⟨seq, ts, .new no⟩ b' events) :
    ReachesSparing symbol tick (log ++ [(⟨seq, ts, .new no⟩, events)]) b' := by
  have hbrings : (Command.new no).brings ≤ no.qty.toNat := by
    unfold Command.brings
    dsimp only
    split
    · exact le_refl _
    · exact Nat.zero_le _
  refine h.snoc ⟨⟨Command.clear_of_filedSlots hfiled hfree _, ?_, ?_⟩, happ⟩
  · intro id hid
    cases hid
  · exact lt_of_le_of_lt (Nat.add_le_add_left hbrings _) hroom

/-- The stop order fires on the trade of the last command, and one ask is left. -/
def stopAndAsk : List Sequenced :=
  [⟨1, 0, .new ⟨1, 0, .buy, .stopMarket, .gtc, 0, 100, 1⟩⟩,
   ⟨2, 0, .new ⟨2, 0, .sell, .limit, .gtc, 100, 0, 3⟩⟩,
   ⟨3, 0, .new ⟨3, 0, .buy, .limit, .gtc, 100, 0, 1⟩⟩]

theorem reachesSparing_published_sample : ∃ (b : OrderBook (VecSlab Order)) (log : List Entry),
    ReachesSparing 0 1 log b ∧ log.map Prod.fst = stopAndAsk ∧
      b.published .sell = [(100, 1)] ∧ PublishesResting b := by
  have hok : ∃ r₁ r₂ r₃,
      applyWithin 9 (OrderBook.new 0 1 : OrderBook (VecSlab Order))
        ⟨1, 0, .new ⟨1, 0, .buy, .stopMarket, .gtc, 0, 100, 1⟩⟩ = .ok r₁ ∧
      applyWithin 9 r₁.1 ⟨2, 0, .new ⟨2, 0, .sell, .limit, .gtc, 100, 0, 3⟩⟩ = .ok r₂ ∧
      applyWithin 9 r₂.1 ⟨3, 0, .new ⟨3, 0, .buy, .limit, .gtc, 100, 0, 1⟩⟩ = .ok r₃ ∧
      (∀ s ∈ r₁.1.filedSlots, (r₁.1.slot? s).all fun o => o.kind = .stopMarket) ∧
      Slab.vacantKey r₁.1.arena ∉ r₁.1.filedSlots ∧
      r₁.1.restingQty + (3 : Qty).toNat < 2 ^ 64 ∧
      (∀ s ∈ r₂.1.filedSlots, (r₂.1.slot? s).all fun o => o.kind = .stopMarket) ∧
      Slab.vacantKey r₂.1.arena ∉ r₂.1.filedSlots ∧
      r₂.1.restingQty + (1 : Qty).toNat < 2 ^ 64 ∧
      r₃.1.published .sell = [(100, 1)] := by
    refine ⟨_, _, _, rfl, rfl, rfl, ?_⟩
    decide +kernel
  obtain ⟨⟨b₁, e₁⟩, ⟨b₂, e₂⟩, ⟨b₃, e₃⟩, h₁, h₂, h₃, hfiled₁, hfree₁, hroom₁, hfiled₂, hfree₂,
    hroom₂, hasks⟩ := hok
  have hrun₀ : ReachesSparing 0 1 [] (OrderBook.new 0 1 : OrderBook (VecSlab Order)) := .nil
  have hrun₁ := hrun₀.new (by decide) (by decide) (by decide +kernel) ⟨9, h₁⟩
  have hrun₂ := hrun₁.new hfiled₁ hfree₁ hroom₁ ⟨9, h₂⟩
  have hrun₃ := hrun₂.new hfiled₂ hfree₂ hroom₂ ⟨9, h₃⟩
  exact ⟨b₃, _, hrun₃, rfl, hasks, reachesSparing_published hrun₃⟩

end Exchange
