import Exchange.Verify.LimitProtection

/-!
# Exact totals

The cached total of a level is kept up to date by four sites. Trading and taking out
keep it exact, whatever the quantities are: putting a partly filled maker back adds
less than the pop took off. Only an order that comes to rest can make it wrap, so a
book stays exact as long as what rests has room (`HasRoom`).
-/

namespace Exchange

open PriorityBook Links

namespace PriorityBook

variable {q : PriorityBook} {side : Side} {m o : Order} {ms : List Order} {no : NewOrder}

/-- Every cached total is what rests at its price. -/
def Exact (q : PriorityBook) : Prop :=
  ∀ side p, (q.tally side p).totalQty.toNat = supply (q.queue side p)

/-- What rests on both sides. -/
def total (q : PriorityBook) : Nat := supply (q.makers .buy) + supply (q.makers .sell)

theorem supply_append (l₁ l₂ : List Order) : supply (l₁ ++ l₂) = supply l₁ + supply l₂ := by
  simp [supply, Greedy.supply]

theorem supply_le_of_sublist {l₁ l₂ : List Order} (h : l₁.Sublist l₂) : supply l₁ ≤ supply l₂ :=
  (h.map _).sum_le_sum fun _ _ => Nat.zero_le _

theorem supply_queue_le (q : PriorityBook) (side : Side) (p : Price) :
    supply (q.queue side p) ≤ q.total := by
  refine le_trans (supply_le_of_sublist List.filter_sublist : _ ≤ supply (q.makers side)) ?_
  cases side
  · exact Nat.le_add_right _ _
  · exact Nat.le_add_left _ _

namespace Exact

theorem new (symbol : SymbolId) (tick : Price) : (PriorityBook.new symbol tick).Exact :=
  fun _ _ => rfl

theorem withLastTrade (hx : q.Exact) (price : Option Price) :
    Exact { q with lastTrade := price } := hx

theorem lt (hx : q.Exact) (side : Side) (p : Price) : supply (q.queue side p) < 2 ^ 64 := by
  rw [← hx side p]
  exact UInt64.toNat_lt _

/-- Only the tally that is put has to be looked at. -/
theorem put {p : Price} {tally : Tally} (hx : q.Exact)
    (hms : ∀ p', p' ≠ p → ms.filter (fun o => o.price = p') = q.queue side p')
    (htotal : tally.totalQty.toNat = supply (ms.filter fun o => o.price = p)) :
    (q.put side p ms tally).Exact := by
  intro side' p'
  by_cases h : side' = side ∧ p' = p
  · obtain ⟨rfl, rfl⟩ := h
    rw [queue_put_self]
    simp only [PriorityBook.put, and_self, if_true]
    split
    · next hnil =>
      rw [hnil]
      rfl
    · exact htotal
  · rw [queue_put_of_ne h hms]
    simp only [PriorityBook.put, h, if_false]
    exact hx side' p'

/-- A fill: the pop takes the whole maker off, putting it back adds what is left. -/
theorem trade (hx : q.Exact) (hm : q.makers side = m :: ms) (need : Qty) :
    (q.trade side m (min need m.remaining)).Exact := by
  have hother : ∀ p', p' ≠ m.price → ms.filter (fun o => o.price = p') = q.queue side p' :=
    fun p' hp' => (queue_of_makers_cons_ne hm hp').symm
  have htotal := hx side m.price
  have hlt := hx.lt side m.price
  rw [queue_of_makers_cons hm, supply, Greedy.supply_cons] at htotal hlt
  rcases min_cases need m with ⟨-, -, hleft⟩ | ⟨hmin, hneed, hleft⟩
  · rw [trade_of_eq hm hleft]
    refine (hx.put hother ?_).withLastTrade _
    rw [Tally.pop, toNat_satSub, supply, htotal]
    omega
  · rw [trade_of_ne hm hleft]
    refine Exact.withLastTrade (hx.put (fun p' hp' => ?_) ?_) _
    · rw [List.filter_cons_of_neg (by simpa using Ne.symm hp')]
      exact hother p' hp'
    · have hle : (m.remaining - min need m.remaining).toNat ≤ m.remaining.toNat := by
        have hle : need ≤ m.remaining := UInt64.le_iff_toNat_le.2
          (Nat.le_of_lt (UInt64.lt_iff_toNat_lt.1 hneed))
        rw [hmin, UInt64.toNat_sub_of_le _ _ hle]
        exact Nat.sub_le _ _
      rw [List.filter_cons_of_pos (by simp), supply, Greedy.supply_cons, Tally.join, Tally.pop,
        UInt64.toNat_add, toNat_satSub, htotal, Nat.mod_eq_of_lt (by omega)]
      dsimp only
      omega

theorem tradeAll (hx : q.Exact) (side : Side) (ok : Price → Bool) (need : Qty) :
    (q.tradeAll side (fills ok need (q.makers side))).Exact :=
  (sweep_rule (P := fun q _ _ => q.Exact) (fun _ need _ _ _ hx hm _ _ => hx.trade hm need) []
    hx).1

/-- An order comes to rest where there is room for it. -/
theorem rest (hx : q.Exact) (hq : q.WF)
    (hroom : supply (q.queue o.side o.price) + o.remaining.toNat < 2 ^ 64) :
    (q.rest o).Exact := by
  intro side p
  by_cases h : side = o.side ∧ p = o.price
  · obtain ⟨rfl, rfl⟩ := h
    rw [tally_rest hq, queue_rest hq, supply_append, Tally.join, UInt64.toNat_add, hx,
      Nat.mod_eq_of_lt hroom]
    simp [supply]
  · rw [tally_rest_of_ne h, queue_rest_of_ne h]
    exact hx side p

theorem drop (hx : q.Exact) (hq : q.WF) (ho : o ∈ q.makers side) : (q.drop o).Exact := by
  obtain ⟨-, rfl, -⟩ := hq.maker side o ho
  obtain ⟨l₁, l₂, hl⟩ := List.append_of_mem (mem_queue.2 ⟨ho, rfl⟩ : o ∈ q.queue o.side o.price)
  have htotal := hx o.side o.price
  rw [hl, supply_append, show supply (o :: l₂) = o.remaining.toNat + supply l₂ from
    Greedy.supply_cons o l₂] at htotal
  refine hx.put (fun p' hp' => filter_drop_of_ne hq ho hp') ?_
  rw [filter_drop_self hq hl, Tally.leave, toNat_satSub, htotal, supply_append]
  omega

end Exact

/-! ## Commands -/

/-- What would rest of a new limit order fits the total of its level. -/
def HasRoom (q : PriorityBook) (no : NewOrder) : Prop :=
  no.kind = .limit → supply (q.queue no.side no.price) +
    (no.qty - taken (fills no.accepts no.qty (q.makers no.side.opposite))).toNat < 2 ^ 64

/-- The order a command enters, if any, has room. -/
def HasRoomFor (q : PriorityBook) : Command → Prop
  | .new no => q.reject? no = none → q.HasRoom no
  | .cancel _ _ => True
  | .replace id newPrice newQty _ => newQty ≠ 0 → ∀ o, q.live? id = some o →
      (q.drop o).reject? (o.replacement id newPrice newQty) = none →
      (q.drop o).HasRoom (o.replacement id newPrice newQty)

theorem queue_tradeAll (side : Side) (fs : List (Order × Qty)) (p : Price) :
    (q.tradeAll side.opposite fs).queue side p = q.queue side p := by
  have hmakers := (tradeAll_frame side.opposite q fs).1
  rw [Side.opposite_opposite] at hmakers
  rw [queue, queue, hmakers]

namespace Exact

theorem execute (hx : q.Exact) (hq : q.WF) (hroom : q.HasRoom no) (seq : Seq) (ts : Ts) :
    (q.execute no seq ts).1.Exact := by
  have hx' := hx.tradeAll no.side.opposite no.accepts no.qty
  obtain ⟨hq', -⟩ := hq.tradeAll no.side.opposite no.accepts no.qty
  unfold PriorityBook.execute PriorityBook.settle
  dsimp only
  split
  · exact hx'
  · split
    · next hkind =>
      refine hx'.rest hq' ?_
      change supply (PriorityBook.queue _ no.side no.price) + _ < 2 ^ 64
      rw [queue_tradeAll]
      exact hroom hkind
    · exact hx'

theorem enter (hx : q.Exact) (hq : q.WF) (hroom : q.reject? no = none → q.HasRoom no) (seq : Seq)
    (ts : Ts) : (q.enter no seq ts).1.Exact := by
  unfold PriorityBook.enter
  split
  · exact hx
  · next hreject =>
    split
    · exact hx
    · exact hx.execute hq (hroom hreject) seq ts

/-- **The step.** A command with room keeps the totals exact. -/
theorem apply (hx : q.Exact) (hq : q.WF) {cmd : Sequenced} (hroom : q.HasRoomFor cmd.cmd) :
    (q.apply cmd).1.Exact := by
  rcases q.apply_cases cmd with ⟨no, hcmd, he⟩ | ⟨id, reason, -, he⟩ |
    ⟨id, symbol, o, -, hlive, he⟩ | ⟨id, newPrice, newQty, symbol, o, hcmd, hzero, hlive, he⟩
  · rw [he]
    rw [hcmd] at hroom
    exact hx.enter hq hroom cmd.seq cmd.ts
  · rw [he]
    exact hx
  · rw [he]
    obtain ⟨⟨side, ho⟩, -⟩ := hq.live?_eq_some.1 hlive
    exact hx.drop hq ho
  · rw [he]
    rw [hcmd] at hroom
    obtain ⟨⟨side, ho⟩, -⟩ := hq.live?_eq_some.1 hlive
    exact (hx.drop hq ho).enter (hq.drop ho) (hroom hzero o hlive) cmd.seq cmd.ts

end Exact

/-- A new order that leaves no more than a word behind had room. -/
theorem hasRoom_of_total (hq : q.WF) (hx : q.Exact) {seq : Seq} {ts : Ts}
    (hlt : (q.execute no seq ts).1.total < 2 ^ 64) : q.HasRoom no := by
  intro hkind
  obtain ⟨hq', -⟩ := hq.tradeAll no.side.opposite no.accepts no.qty
  unfold PriorityBook.execute PriorityBook.settle at hlt
  dsimp only at hlt
  split at hlt
  · next hleft =>
    rw [hleft]
    exact hx.lt _ _
  · refine lt_of_le_of_lt ?_ hlt
    refine le_trans (le_of_eq ?_) (supply_queue_le _ no.side no.price)
    have hrest := queue_rest hq' { no.toOrder seq ts with
      remaining := no.qty - taken (fills no.accepts no.qty (q.makers no.side.opposite)) }
    change PriorityBook.queue _ no.side no.price =
      PriorityBook.queue _ no.side no.price ++ _ at hrest
    rw [queue_tradeAll] at hrest
    change _ = supply (PriorityBook.queue _ no.side no.price)
    rw [hrest, supply_append]
    simp [supply]

theorem hasRoom_of_total_enter (hq : q.WF) (hx : q.Exact) {seq : Seq} {ts : Ts}
    (hlt : (q.enter no seq ts).1.total < 2 ^ 64) (hreject : q.reject? no = none) :
    q.HasRoom no := by
  intro hkind
  unfold PriorityBook.enter at hlt
  rw [hreject] at hlt
  dsimp only at hlt
  rw [if_neg (by simp [hkind])] at hlt
  exact hasRoom_of_total hq hx hlt hkind

/-- As long as what rests adds up to no more than a word, there has been room. -/
theorem hasRoomFor_of_total (hq : q.WF) (hx : q.Exact) {cmd : Sequenced}
    (hlt : (q.apply cmd).1.total < 2 ^ 64) : q.HasRoomFor cmd.cmd := by
  obtain ⟨seq, ts, cmd⟩ := cmd
  cases cmd with
  | new no => exact hasRoom_of_total_enter hq hx hlt
  | cancel id symbol => trivial
  | replace id newPrice newQty symbol =>
    intro hzero o hlive
    obtain ⟨⟨side, ho⟩, -⟩ := hq.live?_eq_some.1 hlive
    simp only [PriorityBook.apply, hzero, if_false, hlive] at hlt
    exact hasRoom_of_total_enter (hq.drop ho) (hx.drop hq ho) hlt

end PriorityBook

/-! ## The order book -/

variable {A : Type} [Slab A Order] {b : OrderBook A} {σ : Queues Nat} {q : PriorityBook}

/-- What is left of the order in a slot. -/
def OrderBook.remainingAt (b : OrderBook A) (slot : Nat) : Nat :=
  match b.slot? slot with
  | some o => o.remaining.toNat
  | none => 0

/-- The total of every level is what is left of the orders linked in it, and positive. -/
def OrderBook.TotalsLinked (b : OrderBook A) : Prop :=
  ∀ side p l, b.level? side p = some l → ∃ slots,
    Chain (linksOf b.arena) l.head l.tail slots ∧
      l.totalQty.toNat = (slots.map b.remainingAt).sum ∧ 0 < l.totalQty

namespace Refines

theorem remainingAt_queue {hidden : Option Nat} (hr : Refines b σ hidden q) (side : Side)
    (p : Price) : ((σ side p).map b.remainingAt).sum = supply (q.queue side p) := by
  have h := hr.filed.queued side p
  generalize σ side p = slots, q.queue side p = orders at h
  induction h with
  | nil => rfl
  | @cons s o slots orders hs _ ih =>
    obtain ⟨o', ho', hu⟩ := get?_of_core hs
    have hat : b.remainingAt s = o'.remaining.toNat := by
      rw [OrderBook.remainingAt, show b.slot? s = some o' from ho']
    rw [List.map_cons, List.sum_cons, ih, supply, supply, Greedy.supply_cons, hat, ← hu]
    rfl

theorem totalsLinked_iff (hr : Refines b σ none q) : b.TotalsLinked ↔ q.Exact := by
  constructor
  · intro h side p
    cases hl : b.level? side p with
    | none =>
      obtain ⟨hnil, hbare⟩ := hr.bare_of_none hl
      rw [hbare, hnil]
      rfl
    | some l =>
      obtain ⟨slots, hchain, htotal, -⟩ := h side p l hl
      rw [hr.tally side p l hl, ← hr.remainingAt_queue,
        (hr.wired.chain side p l hl).unique hchain]
      exact htotal
  · intro h side p l hl
    have htotal := h side p
    rw [hr.tally side p l hl] at htotal
    refine ⟨σ side p, hr.wired.chain side p l hl, ?_, ?_⟩
    · rw [hr.remainingAt_queue]
      exact htotal
    · obtain ⟨o, ho⟩ := List.exists_mem_of_ne_nil _
        ((hr.present side p).1 (by rw [hl]; rfl))
      have hrem := toNat_ne_zero.2 (hr.wf.maker side o (mem_queue.1 ho).1).2.2
      have hle : o.remaining.toNat ≤ supply (q.queue side p) :=
        List.le_sum_of_mem (List.mem_map_of_mem ho)
      rw [UInt64.lt_iff_toNat_lt, UInt64.toNat_zero]
      change l.totalQty.toNat = _ at htotal
      omega

end Refines

end Exchange
