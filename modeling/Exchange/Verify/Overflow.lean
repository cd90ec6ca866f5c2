import Exchange.Core.Checked
import Exchange.Verify.PublishedDepth
import Exchange.Verify.Rejection

/-!
# No overflow where there is room

Of the checked operations only `push_back` can overflow: a fill takes no more than
either side has, what is filled and what is left of the taker add up to its quantity,
and putting a partly filled maker back adds less than the pop took off. So where what
comes to rest has room, the checked build does what the release build does.
-/

namespace Exchange

open PriorityBook

variable {A : Type} [Slab A Order] {b b' b₁ : OrderBook A} {σ : Queues Nat} {q : PriorityBook}
  {o : Order} {t : Aggressor}

/-! ## Checked steps -/

theorem checkedAdd_ok {a b : Qty} (h : a.toNat + b.toNat < 2 ^ 64) :
    a.checkedAdd b = .ok (a + b) := by
  refine if_neg fun hlt => ?_
  rw [UInt64.lt_iff_toNat_lt, UInt64.toNat_add, Nat.mod_eq_of_lt h] at hlt
  omega

theorem checkedSub_ok {a b : Qty} (h : b ≤ a) : a.checkedSub b = .ok (a - b) := by
  refine if_neg fun hlt => ?_
  rw [UInt64.lt_iff_toNat_lt] at hlt
  rw [UInt64.le_iff_toNat_le] at h
  omega

namespace Outcome

variable {α β : Type}

@[simp] theorem checked_ok (a : α) : Outcome.checked (.ok a) = .ok a := rfl

@[simp] theorem liftM_eq (x : Outcome α) : (liftM x : Checked α) = Outcome.checked x := rfl

/-- Steps without checked arithmetic may be sequenced in either build. -/
theorem checked_bind_congr {x : Outcome α} {f : α → Outcome β} {g : α → Checked β}
    (h : ∀ a, x = .ok a → g a = (f a).checked) : x.checked >>= g = (x >>= f).checked := by
  cases x with
  | error e => rfl
  | ok a => exact h a rfl

end Outcome

/-! ## Resting -/

/-- The cached total of a level, zero if there is none. -/
def OrderBook.totalAt (b : OrderBook A) (side : Side) (price : Price) : Qty :=
  ((b.level? side price).getD .new).totalQty

theorem pushBack_checked {l : PriceLevel} {slot : Nat} {qty : Qty}
    (hroom : l.totalQty.toNat + qty.toNat < 2 ^ 64) :
    Checked.pushBack l slot qty = .ok (l.pushBack slot qty) := by
  unfold Checked.pushBack
  rw [checkedAdd_ok hroom]
  rfl

theorem insertResting_checked {slot : Nat} (hroom : ∀ o, b.order slot = .ok o →
      (b.totalAt o.side o.price).toNat + o.remaining.toNat < 2 ^ 64) :
    Checked.insertResting b slot = (b.insertResting slot).checked := by
  refine Outcome.checked_bind_congr fun o ho => ?_
  dsimp only
  rw [pushBack_checked (hroom o ho), Fuel.ok_bind]
  exact Outcome.checked_bind_congr fun _ _ => rfl

/-! ## Trading -/

theorem remaining_of_core {s : Nat} (hcore : coreOf b'.arena s = coreOf b.arena s)
    (ho : b'.order s = .ok o) : ∃ o', b.order s = .ok o' ∧ o.remaining = o'.remaining := by
  have h := coreOf_of_slot? (slot?_of_order ho)
  rw [hcore] at h
  obtain ⟨o', ho', hu⟩ := get?_of_core h
  exact ⟨o', order_eq ho', (congrArg Order.remaining hu).symm⟩

theorem reinsertAtHead_checked {slot : Nat} {price : Price} {side : Side}
    (hroom : ∀ o, b.order slot = .ok o →
      (b.totalAt side price).toNat + o.remaining.toNat < 2 ^ 64) :
    Checked.reinsertAtHead b slot price side = (reinsertAtHead b slot price side).checked := by
  refine Outcome.checked_bind_congr fun b₁ h₁ => ?_
  refine Outcome.checked_bind_congr fun o₁ ho₁ => ?_
  have hcore := (Rewired.modifyOrder h₁ fun _ => rfl).core
  obtain ⟨o, ho, hrem⟩ := remaining_of_core (congrFun hcore slot) ho₁
  obtain ⟨a, rfl⟩ := modifyOrder_setArena h₁
  have hfit := hroom o ho
  rw [← hrem, OrderBook.totalAt, ← OrderBook.level?_setArena b a] at hfit
  dsimp only
  rw [checkedAdd_ok hfit, Fuel.ok_bind]
  exact Outcome.checked_bind_congr fun _ _ => rfl

theorem reduce_checked {s : Nat} {qty : Qty} (ho : b.order s = .ok o) (hle : qty ≤ o.remaining) :
    Checked.reduce b s qty =
      (b.modifyOrder s fun o => { o with remaining := o.remaining - qty }).checked := by
  refine Outcome.checked_bind_congr fun o' ho' => ?_
  cases ho.symm.trans ho'
  dsimp only
  rw [checkedSub_ok hle, Fuel.ok_bind, modifyOrder_eq (slot?_of_order ho)]
  rfl

theorem order_modifyOrder {s r : Nat} {f : Order → Order} (ho : b.order s = .ok o)
    (h : b.modifyOrder s f = .ok b') : b'.order r = if r = s then .ok (f o) else b.order r := by
  obtain ⟨o', ho', rfl⟩ := modifyOrder_inv h
  cases (slot?_of_order ho).symm.trans ho'
  have hget := Slab.get?_set b.arena s (f o) r (Option.isSome_iff_exists.2 ⟨o, ho'⟩)
  unfold OrderBook.order OrderBook.slot?
  rw [OrderBook.arena_setArena, hget]
  by_cases hr : r = s
  · rw [if_pos hr, if_pos hr]
  · rw [if_neg hr, if_neg hr]

theorem tradeWith_checked {s : Nat} {price : Price} (hne : s ≠ t.slot)
    (hroom : ∀ m, b.order s = .ok m →
      (b.totalAt t.side.opposite price).toNat + m.remaining.toNat < 2 ^ 64) (seq : Seq) (ts : Ts) :
    Checked.tradeWith b t s price seq ts = (tradeWith b t s price seq ts).checked := by
  refine Outcome.checked_bind_congr fun o (ho : b.order t.slot = .ok o) => ?_
  refine Outcome.checked_bind_congr fun m (hm : b.order s = .ok m) => ?_
  have hmin := toNat_min o.remaining m.remaining
  generalize min o.remaining m.remaining = n at hmin
  have hno : n ≤ o.remaining := by rw [UInt64.le_iff_toNat_le]; omega
  have hnm : n ≤ m.remaining := by rw [UInt64.le_iff_toNat_le]; omega
  dsimp only
  rw [reduce_checked ho hno]
  refine Outcome.checked_bind_congr fun b₁ h₁ => ?_
  have hm₁ : b₁.order s = .ok m := by rw [order_modifyOrder ho h₁, if_neg hne, hm]
  rw [reduce_checked hm₁ hnm]
  refine Outcome.checked_bind_congr fun b₂ h₂ => ?_
  have hm₂ := order_modifyOrder (r := s) hm₁ h₂
  rw [if_pos rfl] at hm₂
  refine Outcome.checked_bind_congr fun o₃ _ => ?_
  refine Outcome.checked_bind_congr fun m₃ hm₃ => ?_
  cases hm₂.symm.trans hm₃
  dsimp only
  split
  · exact Outcome.checked_bind_congr fun _ _ => rfl
  · rw [reinsertAtHead_checked fun m' hm' => ?_]
    · exact Outcome.checked_bind_congr fun _ _ => rfl
    · cases hm₂.symm.trans hm'
      obtain ⟨a₁, rfl⟩ := modifyOrder_setArena h₁
      obtain ⟨a₂, rfl⟩ := modifyOrder_setArena h₂
      have hfit := hroom m hm
      rw [OrderBook.totalAt, OrderBook.level?_setLastTrade, OrderBook.setArena_setArena,
        OrderBook.level?_setArena]
      rw [OrderBook.totalAt] at hfit
      dsimp only
      rw [UInt64.toNat_sub_of_le _ _ hnm]
      omega

/-- The pop takes what is left of the head off the total. -/
theorem popHead_total {side : Side} {p : Price} {s : Nat}
    (h : b.popHead side p = .ok (some s, b')) : ∃ l o, b.level? side p = some l ∧
      l.head = some s ∧ b.order s = .ok o ∧
      b'.totalAt side p = l.totalQty.satSub o.remaining := by
  unfold OrderBook.popHead at h
  split at h
  · cases h
  · next l hl =>
    split at h
    · cases h
    · next r hr =>
      obtain ⟨o, ho, h⟩ := Fuel.bind_eq_ok.1 h
      obtain ⟨b₁, h₁, h⟩ := Fuel.bind_eq_ok.1 h
      cases h
      refine ⟨l, o, hl, hr, ho, ?_⟩
      obtain ⟨a, rfl⟩ := modifyLinked_setArena h₁
      rw [OrderBook.totalAt, OrderBook.level?_setArena, OrderBook.level?_putLevel,
        if_pos ⟨rfl, rfl⟩]
      simp [PriceLevel.popFront, hr]

/-- An iteration of the match loop does not overflow. -/
theorem matchStep_checked (hr : Refines b σ (some t.slot) q) (seq : Seq) (ts : Ts) :
    Checked.matchStep b t seq ts = (matchStep b t seq ts).checked := by
  refine Outcome.checked_bind_congr fun o _ => ?_
  by_cases hzero : o.remaining = 0
  · simp only [hzero, if_true]
    rfl
  · simp only [hzero, if_false]
    cases hbest : b.best? t.side.opposite with
    | none => rfl
    | some e =>
      obtain ⟨price, _⟩ := e
      dsimp only
      by_cases hcross : t.crosses price = true
      · simp only [hcross, if_true]
        refine Outcome.checked_bind_congr fun r hpop => ?_
        obtain ⟨popped, b₁⟩ := r
        cases popped with
        | none => rfl
        | some s =>
          obtain ⟨l, m, hl, hhead, hm, htotal⟩ := popHead_total hpop
          have hσ : s ∈ σ t.side.opposite price :=
            List.mem_of_head? ((hr.wired.chain _ _ _ hl).head_eq ▸ hhead)
          have hne : s ≠ t.slot := ne_of_mem_of_not_mem hσ ((hr.filed.loose _ rfl).1 _ _)
          dsimp only
          rw [tradeWith_checked hne fun m₁ hm₁ => ?_]
          · exact Outcome.checked_bind_congr fun _ _ => rfl
          · obtain ⟨m', hm', hrem⟩ :=
              remaining_of_core (congrFun (Rewired.popHead hpop).core s) hm₁
            cases hm.symm.trans hm'
            have := l.totalQty.toNat_lt
            have := m.remaining.toNat_lt
            rw [htotal, toNat_satSub, hrem]
            omega
      · simp only [hcross]
        rfl

/-- What is filled and what is left add up to the quantity of the taker. -/
theorem matchLoop_checked (hr : Refines b σ (some t.slot) q) (ho : coreOf b.arena t.slot = some o)
    {total : Qty} (hfit : total.toNat + o.remaining.toNat < 2 ^ 64) (seq : Seq) (ts : Ts)
    (fuel : Nat) :
    Checked.matchLoop t seq ts fuel b total = (matchLoop t seq ts fuel b total).checked := by
  induction fuel generalizing b σ q o total with
  | zero => rfl
  | succ fuel ih =>
    unfold Checked.matchLoop matchLoop
    rw [matchStep_checked hr]
    refine Outcome.checked_bind_congr fun r hstep => ?_
    by_cases hstop : o.remaining = 0 ∨
        ∀ m ∈ (q.makers t.side.opposite).head?, t.crosses m.price = false
    · cases (matchStep_stop hr ho hstop seq ts).symm.trans hstep
      rfl
    · obtain ⟨hn, hhead⟩ := not_or.1 hstop
      cases hms : q.makers t.side.opposite with
      | nil => simp [hms] at hhead
      | cons m ms =>
        have hok : t.crosses m.price = true := by simpa [hms] using hhead
        obtain ⟨b₁, σ₁, hstep₁, hr₁, ho₁, -⟩ := matchStep_trade hr ho hms hn hok seq ts
        cases hstep₁.symm.trans hstep
        have hle : (min o.remaining m.remaining).toNat ≤ o.remaining.toNat :=
          UInt64.le_iff_toNat_le.1 (min_le_left o.remaining m)
        have hadd : (total + min o.remaining m.remaining).toNat =
            total.toNat + (min o.remaining m.remaining).toNat := by
          rw [UInt64.toNat_add, Nat.mod_eq_of_lt (by omega)]
        dsimp only
        rw [checkedAdd_ok (by omega), Fuel.ok_bind, ih hr₁ ho₁ ?_]
        · exact Outcome.checked_bind_congr fun _ _ => rfl
        · dsimp only
          rw [hadd, UInt64.toNat_sub_of_le _ _ (min_le_left o.remaining m)]
          omega

/-! ## New orders -/

theorem settle_checked {no : NewOrder} {slot : Nat} {filled : Qty} (hroom : no.kind = .limit →
      ∀ o, b.order slot = .ok o → (b.totalAt o.side o.price).toNat + o.remaining.toNat < 2 ^ 64)
    (seq : Seq) :
    Checked.settle b no slot filled seq = (settle b no slot filled seq).checked := by
  have hrest : no.kind = .limit →
      Checked.restOrder b no slot = (restOrder b no slot).checked := by
    intro hkind
    refine insertResting_checked fun o ho => ?_
    rw [OrderBook.totalAt, OrderBook.level?_setIndex]
    exact hroom hkind o ho
  refine Outcome.checked_bind_congr fun o _ => ?_
  dsimp only
  by_cases hdone : filled > 0 ∧ o.remaining = 0
  · rw [if_pos hdone, if_pos hdone]
    exact Outcome.checked_bind_congr fun _ _ => rfl
  · rw [if_neg hdone, if_neg hdone]
    by_cases hfilled : filled > 0
    · rw [if_pos hfilled, if_pos hfilled]
      by_cases hkind : no.kind = .limit
      · rw [if_pos hkind, if_pos hkind, hrest hkind]
        exact Outcome.checked_bind_congr fun _ _ => rfl
      · rw [if_neg hkind, if_neg hkind]
        exact Outcome.checked_bind_congr fun _ _ => rfl
    · rw [if_neg hfilled, if_neg hfilled]
      cases hkind : no.kind with
      | limit =>
        dsimp only
        rw [hrest hkind]
        exact Outcome.checked_bind_congr fun _ _ => rfl
      | market => exact Outcome.checked_bind_congr fun _ _ => rfl
      | ioc => exact Outcome.checked_bind_congr fun _ _ => rfl
      | fok => exact Outcome.checked_bind_congr fun _ _ => rfl
      | stopMarket => rfl
      | stopLimit => rfl

theorem Refines.totalAt_toNat {hidden : Option Nat} (hr : Refines b σ hidden q) (hx : q.Exact)
    (side : Side) (p : Price) : (b.totalAt side p).toNat = supply (q.queue side p) := by
  rw [← hx side p]
  cases hl : b.level? side p with
  | none =>
    have hnil : q.queue side p = [] := by
      by_contra hne
      have := (hr.present side p).2 hne
      rw [hl] at this
      cases this
    rw [OrderBook.totalAt, hl, hr.wf.bare side p hnil]
    rfl
  | some l =>
    rw [OrderBook.totalAt, hl, hr.tally side p l hl]
    rfl

theorem execute_checked (hr : Refines b σ none q) (hx : q.Exact) {no : NewOrder}
    (hroom : q.HasRoom no) {fuel : Nat} (hfuel : (q.makers no.side.opposite).length + 2 ≤ fuel)
    (seq : Seq) (ts : Ts) :
    Checked.execute fuel b no seq ts = (execute fuel b no seq ts).checked := by
  have hr₀ := hr.enter (no.toOrder seq ts)
  unfold Checked.execute execute
  generalize hslot : Slab.vacantKey b.arena = slot at hr₀ ⊢
  generalize hb₀ : b.setArena (Slab.insert b.arena (no.toOrder seq ts)) = b₀ at hr₀ ⊢
  have ho₀ : coreOf b₀.arena slot = some (no.toOrder seq ts) := by
    rw [← hb₀, OrderBook.arena_setArena, coreOf_insert, hslot, Function.update_self]
    rfl
  obtain ⟨o', ho', hu', -⟩ := order_of_core ho₀
  have hside : o'.side = no.side := congrArg Order.side hu'
  have hkind : o'.kind = no.kind := congrArg Order.kind hu'
  have hprice : o'.price = no.price := congrArg Order.price hu'
  obtain ⟨b₁, σ₁, hloop, hr₁, ho₁, -⟩ :=
    matchLoop_sweeps (t := ⟨slot, no.side, no.kind, no.price⟩) hr₀ ho₀ hfuel seq ts 0 rfl
  have hmatch : matchOrder fuel b₀ slot seq ts =
      matchLoop ⟨slot, no.side, no.kind, no.price⟩ seq ts fuel b₀ 0 := by
    unfold matchOrder
    rw [ho', Fuel.ok_bind, hside, hkind, hprice]
  have hmatch' : Checked.matchOrder fuel b₀ slot seq ts =
      (matchOrder fuel b₀ slot seq ts).checked := by
    rw [hmatch]
    unfold Checked.matchOrder
    rw [ho']
    refine Eq.trans ?_ (matchLoop_checked (t := ⟨slot, no.side, no.kind, no.price⟩) hr₀ ho₀ ?_
      seq ts fuel)
    · rw [← hside, ← hkind, ← hprice]
      rfl
    · rw [UInt64.toNat_zero, Nat.zero_add]
      exact UInt64.toNat_lt _
  dsimp only
  rw [hmatch']
  refine Outcome.checked_bind_congr fun r hres => ?_
  rw [hmatch, hloop] at hres
  cases hres
  dsimp only
  rw [settle_checked fun hlimit o ho => ?_]
  · exact Outcome.checked_bind_congr fun _ _ => rfl
  · have hcore := coreOf_of_slot? (slot?_of_order ho)
    rw [ho₁] at hcore
    have hfields := Option.some.inj hcore
    have hside : o.side = no.side := (congrArg Order.side hfields).symm
    have hprice : o.price = no.price := (congrArg Order.price hfields).symm
    have hrem : o.remaining =
        no.qty - taken (fills no.accepts no.qty (q.makers no.side.opposite)) :=
      (congrArg Order.remaining hfields).symm
    rw [hside, hprice, hrem, hr₁.totalAt_toNat (hx.tradeAll _ _ _)]
    have hqueue := queue_tradeAll (q := q) no.side
      (fills no.accepts no.qty (q.makers no.side.opposite)) no.price
    exact (congrArg (fun l => supply l + _ < 2 ^ 64) hqueue).mpr (hroom hlimit)

theorem triggerStops_checked_of_empty (hbuys : b.stopBuys = ∅) (hsells : b.stopSells = ∅)
    (resubmit : OrderBook A → NewOrder → Checked (OrderBook A × List OutputEvent))
    (resubmit' : OrderBook A → NewOrder → Outcome (OrderBook A × List OutputEvent))
    (last : Price) :
    Checked.triggerStops resubmit b last = (triggerStops resubmit' b last).checked := by
  have hretain : ∀ side, b.triggered side last = [] ∧ b.retainStops side last = b := by
    intro side
    have hstops : b.stops side = ∅ := by
      cases side
      · exact hbuys
      · exact hsells
    refine ⟨by simp [OrderBook.triggered, hstops], ?_⟩
    rw [OrderBook.retainStops, hstops, filter_empty, ← hstops]
    cases side <;> rfl
  have hside : ∀ side, Checked.triggerSide resubmit b side last = .ok (b, []) := by
    intro side
    obtain ⟨htriggered, hretain⟩ := hretain side
    rw [Checked.triggerSide, htriggered]
    simp [Checked.activateAll, hretain]
  rw [triggerStops_of_empty hbuys hsells]
  simp [Checked.triggerStops, hside]

theorem applyNew_checked (hr : Refines b σ none q) (hfree : q.StopFree) (hx : q.Exact)
    {no : NewOrder} (hkind : no.kind.isStop = false)
    (hroom : q.reject? no = none → q.HasRoom no) (seq : Seq) (ts : Ts) {fuel : Nat}
    (hfuel : (q.makers no.side.opposite).length + 2 ≤ fuel) :
    Checked.applyNew seq ts (fuel + 1) b no = (applyNew seq ts (fuel + 1) b no).checked := by
  unfold Checked.applyNew applyNew
  rw [hr.validate_eq hfree.held]
  cases hreject : q.reject? no with
  | some reason => rfl
  | none =>
    have hstop : ¬no.kind.isStop = true := by simp [hkind]
    dsimp only
    rw [if_neg hstop, if_neg hstop]
    by_cases hfok : no.kind = .fok ∧ availableQty b no.side no.price < no.qty
    · rw [if_pos hfok, if_pos hfok]
      rfl
    · rw [if_neg hfok, if_neg hfok, execute_checked hr hx (hroom hreject) hfuel]
      refine Outcome.checked_bind_congr fun r hexec => ?_
      obtain ⟨b₁, events⟩ := r
      have hid : b.idIndex[no.id]? = none := by
        rw [hr.index_none_iff hfree.held]
        exact live?_of_reject?_none hreject
      obtain ⟨b₁', σ₁, hexec', hr₁, -⟩ :=
        execute_refines hr (qty_of_reject?_none hreject) hkind hid hfuel seq ts
      cases hexec'.symm.trans hexec
      have hfree₁ := hfree.execute no seq ts
      dsimp only
      cases hlast : b₁.lastTrade with
      | none => rfl
      | some last =>
        dsimp only
        rw [triggerStops_checked_of_empty (hr₁.stopBuys.trans hfree₁.buys)
          (hr₁.stopSells.trans hfree₁.sells) _ (applyNew seq ts fuel)]
        exact Outcome.checked_bind_congr fun _ _ => rfl

/-! ## Commands -/

/-- A new order, in either build. -/
theorem new_checked (hr : Refines b σ none q) (hfree : q.StopFree) (hx : q.Exact)
    {no : NewOrder} (hkind : no.kind.isStop = false) (hroom : q.HasRoomFor (.new no)) (seq : Seq)
    (ts : Ts) : ∃ b' events, Applies b ⟨seq, ts, .new no⟩ b' events ∧
      CheckedApplies b ⟨seq, ts, .new no⟩ b' events := by
  obtain ⟨b', σ', hcall, -⟩ := applyNew_refines hr hfree hkind seq ts
  have hchecked := applyNew_checked hr hfree hx hkind hroom seq ts (Nat.le_refl _)
  exact ⟨b', _, ⟨(q.makers no.side.opposite).length + 3, hcall⟩,
    (q.makers no.side.opposite).length + 3, hchecked.trans (congrArg Outcome.checked hcall)⟩

/-- A replace of a live order, in either build. -/
theorem replace_checked (hr : Refines b σ none q) (hfree : q.StopFree) (hx : q.Exact)
    {id : OrderId} {newPrice : Price} {newQty : Qty} {symbol : SymbolId} (hqty : newQty ≠ 0)
    (hlive : q.live? id = some o) (hroom : q.HasRoomFor (.replace id newPrice newQty symbol))
    (seq : Seq) (ts : Ts) : ∃ b' events,
      Applies b ⟨seq, ts, .replace id newPrice newQty symbol⟩ b' events ∧
        CheckedApplies b ⟨seq, ts, .replace id newPrice newQty symbol⟩ b' events := by
  obtain ⟨⟨side, hmem⟩, -⟩ := hr.wf.live?_eq_some.1 hlive
  obtain ⟨s, hidx, ho, hs⟩ := hr.locate hlive
  obtain ⟨b₁, b₂, σ', h₁, h₂, hr', -⟩ := hr.takeOut_maker hidx ho hs
  obtain ⟨o', ho', hu, -⟩ := order_of_core ho
  have ho' : (b.setIndex (b.idIndex.erase id)).order s = .ok o' := ho'
  have hrem : o'.remaining = o.remaining := by rw [← hu]; rfl
  have hside : o'.side = o.side := by rw [← hu]; rfl
  have hrepl : o'.replacement id newPrice newQty = o.replacement id newPrice newQty := by
    rw [← hu]
    rfl
  have hkind : (o.replacement id newPrice newQty).kind.isStop = false := by
    have hk : (o.replacement id newPrice newQty).kind = .limit := (hr.wf.maker side o hmem).1
    rw [hk]
    rfl
  -- what is left is a new order on the book without the old one
  have hchecked := applyNew_checked hr' (hfree.drop o) (hx.drop hr.wf hmem) hkind
    (hroom hqty o hlive) seq ts (Nat.le_refl _)
  obtain ⟨b₃, σ₃, hb₃, -⟩ := applyNew_refines hr' (hfree.drop o) hkind seq ts
  change applyNew seq ts (_ + 2 + 1) b₂ _ = _ at hb₃
  generalize ((q.drop o).makers (o.replacement id newPrice newQty).side.opposite).length + 2 =
    fuel at hchecked hb₃
  have hrelease : applyWithin (fuel + 1) b ⟨seq, ts, .replace id newPrice newQty symbol⟩ =
      .ok (b₃, .replaced id seq ::
        ((q.drop o).enter (o.replacement id newPrice newQty) seq ts).2) := by
    simp only [applyWithin, applyReplace, hqty, if_false, hidx, ho', Fuel.ok_bind, hrem,
      hside, h₁, h₂, hrepl, hb₃]
    rfl
  have hagree : Checked.applyWithin (fuel + 1) b
        ⟨seq, ts, .replace id newPrice newQty symbol⟩ =
      (applyWithin (fuel + 1) b ⟨seq, ts, .replace id newPrice newQty symbol⟩).checked := by
    simp only [applyWithin, applyReplace, Checked.applyWithin, Checked.applyReplace, hqty,
      if_false, hidx]
    refine Outcome.checked_bind_congr fun x hx => ?_
    cases ho'.symm.trans hx
    refine Outcome.checked_bind_congr fun y hy => ?_
    rw [hside, hrem] at hy
    cases h₁.symm.trans hy
    refine Outcome.checked_bind_congr fun z hz => ?_
    cases h₂.symm.trans hz
    rw [hrepl, hchecked]
    exact Outcome.checked_bind_congr fun _ _ => rfl
  exact ⟨b₃, _, ⟨_, hrelease⟩, _, hagree.trans (congrArg Outcome.checked hrelease)⟩

/-- **The step.** Where there is room, the checked build returns what the release build
returns. -/
theorem apply_checked (hr : Refines b σ none q) (hfree : q.StopFree) (hx : q.Exact)
    {cmd : Sequenced} (hcmd : cmd.cmd.StopFree) (hroom : q.HasRoomFor cmd.cmd)
    {events : List OutputEvent} (happ : Applies b cmd b' events) :
    CheckedApplies b cmd b' events := by
  obtain ⟨seq, ts, cmd⟩ := cmd
  cases cmd with
  | new no =>
    obtain ⟨b₂, events₂, happ₂, hchecked⟩ := new_checked hr hfree hx hcmd hroom seq ts
    obtain ⟨rfl, rfl⟩ := Applies.unique happ happ₂
    exact hchecked
  | cancel id symbol =>
    obtain ⟨n, hn⟩ := happ
    exact ⟨n, congrArg Outcome.checked hn⟩
  | replace id newPrice newQty symbol =>
    by_cases hqty : newQty = 0
    · obtain ⟨n, hn⟩ := happ
      simp only [applyWithin, applyReplace, hqty, if_true] at hn
      cases hn
      exact ⟨n, by simp [Checked.applyWithin, Checked.applyReplace, hqty]⟩
    · cases hlive : q.live? id with
      | none =>
        have hidx := (hr.index_none_iff hfree.held).2 hlive
        obtain ⟨n, hn⟩ := happ
        simp only [applyWithin, applyReplace, hqty, if_false, hidx] at hn
        cases hn
        exact ⟨n, by simp [Checked.applyWithin, Checked.applyReplace, hqty, hidx]⟩
      | some o =>
        obtain ⟨b₂, events₂, happ₂, hchecked⟩ :=
          replace_checked hr hfree hx hqty hlive hroom seq ts
        obtain ⟨rfl, rfl⟩ := Applies.unique happ happ₂
        exact hchecked

/-! ## Room in the order book -/

/-- What is left of the live orders at a price. -/
def OrderBook.restingAt (b : OrderBook A) (side : Side) (price : Price) : Nat :=
  (((b.liveOrders side).filter fun o => o.price = price).map (·.remaining.toNat)).sum

/-- What is left of the live orders that an aggressor with this limit crosses. -/
def OrderBook.crossing (b : OrderBook A) (aggressor : Side) (limit : Price) : Nat :=
  (((b.liveOrders aggressor.opposite).filter
    fun o => aggressor.withinLimit limit o.price).map (·.remaining.toNat)).sum

/-- What a limit order that is not refused leaves after matching fits the total of its
level. The order a replace takes out first is not counted. -/
def OrderBook.Fits (b : OrderBook A) : Command → Prop
  | .new no => validate b no = none → no.kind = .limit →
      b.restingAt no.side no.price + (no.qty.toNat - b.crossing no.side no.price) < 2 ^ 64
  | .cancel _ _ => True
  | .replace id newPrice newQty _ => newQty ≠ 0 → 0 < newPrice →
      ∀ loc o, b.idIndex[id]? = some loc → b.slot? loc.slot = some o →
        b.restingAt o.side newPrice - (if o.price = newPrice then o.remaining.toNat else 0) +
          (newQty.toNat - b.crossing o.side newPrice) < 2 ^ 64

instance OrderBook.decidableFits (b : OrderBook A) : ∀ c : Command, Decidable (b.Fits c)
  | .new no => inferInstanceAs (Decidable (validate b no = none → no.kind = .limit →
      b.restingAt no.side no.price + (no.qty.toNat - b.crossing no.side no.price) < 2 ^ 64))
  | .cancel _ _ => isTrue trivial
  | .replace id newPrice newQty _ => decidable_of_iff (newQty ≠ 0 → 0 < newPrice →
      ∀ loc ∈ b.idIndex[id]?, ∀ o ∈ b.slot? loc.slot,
        b.restingAt o.side newPrice - (if o.price = newPrice then o.remaining.toNat else 0) +
          (newQty.toNat - b.crossing o.side newPrice) < 2 ^ 64)
      ⟨fun h hq hp loc o hloc ho => h hq hp loc hloc o ho,
        fun h hq hp loc hloc o ho => h hq hp loc o hloc ho⟩

theorem restingAt_eq (hr : Refines b σ none q) (hfree : q.StopFree) (side : Side) (p : Price) :
    b.restingAt side p = supply (q.queue side p) :=
  (((liveOrders_perm hr hfree side).filter _).map _).sum_eq

theorem crossing_eq (hr : Refines b σ none q) (hfree : q.StopFree) (aggressor : Side)
    (limit : Price) : b.crossing aggressor limit =
      supply ((q.makers aggressor.opposite).filter
        fun o => aggressor.withinLimit limit o.price) :=
  (((liveOrders_perm hr hfree aggressor.opposite).filter _).map _).sum_eq

namespace PriorityBook

/-- What is left of a limit order after matching. -/
theorem WF.left_of_limit (hq : q.WF) {no : NewOrder} (hkind : no.kind = .limit) :
    (no.qty - taken (fills no.accepts no.qty (q.makers no.side.opposite))).toNat =
      no.qty.toNat - supply ((q.makers no.side.opposite).filter
        fun o => no.side.withinLimit no.price o.price) := by
  obtain ⟨htaken, hle⟩ := @toNat_taken no.accepts no.qty (q.makers no.side.opposite)
  have haccepts : (fun o : Order => no.accepts o.price) =
      fun o => no.side.withinLimit no.price o.price := by
    funext o
    simp [NewOrder.accepts, hkind, OrderType.sweepsAll]
  rw [UInt64.toNat_sub_of_le _ _ hle, htaken, fills_toNat, Greedy.total_fills, haccepts,
    hq.takeWhile_withinLimit]
  change _ - min _ (supply _) = _
  omega

theorem supply_queue_drop (hq : q.WF) {side : Side} (ho : o ∈ q.makers side) (p : Price) :
    supply ((q.drop o).queue o.side p) =
      supply (q.queue o.side p) - if o.price = p then o.remaining.toNat else 0 := by
  obtain ⟨-, rfl, -⟩ := hq.maker side o ho
  rw [PriorityBook.queue, PriorityBook.drop, makers_put_self]
  by_cases hp : o.price = p
  · subst hp
    obtain ⟨l₁, l₂, hl⟩ :=
      List.append_of_mem (mem_queue.2 ⟨ho, rfl⟩ : o ∈ q.queue o.side o.price)
    rw [if_pos rfl, filter_drop_self hq hl, hl, supply_append, supply_append,
      show supply (o :: l₂) = o.remaining.toNat + supply l₂ from Greedy.supply_cons o l₂]
    omega
  · rw [if_neg hp, filter_drop_of_ne hq ho (Ne.symm hp), Nat.sub_zero]

end PriorityBook

/-- A command that fits has room. -/
theorem hasRoomFor_of_fits (hr : Refines b σ none q) (hfree : q.StopFree) {c : Command}
    (hfits : b.Fits c) : q.HasRoomFor c := by
  cases c with
  | new no =>
    intro hreject hkind
    have hfits := hfits (by rw [hr.validate_eq hfree.held, hreject]) hkind
    rw [restingAt_eq hr hfree, crossing_eq hr hfree] at hfits
    rw [hr.wf.left_of_limit hkind]
    exact hfits
  | cancel id symbol => trivial
  | replace id newPrice newQty symbol =>
    intro hzero o hlive hreject hkind
    obtain ⟨⟨side, hmem⟩, -⟩ := hr.wf.live?_eq_some.1 hlive
    obtain ⟨hlimit, rfl, -⟩ := hr.wf.maker side o hmem
    obtain ⟨s, hidx, ho, -⟩ := hr.locate hlive
    obtain ⟨o', ho', hu⟩ := get?_of_core ho
    have hneeds : (o.replacement id newPrice newQty).kind.needsPrice = true := by rw [hkind]; rfl
    have hprice : 0 < newPrice := Price.pos_iff.2 (price_of_reject?_none hreject hneeds)
    have hfits := hfits hzero hprice _ o' hidx ho'
    have hside : o'.side = o.side := by rw [← hu]; rfl
    have hprice' : o'.price = o.price := by rw [← hu]; rfl
    have hrem : o'.remaining = o.remaining := by rw [← hu]; rfl
    rw [hside, hprice', hrem, restingAt_eq hr hfree, crossing_eq hr hfree] at hfits
    rw [(hr.wf.drop hmem).left_of_limit hkind]
    have hmakers : (q.drop o).makers (o.replacement id newPrice newQty).side.opposite =
        q.makers o.side.opposite := makers_put_of_ne (Side.opposite_ne o.side)
    rw [hmakers]
    have hqueue := supply_queue_drop hr.wf hmem newPrice
    exact (congrArg (fun n => n + _ < 2 ^ 64) hqueue).mpr hfits

/-! ## Runs -/

/-- No total has wrapped, and the checked build returns what the release build returns. -/
structure NoOverflow (b : OrderBook A) : Prop where
  totals : b.TotalsLinked
  apply : ∀ cmd b' events, cmd.cmd.StopFree → b.Fits cmd.cmd → Applies b cmd b' events →
    CheckedApplies b cmd b' events

/-- The fill-or-kill check sees all the liquidity that crosses. -/
def OrderBook.SeesCrossing (b : OrderBook A) (aggressor : Side) (limit : Price) : Prop :=
  (availableQty b aggressor limit).toNat = b.crossing aggressor limit

/-- The book is reached by commands none of which submits a stop order, and what each of
them leaves to rest fits. -/
def ReachesFitting (symbol : SymbolId) (tick : Price) (log : List Entry) (b : OrderBook A) : Prop :=
  Transition.Run (Transition.restrict (fun b e => e.1.cmd.StopFree ∧ b.Fits e.1.cmd) ApplyStep)
    (OrderBook.new symbol tick) log b

variable {symbol : SymbolId} {tick : Price} {log : List Entry}

theorem reachesFitting_exact (h : ReachesFitting symbol tick log b) :
    ∃ q, (∃ σ, Refines b σ none q) ∧ q.StopFree ∧ q.Exact := by
  refine Transition.Run.invariant
    (I := fun _ b => ∃ q, (∃ σ, Refines b σ none q) ∧ q.StopFree ∧ q.Exact)
    ⟨_, ⟨_, Refines.new symbol tick⟩, ⟨fun _ => rfl, rfl, rfl⟩, .new symbol tick⟩ ?_ h
  rintro _ b e b' _ ⟨q, ⟨σ, hr⟩, hfree, hx⟩ ⟨⟨hcmd, hfits⟩, hstep⟩
  obtain ⟨b'', σ', happ, hr', hfree'⟩ := apply_refines hr hfree hcmd
  obtain ⟨rfl, -⟩ := Applies.unique hstep happ
  exact ⟨_, ⟨σ', hr'⟩, hfree', hx.apply hr.wf (hasRoomFor_of_fits hr hfree hfits)⟩

theorem totalAt_toNat_eq (h : ReachesStopFree symbol tick log b) (htotals : b.TotalsLinked)
    (side : Side) (p : Price) : (b.totalAt side p).toNat = b.restingAt side p := by
  obtain ⟨q, -, ⟨σ, hr⟩, hfree⟩ := reaches_refines h
  rw [hr.totalAt_toNat (hr.totalsLinked_iff.1 htotals), restingAt_eq hr hfree]

/-- **No overflow.** In a run whose remainders fit nothing overflows, and the fill-or-kill
check sees what crosses exactly as far as it can be counted in a machine word. -/
theorem reachesFitting_noOverflow (h : ReachesFitting symbol tick log b) :
    NoOverflow b ∧
      ∀ aggressor limit, b.SeesCrossing aggressor limit ↔ b.crossing aggressor limit < 2 ^ 64 := by
  obtain ⟨q, ⟨σ, hr⟩, hfree, hx⟩ := reachesFitting_exact h
  refine ⟨⟨hr.totalsLinked_iff.2 hx, fun cmd b' events hcmd hfits happ => ?_⟩,
    fun aggressor limit => ?_⟩
  · exact apply_checked hr hfree hx hcmd (hasRoomFor_of_fits hr hfree hfits) happ
  · have hmin : (availableQty b aggressor limit).toNat =
        min (2 ^ 64 - 1) (b.crossing aggressor limit) := by
      rw [hr.availableQty_eq, hr.wf.available_eq, crossing_eq hr hfree, ← sum_withinLimit]
      simp only [hx _ _]
    rw [OrderBook.SeesCrossing, hmin]
    omega

theorem reachesFitting_noOverflow_sample : ∃ (b : OrderBook (VecSlab Order)) (log : List Entry),
    ReachesFitting 0 1 log b ∧ b.restingAt .buy 101 = 4 ∧ NoOverflow b ∧
      b.SeesCrossing .sell 100 := by
  have hok : ∃ r,
      applyAll 9 (OrderBook.new 0 1 : OrderBook (VecSlab Order)) sampleCommands = .ok r ∧
      stepsHold 9 (fun b cmd _ => cmd.cmd.StopFree && b.Fits cmd.cmd)
        (OrderBook.new 0 1 : OrderBook (VecSlab Order)) sampleCommands = true ∧
      r.1.restingAt .buy 101 = 4 ∧ r.1.crossing .sell 100 < 2 ^ 64 := by
    refine ⟨_, rfl, ?_⟩
    decide +kernel
  obtain ⟨⟨b, log⟩, hrun, htest, hresting, hcross⟩ := hok
  have hreach : ReachesFitting 0 1 log b := by
    refine (run_of_stepsHold hrun htest).mono fun b e b' h => ?_
    obtain ⟨hcmd, hfits⟩ := Bool.and_eq_true_iff.1 h.1
    exact ⟨⟨of_decide_eq_true hcmd, of_decide_eq_true hfits⟩, h.2⟩
  obtain ⟨hno, hsees⟩ := reachesFitting_noOverflow hreach
  exact ⟨b, log, hreach, hresting, hno, (hsees .sell 100).2 hcross⟩

/-- A bid of the largest quantity. -/
def largestBid : Sequenced := ⟨1, 0, .new ⟨1, 0, .buy, .limit, .gtc, 100, 0, 18446744073709551615⟩⟩

/-- One more at the same price. -/
def overflowingBid : Sequenced := ⟨2, 0, .new ⟨2, 0, .buy, .limit, .gtc, 100, 0, 1⟩⟩

def fokSell : NewOrder := ⟨3, 0, .sell, .fok, .gtc, 100, 0, 5⟩

/-- Two bids that are both accepted wrap the total of their level to zero, where the
checked build panics, and the fill-or-kill sell that crosses both is killed. -/
theorem push_back_overflows : ∃ (b b' : OrderBook (VecSlab Order)) (log : List Entry),
    ReachesStopFree 0 1 log b ∧ overflowingBid.cmd.StopFree ∧
      Applies b overflowingBid b' [.accepted 2 2] ∧
      Checked.applyWithin 9 b overflowingBid = .error .overflow ∧
      b'.totalAt .buy 100 = 0 ∧ availableQty b' .sell 100 = 0 ∧ b'.crossing .sell 100 = 2 ^ 64 ∧
      Applies b' ⟨3, 0, .new fokSell⟩ b' [.accepted 3 3, .rejected 3 .fokUnfillable 3] ∧
      ¬NoOverflow b' ∧ ¬b'.SeesCrossing .sell 100 := by
  have hok : ∃ r r', applyAll 9 (OrderBook.new 0 1 : OrderBook (VecSlab Order)) [largestBid] =
        .ok r ∧ applyWithin 9 r.1 overflowingBid = .ok r' ∧ r'.2 = [.accepted 2 2] ∧
      Checked.applyWithin 9 r.1 overflowingBid = .error .overflow ∧
      r'.1.totalAt .buy 100 = 0 ∧ availableQty r'.1 .sell 100 = 0 ∧
      r'.1.crossing .sell 100 = 2 ^ 64 ∧ r'.1.restingAt .buy 100 = 2 ^ 64 ∧
      validate r'.1 fokSell = none := by
    refine ⟨_, _, rfl, rfl, rfl, rfl, ?_⟩
    decide +kernel
  obtain ⟨⟨b, log⟩, ⟨b', events⟩, hrun, happ, hevents, hpanic, htotal, havail, hcross, hresting,
    hvalid⟩ := hok
  have hevents : events = [.accepted 2 2] := hevents
  subst hevents
  have hreach := reachesStopFree_applyAll hrun (by decide)
  have hnext : ReachesStopFree 0 1 (log ++ [(overflowingBid, [.accepted 2 2])]) b' :=
    hreach.snoc ⟨rfl, 9, happ⟩
  refine ⟨b, b', log, hreach, rfl, ⟨9, happ⟩, hpanic, htotal, havail, hcross, ?_, fun h => ?_,
    fun h => ?_⟩
  · have hkilled : fokSell.kind = .fok ∧ availableQty b' fokSell.side fokSell.price < fokSell.qty :=
      ⟨rfl, havail ▸ by decide⟩
    refine ⟨1, ?_⟩
    simp only [applyWithin, applyNew, hvalid, hkilled]
    rfl
  · have hsame := totalAt_toNat_eq hnext h.totals .buy 100
    rw [htotal, hresting] at hsame
    exact absurd hsame (by decide)
  · rw [OrderBook.SeesCrossing, havail, hcross] at h
    exact absurd h (by decide)

end Exchange
