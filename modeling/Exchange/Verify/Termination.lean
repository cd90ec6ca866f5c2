import Exchange.Verify.TriggerRecursion

/-!
# Termination of `apply`

Before a command is applied its book says which prices it may trade at and so
which filed slots it may trigger. While these are vacant or hold stop market
orders, `apply` returns. A stop limit order that comes to rest takes the slot it
has just left, which is still filed, and is activated again forever.
-/

namespace Exchange

open PriorityBook

variable {A : Type} [Slab A Order] {b b' : OrderBook A} {q q' : PriorityBook} {no : NewOrder}
  {side : Side} {t p : Price} {s n : Nat}

/-! ## The submitted order -/

/-- The stops between two books: nothing but completed activations in between. -/
def Settles (b : OrderBook A) (q : PriorityBook) (b' : OrderBook A) (q' : PriorityBook) : Prop :=
  ∃ b₁ q₁, q₁.held = q.held ∧ (∀ side, b₁.stops side = b.stops side) ∧ Cascade [] b₁ q₁ b' q'

theorem Settles.refl (b : OrderBook A) (q : PriorityBook) : Settles b q b q :=
  ⟨b, q, rfl, fun _ => rfl, .refl b q⟩

/-- What is asked of an order before it is matched: the prices `R` cover the trades
that it and the stops it triggers may do, these stops are stop market orders, and it
takes no slot that may be triggered. -/
structure Admits (R : Price → Prop) (b : OrderBook A) (q : PriorityBook) (no : NewOrder) :
    Prop where
  last : ∀ p, b.lastTrade = some p → R p
  taker : ∀ m ∈ q.makers no.side.opposite, no.accepts m.price = true → R m.price
  ready : ∀ side t s, b.Lists side t s → Reached R side t → coreOf b.arena s = none ∨
    ∃ o, q.held s = some o ∧ o.kind = .stopMarket ∧ (∀ m ∈ q.makers o.side.opposite, R m.price) ∧
      (no.kind = .limit → no.side = o.side.opposite → R no.price)
  free : no.kind = .limit → ∀ side t, b.Lists side t (Slab.vacantKey b.arena) → ¬Reached R side t

/-- The book in which an order has been executed is safe. -/
theorem Admits.safe {R : Price → Prop} (h : Admits R b q no) (hm : Models b q)
    {b₁ : OrderBook A} {seq : Seq} {ts : Ts} (hm₁ : Models b₁ (q.execute no seq ts).1)
    (hlast₁ : b₁.lastTrade = (q.execute no seq ts).1.lastTrade)
    (hstops : ∀ side, b₁.stops side = b.stops side)
    (hvac : ∀ r, coreOf b.arena r = none → (no.kind = .limit → r ≠ Slab.vacantKey b.arena) →
      coreOf b₁.arena r = none) :
    Safe R b.filedSlots (((q.execute no seq ts).1.makers .buy).length +
      ((q.execute no seq ts).1.makers .sell).length) b₁ (q.execute no seq ts).1 := by
  obtain ⟨hheld, -⟩ := execute_frame q no seq ts
  obtain ⟨hprices, hlast⟩ := execute_prices q no seq ts
  have hlists : ∀ {side t s}, b₁.Lists side t s → b.Lists side t s := by
    intro side t s hl
    unfold OrderBook.Lists at hl ⊢
    rwa [hstops] at hl
  refine ⟨hm₁, fun p hp => ?_, fun side t s hl ht => ?_, fun side t s hl => ?_, fun side => ?_⟩
  · obtain ⟨σ, hr⟩ := hm
    rw [hlast₁] at hp
    rcases hlast p hp with hp | ⟨m, hmem, hok, rfl⟩
    · exact h.last p (hr.lastTrade.trans hp)
    · exact h.taker m hmem hok
  · rcases h.ready side t s (hlists hl) ht with hs | ⟨o, ho, hkind, hR, hown⟩
    · refine .inl (hvac s hs fun hlimit he => ?_)
      exact h.free hlimit side t (he ▸ hlists hl) ht
    · refine .inr ⟨o, by rw [hheld, ho], hkind, fun m' hm' => ?_⟩
      rcases (hprices _).2 m' hm' with ⟨m, hmem, hp⟩ | ⟨hlimit, hside, hp⟩
      · exact hp ▸ hR m hmem
      · exact hp ▸ hown hlimit hside.symm
  · exact (hlists hl).mem_filedSlots
  · cases side
    · exact Nat.le_add_right _ _
    · exact Nat.le_add_left _ _

/-- A new order that is not a stop returns. -/
theorem applyNew_settles {R : Price → Prop} (hm : Models b q) (hkind : no.kind.isStop = false)
    (h : validate b no = none → ¬(no.kind = .fok ∧ availableQty b no.side no.price < no.qty) →
      Admits R b q no) (seq : Seq) (ts : Ts) :
    ∃ fuel b' q' events, applyNew seq ts fuel b no = .ok (b', events) ∧ Models b' q' ∧
      Settles b q b' q' := by
  cases hvalid : validate b no with
  | some reason =>
    refine ⟨1, b, q, [.rejected no.id reason seq], ?_, hm, .refl b q⟩
    rw [applyNew, hvalid]
    rfl
  | none =>
    obtain ⟨hqty, hid, -⟩ := validate_eq_none.1 hvalid
    have hid : b.idIndex[no.id]? = none := by
      rw [Std.ExtTreeMap.contains_eq_isSome_getElem?] at hid
      exact Option.isNone_iff_eq_none.1 (Option.isSome_eq_false_iff.1 hid)
    by_cases hfok : no.kind = .fok ∧ availableQty b no.side no.price < no.qty
    · refine ⟨1, b, q, [.accepted no.id seq, .rejected no.id .fokUnfillable seq], ?_, hm,
        .refl b q⟩
      rw [applyNew, hvalid]
      dsimp only
      rw [if_neg (by simp [hkind]), if_pos hfok]
      rfl
    · obtain ⟨σ, hr⟩ := hm
      generalize hM : ((q.execute no seq ts).1.makers .buy).length +
        ((q.execute no seq ts).1.makers .sell).length = M
      generalize hfuel : b.filedSlots.card + M + 2 + (q.makers no.side.opposite).length = fuel
      obtain ⟨b₁, σ₁, hexec, hr₁, hvac⟩ := execute_refines hr hqty hkind hid
        (show (q.makers no.side.opposite).length + 2 ≤ fuel by omega) seq ts
      obtain ⟨hheld, hbuys, hsells, -, -⟩ := execute_frame q no seq ts
      have hstops := Models.stops_eq ⟨σ, hr⟩ ⟨σ₁, hr₁⟩ hbuys hsells
      have hsafe := (h hvalid hfok).safe ⟨σ, hr⟩ ⟨σ₁, hr₁⟩ hr₁.lastTrade hstops hvac
      rw [hM] at hsafe
      cases hlast : b₁.lastTrade with
      | none =>
        refine ⟨fuel + 1, b₁, _, .accepted no.id seq :: (q.execute no seq ts).2, ?_, ⟨σ₁, hr₁⟩, b₁,
          _, hheld, hstops, .refl _ _⟩
        rw [applyNew, hvalid]
        dsimp only
        rw [if_neg (by simp [hkind]), if_neg hfok, hexec, Fuel.ok_bind]
        simp only [hlast, Fuel.pure_eq_ok]
      | some last =>
        have hocc : b₁.occupied b.filedSlots ≤ b.filedSlots.card := Finset.card_filter_le _ _
        have hagain : Resubmits R b.filedSlots M (applyNew (A := A) seq ts fuel)
            b.filedSlots.card := applyNew_resubmits seq ts (by omega)
        obtain ⟨b', q', triggered, he, hm', hc, -⟩ :=
          triggerStops_returns hagain hsafe hocc (hsafe.last last hlast)
        refine ⟨fuel + 1, b', q', .accepted no.id seq :: (q.execute no seq ts).2 ++ triggered, ?_,
          hm', b₁, _, hheld, hstops, hc⟩
        rw [applyNew, hvalid]
        dsimp only
        rw [if_neg (by simp [hkind]), if_neg hfok, hexec, Fuel.ok_bind]
        simp only [hlast, he, Fuel.ok_bind, Fuel.pure_eq_ok]

/-! ## The condition on a command -/

/-- A trade may take place at the price while `no` is applied: it is the last trade
price, or that of a maker `no` accepts, or of a maker of a stop that is triggered. -/
inductive MayTradeAt (b : OrderBook A) (no : NewOrder) : Price → Prop
  | last {p : Price} (h : b.lastTrade = some p) : MayTradeAt b no p
  | taker {p : Price} (hl : (b.level? no.side.opposite p).isSome = true)
      (hok : no.accepts p = true) : MayTradeAt b no p
  | stop {side : Side} {t p p' : Price} {s : Nat} {o : Order} (h : MayTradeAt b no p)
      (hl : b.Lists side t s) (ht : side.triggers t p = true) (ho : b.slot? s = some o)
      (hp : (b.level? o.side.opposite p').isSome = true ∨
        (no.kind = .limit ∧ no.side = o.side.opposite ∧ p' = no.price)) : MayTradeAt b no p'

/-- The filed slots that may be triggered are vacant or hold stop market orders. -/
def Harmless (b : OrderBook A) (no : NewOrder) : Prop :=
  ∀ side t s o, b.Lists side t s → Reached (MayTradeAt b no) side t → b.slot? s = some o →
    o.kind = .stopMarket

namespace Command

/-- The id of the order that the command takes out first. -/
def takesOut : Command → Option OrderId
  | .new _ => none
  | .cancel id _ => some id
  | .replace id _ newQty _ => if newQty = 0 then none else some id

/-- The order that the command submits. -/
def Submits (b : OrderBook A) (c : Command) (no : NewOrder) : Prop :=
  match c with
  | .new no' => no = no'
  | .cancel _ _ => False
  | .replace id newPrice newQty _ => newQty ≠ 0 ∧ ∃ loc o, b.idIndex[id]? = some loc ∧
      b.slot? loc.slot = some o ∧ no = o.replacement id newPrice newQty

/-- The order that the command submits is matched: it is no stop order, and neither
validation, for which a replaced order is out of the index, nor the check of a fill-or-kill
order refuses it. -/
def Matches (b : OrderBook A) (c : Command) (no : NewOrder) : Prop :=
  c.Submits b no ∧ no.kind.isStop = false ∧
    validate (b.setIndex ((c.takesOut.map b.idIndex.erase).getD b.idIndex)) no = none ∧
    ¬(no.kind = .fok ∧ availableQty b no.side no.price < no.qty)

/-- The command triggers no stop limit order and no stale slot: the slots that an order it
matches may trigger are harmless, and a new limit order does not take one of them. -/
def Clear (b : OrderBook A) (c : Command) : Prop :=
  ∀ no, c.Matches b no → Harmless b no ∧
    (c.takesOut = none → no.kind = .limit →
      ∀ side t, b.Lists side t (Slab.vacantKey b.arena) → ¬Reached (MayTradeAt b no) side t)

theorem matches_new {no : NewOrder} (hkind : no.kind.isStop = false)
    (hvalid : validate b no = none)
    (hfok : ¬(no.kind = .fok ∧ availableQty b no.side no.price < no.qty)) :
    (Command.new no).Matches b no := ⟨rfl, hkind, hvalid, hfok⟩

/-- Validation and the check of a fill-or-kill order find the same once the replaced order
is out of the book. -/
theorem matches_replace {id : OrderId} {newPrice : Price} {newQty : Qty} {symbol : SymbolId}
    {loc : Location} {x : Order} {b₁ b₂ : OrderBook A} (hqty : newQty ≠ 0)
    (hidx : b.idIndex[id]? = some loc) (hx : b.slot? loc.slot = some x)
    (h₁ : (b.setIndex (b.idIndex.erase id)).removeSlot loc.slot x.side loc.price x.remaining =
      .ok b₁) (h₂ : b₁.removeOrder loc.slot = .ok b₂) (hkind : x.kind.isStop = false)
    (hvalid : validate b₂ (x.replacement id newPrice newQty) = none)
    (hfok : ¬(x.kind = .fok ∧ availableQty b₂ x.side newPrice < newQty)) :
    (Command.replace id newPrice newQty symbol).Matches b (x.replacement id newPrice newQty) := by
  obtain ⟨o, -, rfl⟩ := removeOrder_inv h₂
  have hindex : b₁.idIndex = b.idIndex.erase id := (Rewired.removeSlot h₁).idIndex
  have hlevels : ∀ p, availableQty b₁ x.side p = availableQty b x.side p := by
    intro p
    have hsame : b₁.levels x.side.opposite = b.levels x.side.opposite :=
      (levels_of_removeSlot h₁).trans (by cases x.side <;> rfl)
    unfold availableQty
    rw [hsame]
  refine ⟨⟨hqty, loc, x, hidx, hx, rfl⟩, hkind, ?_, fun h => hfok ?_⟩
  · unfold validate at hvalid ⊢
    rw [Command.takesOut, if_neg hqty]
    change (if _ then _ else if b₁.idIndex.contains _ then _ else _) = none at hvalid
    rw [hindex] at hvalid
    exact hvalid
  · refine ⟨h.1, ?_⟩
    change availableQty b₁ x.side newPrice < newQty
    rw [hlevels]
    exact h.2

end Command

theorem Models.level_of_maker (h : Models b q) {m : Order} (hm : m ∈ q.makers side) :
    (b.level? side m.price).isSome = true := by
  obtain ⟨σ, hr⟩ := h
  exact (hr.present side m.price).2 (List.ne_nil_of_mem (mem_queue.2 ⟨hm, rfl⟩))

theorem Harmless.ready (h : Harmless b no) (hm : Models b q) (hl : b.Lists side t s)
    (ht : Reached (MayTradeAt b no) side t) : coreOf b.arena s = none ∨
      ∃ o, q.held s = some o ∧ o.kind = .stopMarket ∧
        (∀ m ∈ q.makers o.side.opposite, MayTradeAt b no m.price) ∧
        (no.kind = .limit → no.side = o.side.opposite → MayTradeAt b no no.price) := by
  cases hc : coreOf b.arena s with
  | none => exact .inl rfl
  | some o =>
    obtain ⟨x, hx, hu⟩ := get?_of_core hc
    have hslot : b.slot? s = some x := hx
    have hkind : o.kind = .stopMarket := by
      rw [← hu]
      exact h side t s x hl ht hslot
    have hside : x.side = o.side := by rw [← hu]; rfl
    obtain ⟨p, hp, htp⟩ := ht
    have hstop : ∀ {p' : Price}, _ → MayTradeAt b no p' := fun h => .stop hp hl htp hslot h
    rw [hside] at hstop
    refine .inr ⟨o, ?_, hkind, fun m hmem => hstop (.inl (hm.level_of_maker hmem)),
      fun hlimit hown => hstop (.inr ⟨hlimit, hown, rfl⟩)⟩
    obtain ⟨σ, hr⟩ := hm
    rcases (hr.filed.covered s o hc).resolve_left nofun with hσ | hheld
    · have hnot := (hr.filed.side_price hσ hc).2.2
      rw [hkind] at hnot
      cases hnot
    · exact hheld

/-- The order may be matched in a book that has lost some makers. -/
theorem Harmless.admits (h : Harmless b no) (hm : Models b q) (hlast : b'.lastTrade = b.lastTrade)
    (hstops : ∀ side, b'.stops side = b.stops side)
    (hcore : ∀ s, coreOf b'.arena s = none ∨ coreOf b'.arena s = coreOf b.arena s)
    (hheld : q'.held = q.held) (hmakers : ∀ side, ∀ m ∈ q'.makers side, m ∈ q.makers side)
    (hfree : no.kind = .limit → ∀ side t, b.Lists side t (Slab.vacantKey b'.arena) →
      ¬Reached (MayTradeAt b no) side t) : Admits (MayTradeAt b no) b' q' no := by
  have hlists : ∀ {side t s}, b'.Lists side t s → b.Lists side t s := by
    intro side t s hl
    unfold OrderBook.Lists at hl ⊢
    rwa [hstops] at hl
  refine ⟨fun p hp => .last (hlast ▸ hp),
    fun m hmem hok => .taker (hm.level_of_maker (hmakers _ m hmem)) hok, fun side t s hl ht => ?_,
    fun hlimit side t hl => hfree hlimit side t (hlists hl)⟩
  rcases hcore s with hs | hs
  · exact .inl hs
  · rw [hs]
    rcases h.ready hm (hlists hl) ht with hs | ⟨o, ho, hkind, hR, hown⟩
    · exact .inl hs
    · exact .inr ⟨o, by rw [hheld, ho], hkind, fun m hmem => hR m (hmakers _ m hmem), hown⟩

/-! ## One command -/

/-- What a command does with the held stops and the stop maps. -/
inductive StopEffect (b : OrderBook A) (q : PriorityBook) (c : Command) (b' : OrderBook A)
    (q' : PriorityBook) : Prop
  /-- Activations only. -/
  | settled (h : Settles b q b' q')
  /-- A stop order is held in a new slot and filed. -/
  | held {s : Nat} {o : Order} (hs : coreOf b.arena s = none)
      (hheld : q'.held = Function.update q.held s (some o))
      (hstops : ∀ side (t : Price), (b'.stops side)[t]? =
        if side = o.side ∧ t = o.stopPrice then some ((b.stops side)[t]?.getD [] ++ [s])
        else (b.stops side)[t]?)
  /-- A held stop order is cancelled or replaced. -/
  | pulled {id : OrderId} {loc : Location} {o : Order} (hid : c.takesOut = some id)
      (hloc : b.idIndex[id]? = some loc) (ho : b.slot? loc.slot = some o)
      (hstop : o.kind.isStop = true)

theorem holdStop_lookup (b : OrderBook A) (no : NewOrder) (seq : Seq) (ts : Ts) (side : Side)
    (t : Price) : ((holdStop b no seq ts).stops side)[t]? =
      if side = no.side ∧ t = no.stopPrice then
        some ((b.stops side)[t]?.getD [] ++ [Slab.vacantKey b.arena])
      else (b.stops side)[t]? := by
  have hlookup : ((b.stops no.side).insert no.stopPrice
      ((b.stops no.side)[no.stopPrice]?.getD [] ++ [Slab.vacantKey b.arena]))[t]? =
        if t = no.stopPrice then
          some ((b.stops no.side)[t]?.getD [] ++ [Slab.vacantKey b.arena])
        else (b.stops no.side)[t]? := by
    rw [OrderedMap.getElem?_insert]
    by_cases ht : t = no.stopPrice
    · rw [if_pos ht, if_pos ht, ht]
    · rw [if_neg ht, if_neg ht]
  by_cases hside : side = no.side
  · subst hside
    simp only [true_and, ← hlookup]
    obtain ⟨id, symbol, side, kind, tif, price, stopPrice, qty⟩ := no
    cases side <;> rfl
  · rw [if_neg fun h => hside h.1]
    obtain ⟨id, symbol, side', kind, tif, price, stopPrice, qty⟩ := no
    cases side <;> cases side' <;> first | rfl | exact absurd rfl hside

/-- A new stop order is rejected or held. -/
theorem applyNew_stop (hm : Models b q) (hkind : no.kind.isStop = true) (seq : Seq) (ts : Ts)
    {c : Command} : ∃ b' q' events, applyNew seq ts 1 b no = .ok (b', events) ∧ Models b' q' ∧
      StopEffect b q c b' q' := by
  cases hvalid : validate b no with
  | some reason =>
    refine ⟨b, q, [.rejected no.id reason seq], ?_, hm, .settled (.refl b q)⟩
    rw [applyNew, hvalid]
    rfl
  | none =>
    obtain ⟨-, hid, -⟩ := validate_eq_none.1 hvalid
    rw [Std.ExtTreeMap.contains_eq_isSome_getElem?, Option.isSome_eq_false_iff,
      Option.isNone_iff_eq_none] at hid
    obtain ⟨σ, hr⟩ := hm
    obtain ⟨hr', -⟩ := hr.holdStop hkind hid seq ts
    refine ⟨_, _, [.accepted no.id seq], ?_, ⟨σ, hr'⟩, .held coreOf_vacantKey rfl fun side t => ?_⟩
    · rw [applyNew, hvalid]
      dsimp only
      rw [if_pos hkind]
      rfl
    · exact holdStop_lookup b no seq ts side t

/-- Cancel and Replace find the order `x`, unlink it and free its slot. -/
structure PullsOut (b : OrderBook A) (id : OrderId) (loc : Location) (x : Order)
    (b₁ b₂ : OrderBook A) : Prop where
  slot : b.slot? loc.slot = some x
  side : loc.side = x.side
  unlinked : (b.setIndex (b.idIndex.erase id)).removeSlot loc.slot x.side loc.price x.remaining =
    .ok b₁
  removed : b₁.removeOrder loc.slot = .ok b₂
  stops : ∀ side, b₂.stops side = b.stops side
  lastTrade : b₂.lastTrade = b.lastTrade
  core : ∀ s, coreOf b₂.arena s = none ∨ coreOf b₂.arena s = coreOf b.arena s
  freed : Slab.vacantKey b₂.arena = loc.slot

theorem takeOut [LifoSlab A Order] (hm : Models b q) {id : OrderId} {loc : Location}
    (hidx : b.idIndex[id]? = some loc) :
    ∃ x b₁ b₂ q₂, PullsOut b id loc x b₁ b₂ ∧ Models b₂ q₂ ∧
      (∀ side, ∀ m ∈ q₂.makers side, m ∈ q.makers side) ∧
      (x.kind.isStop = false → q₂.held = q.held) := by
  obtain ⟨σ, hr⟩ := hm
  obtain ⟨o, ho, hid, hloc, hplace⟩ := hr.filed.of_index hidx
  obtain ⟨x, hx, hu⟩ := get?_of_core ho
  have hslot : b.slot? loc.slot = some x := hx
  have hside : x.side = o.side := by rw [← hu]; rfl
  have hrem : x.remaining = o.remaining := by rw [← hu]; rfl
  have hkind : x.kind = o.kind := by rw [← hu]; rfl
  have hlocside : loc.side = o.side := by rw [← hloc]; rfl
  have hkey : ∀ {b₁ b₂ : OrderBook A}, b₁.removeOrder loc.slot = .ok b₂ →
      Slab.vacantKey b₂.arena = loc.slot := by
    intro b₁ b₂ h
    obtain ⟨y, hy, rfl⟩ := removeOrder_inv h
    have hy : Slab.get? b₁.arena loc.slot = some y := hy
    exact LifoSlab.vacantKey_remove _ _ (by rw [hy]; rfl)
  have hvac : ∀ {a : A}, coreOf a = Function.update (coreOf b.arena) loc.slot none →
      ∀ s, coreOf a s = none ∨ coreOf a s = coreOf b.arena s := by
    intro a ha s
    rw [ha]
    by_cases hs : s = loc.slot
    · exact .inl (by rw [hs, Function.update_self])
    · exact .inr (Function.update_of_ne hs _ _)
  rcases hplace with hσ | hheld
  · have hnot := (hr.filed.side_price hσ ho).2.2
    have hprice : loc.price = o.price := by rw [← hloc, Order.location, hnot]; rfl
    obtain ⟨b₁, b₂, σ', h₁, h₂, hr₂, hcore, -⟩ := hr.takeOut_maker hidx ho hσ
    refine ⟨x, b₁, b₂, q.drop o, ⟨hslot, hlocside.trans hside.symm, ?_, h₂,
      Models.stops_eq ⟨σ, hr⟩ ⟨σ', hr₂⟩ rfl rfl, hr₂.lastTrade.trans hr.lastTrade.symm,
      hvac hcore, hkey h₂⟩, ⟨σ', hr₂⟩, fun side m hmem => ?_, fun _ => rfl⟩
    · rw [hside, hprice, hrem, h₁]
    · by_cases hs : side = o.side
      · subst hs
        rw [PriorityBook.drop, makers_put_self] at hmem
        exact (List.mem_filter.1 hmem).1
      · rwa [PriorityBook.drop, makers_put_of_ne hs] at hmem
  · have hstop := (hr.filed.held_core _ _ hheld).2
    have hprice : loc.price = o.stopPrice := by rw [← hloc, Order.location, if_pos hstop]
    obtain ⟨b₁, b₂, h₁, h₂, hr₂, hcore, -⟩ := hr.takeOut_held hidx hheld
    refine ⟨x, b₁, b₂, _, ⟨hslot, hlocside.trans hside.symm, ?_, h₂,
      Models.stops_eq ⟨σ, hr⟩ ⟨σ, hr₂⟩ rfl rfl, hr₂.lastTrade.trans hr.lastTrade.symm,
      hvac hcore, hkey h₂⟩, ⟨σ, hr₂⟩, fun side m hmem => hmem, fun h => ?_⟩
    · rw [hside, hprice, hrem, h₁]
    · rw [hkind, hstop] at h
      cases h

/-- The new order of a clear command may be matched. -/
theorem Command.Clear.admits_new (h : (Command.new no).Clear b) (hm : Models b q)
    (hkind : no.kind.isStop = false) (hvalid : validate b no = none)
    (hfok : ¬(no.kind = .fok ∧ availableQty b no.side no.price < no.qty)) :
    Admits (MayTradeAt b no) b q no := by
  obtain ⟨hharmless, hfree⟩ := h no (Command.matches_new hkind hvalid hfok)
  exact hharmless.admits hm rfl (fun _ => rfl) (fun _ => .inr rfl) rfl (fun _ _ hm => hm)
    (hfree rfl)

/-- So may the order that a clear replace submits: the slot it takes is the one just freed,
which files no stop limit order. -/
theorem Command.Clear.admits_replace {id : OrderId} {newPrice : Price} {newQty : Qty}
    {symbol : SymbolId} {loc : Location} {x : Order} {b₁ b₂ : OrderBook A} {q₂ : PriorityBook}
    (h : (Command.replace id newPrice newQty symbol).Clear b) (hm : Models b q)
    (hqty : newQty ≠ 0) (hidx : b.idIndex[id]? = some loc) (hpulls : PullsOut b id loc x b₁ b₂)
    (hmakers : ∀ side, ∀ m ∈ q₂.makers side, m ∈ q.makers side)
    (hheld : x.kind.isStop = false → q₂.held = q.held) (hkind : x.kind.isStop = false)
    (hvalid : validate b₂ (x.replacement id newPrice newQty) = none)
    (hfok : ¬(x.kind = .fok ∧ availableQty b₂ x.side newPrice < newQty)) :
    Admits (MayTradeAt b (x.replacement id newPrice newQty)) b₂ q₂
      (x.replacement id newPrice newQty) := by
  obtain ⟨hharmless, -⟩ := h _ (Command.matches_replace hqty hidx hpulls.slot hpulls.unlinked
    hpulls.removed hkind hvalid hfok)
  refine hharmless.admits hm hpulls.lastTrade hpulls.stops hpulls.core (hheld hkind) hmakers
    fun _ side t hl ht => ?_
  rw [hpulls.freed] at hl
  have hmarket := hharmless side t loc.slot x hl ht hpulls.slot
  rw [hmarket] at hkind
  cases hkind

section Returns

variable {seq : Seq} {ts : Ts} {id : OrderId} {symbol : SymbolId}

theorem new_returns (hm : Models b q) (hclear : (Command.new no).Clear b) :
    ∃ b' q' events, Applies b ⟨seq, ts, .new no⟩ b' events ∧ Models b' q' ∧
      StopEffect b q (.new no) b' q' := by
  by_cases hkind : no.kind.isStop = true
  · obtain ⟨b', q', events, hcall, hm', heffect⟩ := applyNew_stop hm hkind seq ts
    exact ⟨b', q', events, ⟨1, hcall⟩, hm', heffect⟩
  · have hkind : no.kind.isStop = false := by simpa using hkind
    obtain ⟨fuel, b', q', events, hcall, hm', hsettles⟩ :=
      applyNew_settles hm hkind (hclear.admits_new hm hkind) seq ts
    exact ⟨b', q', events, ⟨fuel, hcall⟩, hm', .settled hsettles⟩

/-- A replace submits its order to the book without the old one. -/
theorem PullsOut.replaces {newPrice : Price} {newQty : Qty} {loc : Location} {x : Order}
    {b₁ b₂ : OrderBook A} {fuel : Nat} {events : List OutputEvent} (h : PullsOut b id loc x b₁ b₂)
    (hqty : newQty ≠ 0) (hidx : b.idIndex[id]? = some loc)
    (hnew : applyNew seq ts fuel b₂ (x.replacement id newPrice newQty) = .ok (b', events)) :
    applyReplace fuel b id newPrice newQty seq ts = .ok (b', .replaced id seq :: events) := by
  have hx : (b.setIndex (b.idIndex.erase id)).order loc.slot = .ok x := order_eq h.slot
  simp only [applyReplace, hqty, if_false, hidx, hx, Fuel.ok_bind, h.unlinked, h.removed,
    hnew]
  rfl

variable [LifoSlab A Order]

theorem cancel_returns (hm : Models b q) :
    ∃ b' q' events, Applies b ⟨seq, ts, .cancel id symbol⟩ b' events ∧ Models b' q' ∧
      StopEffect b q (.cancel id symbol) b' q' := by
  cases hidx : b.idIndex[id]? with
  | none =>
    refine ⟨b, q, [.rejected id .unknownId seq], ⟨0, ?_⟩, hm, .settled (.refl b q)⟩
    simp [applyWithin, applyCancel, hidx]
  | some loc =>
    obtain ⟨x, b₁, b₂, q₂, hpulls, hm₂, -, hheld⟩ := takeOut hm hidx
    have hx : (b.setIndex (b.idIndex.erase id)).order loc.slot = .ok x := order_eq hpulls.slot
    refine ⟨b₂, q₂, [.cancelled id seq], ⟨0, ?_⟩, hm₂, ?_⟩
    · simp only [applyWithin, applyCancel, hidx, hx, Fuel.ok_bind, hpulls.side, hpulls.unlinked,
        hpulls.removed]
      rfl
    · by_cases hstop : x.kind.isStop = true
      · exact .pulled rfl hidx hpulls.slot hstop
      · exact .settled ⟨b₂, q₂, hheld (by simpa using hstop), hpulls.stops, .refl _ _⟩

theorem replace_returns {newPrice : Price} {newQty : Qty} (hm : Models b q)
    (hclear : (Command.replace id newPrice newQty symbol).Clear b) :
    ∃ b' q' events, Applies b ⟨seq, ts, .replace id newPrice newQty symbol⟩ b' events ∧
      Models b' q' ∧ StopEffect b q (.replace id newPrice newQty symbol) b' q' := by
  by_cases hqty : newQty = 0
  · refine ⟨b, q, [.rejected id .zeroQty seq], ⟨0, ?_⟩, hm, .settled (.refl b q)⟩
    simp [applyWithin, applyReplace, hqty]
  cases hidx : b.idIndex[id]? with
  | none =>
    refine ⟨b, q, [.rejected id .unknownId seq], ⟨0, ?_⟩, hm, .settled (.refl b q)⟩
    simp [applyWithin, applyReplace, hqty, hidx]
  | some loc =>
    obtain ⟨x, b₁, b₂, q₂, hpulls, hm₂, hmakers, hheld⟩ := takeOut hm hidx
    by_cases hstop : x.kind.isStop = true
    · obtain ⟨b', q', events, hnew, hm', -⟩ := applyNew_stop (c := .cancel id symbol) hm₂
        (show (x.replacement id newPrice newQty).kind.isStop = true from hstop) seq ts
      exact ⟨b', q', _, ⟨1, hpulls.replaces hqty hidx hnew⟩, hm',
        .pulled (if_neg hqty) hidx hpulls.slot hstop⟩
    · have hstop : x.kind.isStop = false := by simpa using hstop
      obtain ⟨fuel, b', q', events, hnew, hm', b₃, q₃, hheld₃, hstops₃, hc⟩ :=
        applyNew_settles hm₂ hstop
          (hclear.admits_replace hm hqty hidx hpulls hmakers hheld hstop) seq ts
      exact ⟨b', q', _, ⟨fuel, hpulls.replaces hqty hidx hnew⟩, hm',
        .settled ⟨b₃, q₃, hheld₃.trans (hheld hstop),
          fun side => (hstops₃ side).trans (hpulls.stops side), hc⟩⟩

/-- **The step.** A command that is clear returns. -/
theorem apply_returns (hm : Models b q) {cmd : Sequenced} (hcmd : cmd.cmd.Clear b) :
    ∃ b' q' events, Applies b cmd b' events ∧ Models b' q' ∧ StopEffect b q cmd.cmd b' q' := by
  obtain ⟨seq, ts, cmd⟩ := cmd
  cases cmd with
  | new no => exact new_returns hm hcmd
  | cancel id symbol => exact cancel_returns hm
  | replace id newPrice newQty symbol => exact replace_returns hm hcmd

end Returns

/-! ## Runs -/

/-- The book is reached from a new one by commands that are clear when they are
applied. -/
def ReachesClear (symbol : SymbolId) (tick : Price) (log : List Entry) (b : OrderBook A) : Prop :=
  Transition.Run (Transition.restrict (fun b e => e.1.cmd.Clear b) ApplyStep)
    (OrderBook.new symbol tick) log b

theorem reachesClear_models [LifoSlab A Order] {symbol : SymbolId} {tick : Price}
    {log : List Entry} (h : ReachesClear symbol tick log b) : ∃ q, Models b q := by
  refine Transition.Run.invariant (I := fun _ (b : OrderBook A) => ∃ q, Models b q)
    ⟨_, _, Refines.new symbol tick⟩ ?_ h
  intro _ b e b' _ ⟨q, hm⟩ ⟨hclear, hstep⟩
  obtain ⟨b'', q', events, happ, hm', -⟩ := apply_returns hm hclear
  obtain ⟨rfl, -⟩ := Applies.unique hstep happ
  exact ⟨q', hm'⟩

/-- **Termination.** In a run of clear commands every next clear command returns. -/
theorem reachesClear_returns [LifoSlab A Order] {symbol : SymbolId} {tick : Price}
    {log : List Entry} (h : ReachesClear symbol tick log b) {cmd : Sequenced}
    (hcmd : cmd.cmd.Clear b) : ∃ b' events, Applies b cmd b' events := by
  obtain ⟨q, hm⟩ := reachesClear_models h
  obtain ⟨b', -, events, happ, -⟩ := apply_returns hm hcmd
  exact ⟨b', events, happ⟩

/-- A book that files no slot of another order than a stop market one, and not the
next slot, is clear for every command. -/
theorem Command.clear_of_filedSlots
    (hfiled : ∀ s ∈ b.filedSlots, (b.slot? s).all fun o => o.kind = .stopMarket)
    (hfree : Slab.vacantKey b.arena ∉ b.filedSlots) (c : Command) : c.Clear b := by
  intro no _
  refine ⟨fun side t s o hl _ ho => ?_, fun _ _ side t hl _ => hfree hl.mem_filedSlots⟩
  have h := hfiled s hl.mem_filedSlots
  rw [ho] at h
  simpa using h

/-- A stop market buy is triggered by the trade of the last command and trades with
what that command left. -/
theorem reachesClear_returns_sample :
    ∃ (b : OrderBook (VecSlab Order)) (log : List Entry), ReachesClear 0 1 log b ∧
      log.length = 2 ∧ ∃ b' events,
        Applies b ⟨3, 0, .new ⟨3, 0, .buy, .limit, .gtc, 100, 0, 1⟩⟩ b' events := by
  have hok : ∃ r₁ r₂,
      applyWithin 9 (OrderBook.new 0 1 : OrderBook (VecSlab Order))
        ⟨1, 0, .new ⟨1, 0, .buy, .stopMarket, .gtc, 0, 100, 1⟩⟩ = .ok r₁ ∧
      applyWithin 9 r₁.1 ⟨2, 0, .new ⟨2, 0, .sell, .limit, .gtc, 100, 0, 2⟩⟩ = .ok r₂ ∧
      (∀ s ∈ r₁.1.filedSlots, (r₁.1.slot? s).all fun o => o.kind = .stopMarket) ∧
      Slab.vacantKey r₁.1.arena ∉ r₁.1.filedSlots ∧
      (∀ s ∈ r₂.1.filedSlots, (r₂.1.slot? s).all fun o => o.kind = .stopMarket) ∧
      Slab.vacantKey r₂.1.arena ∉ r₂.1.filedSlots := by
    refine ⟨_, _, rfl, rfl, ?_⟩
    decide +kernel
  obtain ⟨⟨b₁, e₁⟩, ⟨b₂, e₂⟩, h₁, h₂, hfiled₁, hfree₁, hfiled₂, hfree₂⟩ := hok
  have hrun : ReachesClear 0 1
      ([] ++ [(⟨1, 0, .new ⟨1, 0, .buy, .stopMarket, .gtc, 0, 100, 1⟩⟩, e₁)]
      ++ [(⟨2, 0, .new ⟨2, 0, .sell, .limit, .gtc, 100, 0, 2⟩⟩, e₂)]) b₂ :=
    (Transition.Run.nil.snoc ⟨Command.clear_of_filedSlots (by decide) (by decide) _, 9, h₁⟩).snoc
      ⟨Command.clear_of_filedSlots hfiled₁ hfree₁ _, 9, h₂⟩
  exact ⟨b₂, _, hrun, rfl,
    reachesClear_returns hrun (Command.clear_of_filedSlots hfiled₂ hfree₂ _)⟩

/-! ## The endless recursion -/

/-- The limit order that the stop limit order re-enters as. -/
def looper : NewOrder := ⟨1, 0, .buy, .limit, .gtc, 50, 0, 1⟩

/-- The activated stop limit order rests in slot 0, which is still filed under a
trigger price that the last trade has reached. -/
structure Trapped (b : OrderBook (VecSlab Order)) : Prop where
  resting : (coreOf b.arena 0).map Order.activated = some looper
  triggered : b.triggered .buy 100 = [0]
  asks : b.best? .sell = none
  last : b.lastTrade = some 100

/-- Resting an order leaves the other side alone. -/
theorem insertResting_best? (h : b.insertResting s = .ok b') {o : Order} (ho : b.order s = .ok o) :
    b'.best? o.side.opposite = b.best? o.side.opposite := by
  have harena : ∀ {b b' : OrderBook A} {slot f}, b.modifyLinked slot f = .ok b' →
      ∃ a, b' = b.setArena a := by
    intro b b' slot f h
    cases slot with
    | none =>
      cases h
      exact ⟨b.arena, rfl⟩
    | some s =>
      obtain ⟨x, -, rfl⟩ := modifyOrder_inv h
      exact ⟨_, rfl⟩
  obtain ⟨o', ho', h⟩ := Fuel.bind_eq_ok.1 h
  cases ho.symm.trans ho'
  obtain ⟨b₁, h₁, h⟩ := Fuel.bind_eq_ok.1 h
  obtain ⟨x, -, rfl⟩ := modifyOrder_inv h₁
  obtain ⟨a, rfl⟩ := harena h
  cases o.side <;> rfl

/-- Against an empty side the order comes to rest as it is. -/
theorem execute_looper {b b' : OrderBook (VecSlab Order)} (hkey : Slab.vacantKey b.arena = 0)
    (hasks : b.best? .sell = none) {fuel : Nat} {seq : Seq} {ts : Ts} {events : List OutputEvent}
    (h : execute fuel b looper seq ts = .ok (b', events)) :
    (restOrder (b.setArena (Slab.insert b.arena (looper.toOrder seq ts))) looper 0) = .ok b' := by
  generalize hb₀ : b.setArena (Slab.insert b.arena (looper.toOrder seq ts)) = b₀
  have horder : b₀.order 0 = .ok (looper.toOrder seq ts) := by
    rw [← hb₀]
    exact order_eq ((Slab.get?_insert _ _ _).trans (if_pos hkey.symm))
  have hbest : b₀.best? .sell = none := by
    rw [← hb₀]
    exact hasks
  have hstep : ∀ t : Aggressor, t.slot = 0 → t.side = .buy →
      matchStep b₀ t seq ts = .ok none := by
    intro t hslot hside
    have hopp : t.side.opposite = .sell := by rw [hside]; rfl
    have hremaining : (looper.toOrder seq ts).remaining = 1 := rfl
    unfold matchStep
    rw [hslot, horder, Fuel.ok_bind, hremaining, if_neg (by decide), hopp, hbest]
    rfl
  unfold execute at h
  obtain ⟨⟨b₁, filled, fills⟩, hmatch, h⟩ := Fuel.bind_eq_ok.1 h
  obtain ⟨⟨b₂, closing⟩, hsettle, h⟩ := Fuel.bind_eq_ok.1 h
  cases h
  rw [hkey, hb₀] at hmatch
  rw [hkey] at hsettle
  unfold matchOrder at hmatch
  rw [horder, Fuel.ok_bind] at hmatch
  cases fuel with
  | zero => cases hmatch
  | succ fuel =>
    unfold matchLoop at hmatch
    rw [hstep _ rfl rfl] at hmatch
    cases hmatch
    unfold settle at hsettle
    rw [horder, Fuel.ok_bind] at hsettle
    dsimp only at hsettle
    rw [if_neg fun h => absurd h.1 (by decide), if_neg (by decide)] at hsettle
    obtain ⟨b₃, hrest, hsettle⟩ := Fuel.bind_eq_ok.1 hsettle
    cases hsettle
    exact hrest

/-- The order pulled out of slot 0 takes slot 0 again. -/
theorem Trapped.again {b b₁ b₂ : OrderBook (VecSlab Order)} (h : Trapped b)
    {m : Std.ExtTreeMap OrderId Location} (hremove : (b.setIndex m).removeOrder 0 = .ok b₁)
    {fuel : Nat} {seq : Seq} {ts : Ts} {events : List OutputEvent}
    (hexec : execute fuel b₁ looper seq ts = .ok (b₂, events)) : Trapped b₂ := by
  obtain ⟨o, ho, rfl⟩ := removeOrder_inv hremove
  have hkey : Slab.vacantKey (Slab.remove b.arena 0) = 0 := by
    refine LifoSlab.vacantKey_remove _ _ ?_
    rw [show Slab.get? b.arena 0 = some o from ho]
    rfl
  have hrest := execute_looper (b := (b.setIndex m).setArena (Slab.remove b.arena 0)) hkey h.asks
    hexec
  have hcore : coreOf (Slab.insert (Slab.remove b.arena 0) (looper.toOrder seq ts)) 0 =
      some (looper.toOrder seq ts) := by
    rw [coreOf_insert, hkey, Function.update_self]
    rfl
  have horder := order_eq (b := (((b.setIndex m).setArena (Slab.remove b.arena 0)).setArena
    (Slab.insert (Slab.remove b.arena 0) (looper.toOrder seq ts))).setIndex
      (m.insert looper.id ⟨looper.price, looper.side, 0⟩))
    ((Slab.get?_insert (Slab.remove b.arena 0) (looper.toOrder seq ts) 0).trans
      (if_pos hkey.symm))
  have hbest : b₂.best? .sell = b.best? .sell := insertResting_best? hrest horder
  obtain ⟨hcore', -, hbuys, -, hlast⟩ := Rewired.insertResting hrest
  have htriggered : b₂.triggered .buy 100 = b.triggered .buy 100 := by
    unfold OrderBook.triggered
    rw [show b₂.stops .buy = b.stops .buy from hbuys]
  refine ⟨?_, htriggered.trans h.triggered, hbest.trans h.asks, hlast.trans h.last⟩
  rw [hcore']
  exact congrArg (Option.map Order.activated) hcore

/-- **No budget suffices.** The triggers of a trapped book never return. -/
theorem Trapped.never {b : OrderBook (VecSlab Order)} (h : Trapped b) (seq : Seq) (ts : Ts)
    (fuel : Nat) (r : OrderBook (VecSlab Order) × List OutputEvent) :
    triggerStops (applyNew seq ts fuel) b 100 ≠ .ok r := by
  have hcall : ∀ fuel b r, Trapped b → triggerStops (applyNew seq ts fuel) b 100 = .ok r →
      ∃ b₁ r', (b.setIndex (b.idIndex.erase looper.id)).removeOrder 0 = .ok b₁ ∧
        applyNew seq ts fuel b₁ looper = .ok r' := by
    intro fuel b r h hok
    obtain ⟨r₁, hside, -⟩ := Fuel.bind_eq_ok.1 hok
    unfold triggerSide at hside
    rw [h.triggered] at hside
    obtain ⟨r₂, hall, -⟩ := Fuel.bind_eq_ok.1 hside
    obtain ⟨r₃, hactivate, -⟩ := Fuel.bind_eq_ok.1 hall
    obtain ⟨o, ho, hlooper⟩ := Option.map_eq_some_iff.1 h.resting
    obtain ⟨x, hx, rfl⟩ := get?_of_core ho
    have hlooper : x.activated = looper := hlooper
    have hid : x.id = looper.id := by rw [← hlooper]; rfl
    unfold activate at hactivate
    rw [show b.slot? 0 = some x from hx] at hactivate
    obtain ⟨b₁, hremove, hnew⟩ := Fuel.bind_eq_ok.1 hactivate
    rw [hid] at hremove
    rw [hlooper] at hnew
    exact ⟨b₁, r₃, hremove, hnew⟩
  refine Fuel.diverges (f := fun fuel b => triggerStops (applyNew seq ts fuel) b 100)
    (P := Trapped) (fun b r h hok => ?_) (fun n b r h hok => ?_) h fuel r
  · obtain ⟨b₁, r', -, hnew⟩ := hcall 0 b r h hok
    cases hnew
  · obtain ⟨b₁, r', hremove, hnew⟩ := hcall (n + 1) b r h hok
    have hvalid : validate b₁ looper = none := by
      obtain ⟨o, -, rfl⟩ := removeOrder_inv hremove
      have hid : (b.idIndex.erase looper.id).contains looper.id = false := by simp
      exact validate_eq_none.2 ⟨by decide, hid, fun _ => by decide⟩
    unfold applyNew at hnew
    rw [hvalid] at hnew
    dsimp only at hnew
    rw [if_neg (by decide), if_neg fun h => absurd h.1 (by decide)] at hnew
    obtain ⟨⟨b₂, events⟩, hexec, hnew⟩ := Fuel.bind_eq_ok.1 hnew
    have hagain := h.again hremove hexec
    dsimp only at hnew
    rw [hagain.last] at hnew
    obtain ⟨r'', htrigger, -⟩ := Fuel.bind_eq_ok.1 hnew
    exact ⟨b₂, r'', hagain, htrigger⟩

/-- A stop limit order is held at 100, and an ask at 100 rests. -/
def looping : List Sequenced :=
  [⟨1, 0, .new ⟨1, 0, .buy, .stopLimit, .gtc, 50, 100, 1⟩⟩,
   ⟨2, 0, .new ⟨2, 0, .sell, .limit, .gtc, 100, 0, 1⟩⟩]

/-- The trade at 100 activates the stop limit order, and `apply` does not return. -/
theorem stopLimit_diverges :
    ∃ (b : OrderBook (VecSlab Order)) (log : List Entry), Reaches 0 1 log b ∧
      log.map Prod.fst = looping ∧ ¬∃ b' events,
        Applies b ⟨3, 0, .new ⟨3, 0, .buy, .limit, .gtc, 100, 0, 1⟩⟩ b' events := by
  have hok : ∃ r r', applyAll 9 (OrderBook.new 0 1 : OrderBook (VecSlab Order)) looping = .ok r ∧
      execute 9 r.1 ⟨3, 0, .buy, .limit, .gtc, 100, 0, 1⟩ 3 0 = .ok r' ∧
      r.2.map Prod.fst = looping ∧
      validate r.1 ⟨3, 0, .buy, .limit, .gtc, 100, 0, 1⟩ = none ∧
      (coreOf r'.1.arena 0).map Order.activated = some looper ∧
      r'.1.triggered .buy 100 = [0] ∧ r'.1.best? .sell = none ∧ r'.1.lastTrade = some 100 := by
    refine ⟨_, _, rfl, rfl, ?_⟩
    decide +kernel
  obtain ⟨⟨b, log⟩, ⟨b₁, events₁⟩, hall, hexec, hlog, hvalid, hresting, htriggered, hasks,
    hlast⟩ := hok
  have htrapped : Trapped b₁ := ⟨hresting, htriggered, hasks, hlast⟩
  refine ⟨b, log, reaches_applyAll hall, hlog, ?_⟩
  intro ⟨b', events, fuel, h⟩
  cases fuel with
  | zero => cases h
  | succ fuel =>
    change applyNew 3 0 (fuel + 1) b ⟨3, 0, .buy, .limit, .gtc, 100, 0, 1⟩ = _ at h
    unfold applyNew at h
    rw [hvalid] at h
    dsimp only at h
    rw [if_neg (by decide), if_neg fun h => absurd h.1 (by decide)] at h
    obtain ⟨⟨b₂, events₂⟩, hexec₂, h⟩ := Fuel.bind_eq_ok.1 h
    have heq := Fuel.Converges.unique (execute_stable b _ 3 0) ⟨9, hexec⟩ ⟨fuel, hexec₂⟩
    cases heq
    dsimp only at h
    rw [hlast] at h
    obtain ⟨r'', htrigger, -⟩ := Fuel.bind_eq_ok.1 h
    exact htrapped.never 3 0 fuel r'' htrigger

end Exchange
