import Exchange.Verify.Rejection

/-!
# The tape

The trades of a run. Every trade of every run, whatever is held or triggered, is of some
quantity and at a positive price, since the levels only ever get the prices of limit
orders, and the last trade price that a book shows is that of the last trade so far.
-/

namespace Exchange

open Fuel Transition

variable {A : Type} [Slab A Order] {b b' b'' : OrderBook A} {no : NewOrder} {seq : Seq} {ts : Ts}
  {es es' events : List OutputEvent} {s : Nat} {side : Side} {p : Price} {fuel : Nat}

def OutputEvent.tradePrice? : OutputEvent → Option Price
  | .trade _ _ _ price .. => some price
  | _ => none

/-- The prices of the trades of a run. -/
def tape (log : List Entry) : List Price :=
  (log.flatMap Prod.snd).filterMap OutputEvent.tradePrice?

theorem tape_snoc (log : List Entry) (e : Entry) :
    tape (log ++ [e]) = tape log ++ e.2.filterMap OutputEvent.tradePrice? := by
  simp [tape]

/-- A trade is of something and for something. -/
def OutputEvent.Sane : OutputEvent → Prop
  | .trade _ _ _ price qty .. => 0 < price ∧ qty ≠ 0
  | _ => True

/-! ## Levels -/

/-- Levels are at positive prices. -/
def PositiveLevels (b : OrderBook A) : Prop := ∀ side p, (b.level? side p).isSome = true → 0 < p

omit [Slab A Order] in
theorem OrderBook.level?_setStops (b : OrderBook A) (side : Side) (m : StopMap side)
    (side' : Side) (p : Price) : (b.setStops side m).level? side' p = b.level? side' p := by
  cases side <;> cases side' <;> rfl

namespace PositiveLevels

omit [Slab A Order] in
theorem congr (hb : PositiveLevels b) (h : ∀ side p, b'.level? side p = b.level? side p) :
    PositiveLevels b' := by
  intro side p hp
  rw [h] at hp
  exact hb side p hp

omit [Slab A Order] in
theorem putLevel (hb : PositiveLevels b) (hp : 0 < p) (side : Side) (l : PriceLevel) :
    PositiveLevels (b.putLevel side p l) := by
  intro side' p' hp'
  rw [OrderBook.level?_putLevel] at hp'
  split at hp'
  · next h => rwa [h.2]
  · exact hb side' p' hp'

omit [Slab A Order] in
theorem eraseLevel (hb : PositiveLevels b) (side : Side) (p : Price) :
    PositiveLevels (b.eraseLevel side p) := by
  intro side' p' hp'
  rw [OrderBook.level?_eraseLevel] at hp'
  split at hp'
  · cases hp'
  · exact hb side' p' hp'

omit [Slab A Order] in
theorem removeEmpty (hb : PositiveLevels b) (side : Side) (p : Price) :
    PositiveLevels (b.removeEmpty side p) := by
  unfold OrderBook.removeEmpty
  split
  · exact hb.eraseLevel side p
  · exact hb

theorem modifyOrder {f : Order → Order} (hb : PositiveLevels b)
    (h : b.modifyOrder s f = .ok b') : PositiveLevels b' := by
  obtain ⟨a, rfl⟩ := modifyOrder_setArena h
  exact hb.congr fun _ _ => OrderBook.level?_setArena ..

theorem modifyLinked {slot : Option Nat} {f : Order → Order} (hb : PositiveLevels b)
    (h : b.modifyLinked slot f = .ok b') : PositiveLevels b' := by
  obtain ⟨a, rfl⟩ := modifyLinked_setArena h
  exact hb.congr fun _ _ => OrderBook.level?_setArena ..

theorem removeOrder (hb : PositiveLevels b) (h : b.removeOrder s = .ok b') :
    PositiveLevels b' := by
  obtain ⟨o, -, rfl⟩ := removeOrder_inv h
  exact hb.congr fun _ _ => OrderBook.level?_setArena ..

omit [Slab A Order] in
theorem setIndex (hb : PositiveLevels b) (m : Std.ExtTreeMap OrderId Location) :
    PositiveLevels (b.setIndex m) :=
  hb.congr fun _ _ => OrderBook.level?_setIndex ..

theorem popHead {popped : Option Nat} (hb : PositiveLevels b)
    (h : b.popHead side p = .ok (popped, b')) : PositiveLevels b' := by
  unfold OrderBook.popHead at h
  split at h
  · cases h
    exact hb
  · next level hlevel =>
    split at h
    · cases h
      exact hb
    · obtain ⟨o, -, h⟩ := bind_eq_ok.1 h
      obtain ⟨b₁, h₁, h⟩ := bind_eq_ok.1 h
      cases h
      exact (hb.putLevel (hb side p (by rw [hlevel]; rfl)) side _).modifyLinked h₁

theorem reinsertAtHead (hb : PositiveLevels b) (hp : 0 < p)
    (h : Exchange.reinsertAtHead b s p side = .ok b') : PositiveLevels b' := by
  obtain ⟨b₁, h₁, h⟩ := bind_eq_ok.1 h
  obtain ⟨o, -, h⟩ := bind_eq_ok.1 h
  obtain ⟨b₂, h₂, h⟩ := bind_eq_ok.1 h
  exact (((hb.modifyOrder h₁).putLevel hp side _).modifyOrder h₂).modifyLinked h

theorem insertResting (hb : PositiveLevels b)
    (hprice : ∀ o, b.slot? s = some o → 0 < o.price) (h : b.insertResting s = .ok b') :
    PositiveLevels b' := by
  obtain ⟨o, ho, h⟩ := bind_eq_ok.1 h
  obtain ⟨b₁, h₁, h⟩ := bind_eq_ok.1 h
  exact ((hb.putLevel (hprice o (slot?_of_order ho)) _ _).modifyOrder h₁).modifyLinked h

theorem removeSlot {qty : Qty} (hb : PositiveLevels b)
    (h : b.removeSlot s side p qty = .ok b') : PositiveLevels b' := by
  obtain ⟨o, -, h⟩ := bind_eq_ok.1 h
  obtain ⟨b₁, h₁, h⟩ := bind_eq_ok.1 h
  obtain ⟨b₂, h₂, h⟩ := bind_eq_ok.1 h
  have hb₂ := (hb.modifyLinked h₁).modifyLinked h₂
  split at h
  · cases h
    exact hb₂
  · next level hlevel =>
    dsimp only at h
    split at h
    · cases h
      exact hb₂.eraseLevel side p
    · cases h
      exact hb₂.putLevel (hb₂ side p (by rw [hlevel]; rfl)) side _

end PositiveLevels

/-! ## What a call prints -/

/-- The events of a call, and the last trade price and the levels that it leaves. -/
structure Prints (b : OrderBook A) (es : List OutputEvent) (b' : OrderBook A) : Prop where
  last : b'.lastTrade = (es.filterMap OutputEvent.tradePrice?).getLast?.or b.lastTrade
  sane : ∀ e ∈ es, e.Sane
  levels : PositiveLevels b'

namespace Prints

omit [Slab A Order] in
/-- A call without trades. -/
theorem quiet (hlast : b'.lastTrade = b.lastTrade)
    (hes : ∀ e ∈ es, e.tradePrice? = none) (hb : PositiveLevels b') : Prints b es b' where
  last := by rw [List.filterMap_eq_nil_iff.2 hes, hlast]; rfl
  sane e he := by
    cases e with
    | trade => cases hes _ he
    | _ => trivial
  levels := hb

omit [Slab A Order] in
theorem trans (h : Prints b es b') (h' : Prints b' es' b'') : Prints b (es ++ es') b'' where
  last := by rw [h'.last, h.last, List.filterMap_append, List.getLast?_append, Option.or_assoc]
  sane := List.forall_mem_append.2 ⟨h.sane, h'.sane⟩
  levels := h'.levels

end Prints

/-! ## Matching -/

section Matching

variable {t : Aggressor} {qty total total' : Qty} {o : Order}

/-- The maker of a trade is gone or has something left. -/
theorem tradeWith_sound {makerSlot : Nat} (hne : makerSlot ≠ t.slot) (hb : Sound b (some t.slot))
    (h : tradeWith b t makerSlot p seq ts = .ok (b', qty, events)) : Sound b' (some t.slot) := by
  obtain ⟨taker, maker, htaker, hmaker, -, hcore, -, -⟩ := tradeWith_inv hne h
  intro s x hx hs
  rw [hcore] at hx
  by_cases hm : s = makerSlot
  · subst hm
    rw [Function.update_self] at hx
    split at hx
    · cases hx
    · next hleft =>
      cases hx
      exact ⟨hleft, (hb s maker hmaker hs).kind⟩
  · rw [Function.update_of_ne hm, Function.update_of_ne fun e => hs (by rw [e])] at hx
    exact hb s x hx hs

theorem tradeWith_prints {makerSlot : Nat} (hne : makerSlot ≠ t.slot)
    (hb : Sound b (some t.slot)) (hlevels : PositiveLevels b) (hp : 0 < p)
    (ho : coreOf b.arena t.slot = some o) (hrem : o.remaining ≠ 0)
    (h : tradeWith b t makerSlot p seq ts = .ok (b', qty, events)) : Prints b events b' := by
  have hqty : qty ≠ 0 := by
    obtain ⟨taker, maker, htaker, hmaker, hmin, -⟩ := tradeWith_inv hne h
    cases ho.symm.trans htaker
    have hsound := hb makerSlot maker hmaker fun e => hne (Option.some.inj e).symm
    have hleft := toNat_ne_zero.2 hsound.remaining
    have htaken := toNat_ne_zero.2 hrem
    rw [hmin, ← toNat_ne_zero, toNat_min]
    omega
  obtain ⟨taker₀, -, h⟩ := bind_eq_ok.1 h
  obtain ⟨maker₀, -, h⟩ := bind_eq_ok.1 h
  obtain ⟨b₁, h₁, h⟩ := bind_eq_ok.1 h
  obtain ⟨b₂, h₂, h⟩ := bind_eq_ok.1 h
  obtain ⟨taker₁, -, h⟩ := bind_eq_ok.1 h
  obtain ⟨maker₁, -, h⟩ := bind_eq_ok.1 h
  have hlevels₂ : PositiveLevels (b₂.setLastTrade p) :=
    ((hlevels.modifyOrder h₁).modifyOrder h₂).congr fun _ _ => OrderBook.level?_setLastTrade ..
  dsimp only at h
  split at h
  · obtain ⟨b₃, h₃, h⟩ := bind_eq_ok.1 h
    obtain ⟨o₃, -, rfl⟩ := removeOrder_inv h₃
    cases h
    refine ⟨?_, ?_, ((hlevels₂.setIndex _).removeOrder h₃).removeEmpty _ _⟩
    · rw [(Rewired.removeEmpty _ _ _).lastTrade]
      rfl
    · simp [OutputEvent.Sane, hp, hqty]
  · obtain ⟨b₃, h₃, h⟩ := bind_eq_ok.1 h
    cases h
    refine ⟨?_, ?_, hlevels₂.reinsertAtHead hp h₃⟩
    · rw [(Rewired.reinsertAtHead h₃).lastTrade]
      rfl
    · simp [OutputEvent.Sane, hp, hqty]

theorem matchLoop_prints (hb : Sound b (some t.slot)) (hlevels : PositiveLevels b)
    (h : matchLoop t seq ts fuel b total = .ok (b', total', events)) : Prints b events b' := by
  induction fuel generalizing b total events with
  | zero => cases h
  | succ fuel ih =>
    cases matchLoop_cases h with
    | done => exact .quiet rfl nofun hlevels
    | @traded b₂ _ qty _ _ _ hstep hloop =>
      obtain ⟨o, p, l, b₁, makerSlot, ho, hrem, hbest, hcross, hpop, htrade⟩ := matchStep_inv hstep
      have hrewired := Rewired.popHead hpop
      have hp : 0 < p := by
        refine hlevels t.side.opposite p ?_
        unfold OrderBook.level?
        rw [(OrderedMap.first?_spec hbest).1]
        rfl
      have hne : makerSlot ≠ t.slot := by
        rintro rfl
        obtain ⟨-, l', hbest'⟩ := popHead_inv hbest hpop
        have hstuck := stuck_of_tradeWith hbest' hcross (by rw [hrewired.core, ho]) hrem htrade
        exact hstuck.matchLoop_ne_ok fuel _ hloop
      have hb₁ := hb.rewired hrewired
      have hprints := tradeWith_prints hne hb₁ (hlevels.popHead hpop) hp
        (by rw [hrewired.core, ho]) hrem htrade
      have hfirst : Prints b _ b₂ :=
        ⟨by rw [hprints.last, hrewired.lastTrade], hprints.sane, hprints.levels⟩
      exact hfirst.trans (ih (tradeWith_sound hne hb₁ htrade) hprints.levels hloop)

theorem settle_prints {slot : Nat} {filled : Qty} (hlevels : PositiveLevels b)
    (hprice : no.kind = .limit → ∀ o, b.slot? slot = some o → 0 < o.price)
    (h : settle b no slot filled seq = .ok (b', events)) : Prints b events b' := by
  cases settle_cases h with
  | @closed o b₁ _ _ _ hremove =>
    obtain ⟨x, -, rfl⟩ := removeOrder_inv hremove
    exact .quiet rfl (by simp [OutputEvent.tradePrice?])
      ((hlevels.removeOrder hremove).setIndex _)
  | rested _ _ hkind hrest =>
    have hindexed := hlevels.setIndex (b.idIndex.insert no.id ⟨no.price, no.side, slot⟩)
    refine .quiet ?_ ?_ (hindexed.insertResting (hprice hkind) hrest)
    · exact (Rewired.insertResting hrest).lastTrade
    · split <;> simp [OutputEvent.tradePrice?]
  | dropped _ _ _ hremove =>
    have hlast := hlevels.removeOrder hremove
    obtain ⟨x, -, rfl⟩ := removeOrder_inv hremove
    refine .quiet rfl ?_ hlast
    split <;> simp [OutputEvent.tradePrice?]
  | left _ _ => exact .quiet rfl nofun hlevels

theorem execute_prints (hb : Sound b none) (hlevels : PositiveLevels b)
    (hprice : no.kind = .limit → 0 < no.price)
    (h : execute fuel b no seq ts = .ok (b', events)) : Prints b events b' := by
  obtain ⟨o, b₁, filled, fills, closing, hloop, hsettle, rfl⟩ := execute_calls h
  have hcore : coreOf (Slab.insert b.arena (no.toOrder seq ts)) =
      Function.update (coreOf b.arena) (Slab.vacantKey b.arena) (some (no.toOrder seq ts)) :=
    coreOf_insert
  have hb₀ : Sound (b.setArena (Slab.insert b.arena (no.toOrder seq ts)))
      (some (Slab.vacantKey b.arena)) := by
    intro r x hx hr
    rw [OrderBook.arena_setArena, hcore, Function.update_of_ne fun e => hr (by rw [e])] at hx
    exact hb r x hx nofun
  have ho₀ : coreOf (b.setArena (Slab.insert b.arena (no.toOrder seq ts))).arena
      (Slab.vacantKey b.arena) = some (no.toOrder seq ts) := by
    rw [OrderBook.arena_setArena, hcore, Function.update_self]
  have hloop' := matchLoop_prints hb₀
    (hlevels.congr fun _ _ => OrderBook.level?_setArena ..) hloop
  obtain ⟨-, ⟨left, ho₁, -⟩, -⟩ := matchLoop_inv hloop hb₀ ho₀ (Nat.zero_add no.qty.toNat)
    no.qty.toNat_lt
  have hfills : Prints b fills b₁ := ⟨hloop'.last, hloop'.sane, hloop'.levels⟩
  refine hfills.trans (settle_prints hloop'.levels (fun hkind x hx => ?_) hsettle)
  have hsame := (coreOf_of_slot? hx).symm.trans ho₁
  have hxprice : x.price = no.price := congrArg Order.price (Option.some.inj hsame)
  rw [hxprice]
  exact hprice hkind

end Matching

/-! ## Stop triggers -/

section Triggers

variable {resubmit : OrderBook A → NewOrder → Outcome (OrderBook A × List OutputEvent)}
  (hresubmit : ∀ {b no b' events}, Sound b none → PositiveLevels b →
    resubmit b no = .ok (b', events) → Prints b events b' ∧ Sound b' none)
include hresubmit

theorem activate_prints (hb : Sound b none) (hlevels : PositiveLevels b)
    (h : activate resubmit b s = .ok (b', events)) : Prints b events b' ∧ Sound b' none := by
  cases activate_cases h with
  | vacant _ => exact ⟨.quiet rfl nofun hlevels, hb⟩
  | @resubmitted o b₁ _ _ ho hremove hnew =>
    obtain ⟨hb₁, -⟩ := activated_valid hb ho hremove
    have hlevels₁ := (hlevels.setIndex (b.idIndex.erase o.id)).removeOrder hremove
    obtain ⟨hprints, hb'⟩ := hresubmit hb₁ hlevels₁ hnew
    obtain ⟨x, -, rfl⟩ := removeOrder_inv hremove
    exact ⟨⟨hprints.last, hprints.sane, hprints.levels⟩, hb'⟩

theorem activateAll_prints {slots : List Nat} (hb : Sound b none) (hlevels : PositiveLevels b)
    (h : activateAll resubmit slots b = .ok (b', events)) :
    Prints b events b' ∧ Sound b' none := by
  induction slots generalizing b events with
  | nil =>
    cases h
    exact ⟨.quiet rfl nofun hlevels, hb⟩
  | cons slot rest ih =>
    obtain ⟨⟨b₁, events₁⟩, hfirst, h⟩ := bind_eq_ok.1 h
    obtain ⟨⟨b₂, events₂⟩, hrest, h⟩ := bind_eq_ok.1 h
    cases h
    obtain ⟨hprints, hb₁⟩ := activate_prints hresubmit hb hlevels hfirst
    obtain ⟨hlater, hb₂⟩ := ih hb₁ hprints.levels hrest
    exact ⟨hprints.trans hlater, hb₂⟩

theorem triggerSide_prints {last : Price} (hb : Sound b none) (hlevels : PositiveLevels b)
    (h : triggerSide resubmit b side last = .ok (b', events)) :
    Prints b events b' ∧ Sound b' none := by
  obtain ⟨⟨b₁, events₁⟩, hall, h⟩ := bind_eq_ok.1 h
  cases h
  obtain ⟨hprints, hb₁⟩ := activateAll_prints hresubmit hb hlevels hall
  exact ⟨⟨hprints.last, hprints.sane,
    hprints.levels.congr fun _ _ => OrderBook.level?_setStops ..⟩, hb₁⟩

theorem triggerStops_prints {last : Price} (hb : Sound b none) (hlevels : PositiveLevels b)
    (h : triggerStops resubmit b last = .ok (b', events)) : Prints b events b' := by
  obtain ⟨⟨b₁, buys⟩, hbuys, h⟩ := bind_eq_ok.1 h
  obtain ⟨⟨b₂, sells⟩, hsells, h⟩ := bind_eq_ok.1 h
  cases h
  obtain ⟨hprints, hb₁⟩ := triggerSide_prints hresubmit hb hlevels hbuys
  exact hprints.trans (triggerSide_prints hresubmit hb₁ hprints.levels hsells).1

end Triggers

/-! ## Commands -/

theorem applyNew_prints (hb : Sound b none) (hlevels : PositiveLevels b)
    (h : applyNew seq ts fuel b no = .ok (b', events)) : Prints b events b' := by
  induction fuel generalizing b no b' events with
  | zero => cases h
  | succ fuel ih =>
    have hexecuted : ∀ {b₁ fills}, validate b no = none → no.kind.isStop = false →
        execute fuel b no seq ts = .ok (b₁, fills) →
        Prints b (.accepted no.id seq :: fills) b₁ ∧ Sound b₁ none := by
      intro b₁ fills hvalid hstop hexec
      obtain ⟨hqty, -, hprice⟩ := validate_eq_none.1 hvalid
      have hlimit : no.kind = .limit → 0 < no.price := fun hk => hprice (by rw [hk]; rfl)
      have haccepted : Prints b [.accepted no.id seq] b :=
        .quiet rfl (by simp [OutputEvent.tradePrice?]) hlevels
      exact ⟨haccepted.trans (execute_prints hb hlevels hlimit hexec),
        (execute_inv hexec hb hqty hstop hlimit).1⟩
    cases applyNew_cases h with
    | refused _ => exact .quiet rfl (by simp [OutputEvent.tradePrice?]) hlevels
    | held _ _ =>
      exact .quiet rfl (by simp [OutputEvent.tradePrice?])
        (hlevels.congr fun _ _ => OrderBook.level?_setStops ..)
    | killed _ _ _ => exact .quiet rfl (by simp [OutputEvent.tradePrice?]) hlevels
    | untraded hvalid hstop _ hexec _ => exact (hexecuted hvalid hstop hexec).1
    | traded hvalid hstop _ hexec _ htrigger =>
      obtain ⟨hprints, hb₁⟩ := hexecuted hvalid hstop hexec
      exact hprints.trans (triggerStops_prints
        (fun hb hlevels h => ⟨ih hb hlevels h, (applyNew_inv h hb).1⟩) hb₁ hprints.levels htrigger)

/-- What cancel and replace do before they answer. -/
theorem takeOut_prints {b₁ : OrderBook A} {m : Std.ExtTreeMap OrderId Location} {qty : Qty}
    (hlevels : PositiveLevels b) (h₁ : (b.setIndex m).removeSlot s side p qty = .ok b₁)
    (h₂ : b₁.removeOrder s = .ok b') {e : OutputEvent} (he : e.tradePrice? = none) :
    Prints b [e] b' := by
  have hlevels' := ((hlevels.setIndex m).removeSlot h₁).removeOrder h₂
  obtain ⟨o, -, rfl⟩ := removeOrder_inv h₂
  exact .quiet (Rewired.removeSlot h₁).lastTrade (by simpa using he) hlevels'

theorem applyWithin_prints {cmd : Sequenced} (hb : Sound b none) (hlevels : PositiveLevels b)
    (h : applyWithin fuel b cmd = .ok (b', events)) : Prints b events b' := by
  obtain ⟨seq, ts, cmd⟩ := cmd
  cases cmd with
  | new no => exact applyNew_prints hb hlevels h
  | cancel id symbol =>
    cases applyCancel_cases h with
    | unknown _ => exact .quiet rfl (by simp [OutputEvent.tradePrice?]) hlevels
    | cancelled _ _ h₁ h₂ => exact takeOut_prints hlevels h₁ h₂ rfl
  | replace id newPrice newQty symbol =>
    cases applyReplace_cases h with
    | zeroQty _ => exact .quiet rfl (by simp [OutputEvent.tradePrice?]) hlevels
    | unknown _ _ => exact .quiet rfl (by simp [OutputEvent.tradePrice?]) hlevels
    | replaced _ _ _ h₁ h₂ hnew =>
      have hprints := takeOut_prints (e := .replaced id seq) hlevels h₁ h₂ rfl
      exact hprints.trans (applyNew_prints (takeOut_inv h₁ h₂ hb).1 hprints.levels hnew)

/-- **The tape.** Whatever the commands are, the book shows the last trade so far, every
trade was of some quantity at a positive price, and every level is at a positive
price. -/
theorem reaches_tape {symbol : SymbolId} {tick : Price} {log : List Entry}
    (h : Reaches symbol tick log b) :
    b.lastTrade = (tape log).getLast? ∧ (∀ entry ∈ log, ∀ e ∈ entry.2, e.Sane) ∧
      PositiveLevels b := by
  have hnew : PositiveLevels (OrderBook.new symbol tick : OrderBook A) := by
    intro side p hp
    cases side <;> simp [OrderBook.new, OrderBook.level?, OrderBook.levels] at hp
  refine Run.invariant (I := fun log b => b.lastTrade = (tape log).getLast? ∧
    (∀ entry ∈ log, ∀ e ∈ entry.2, e.Sane) ∧ PositiveLevels b) ⟨rfl, by simp, hnew⟩ ?_ h
  rintro log b e b' hrun ⟨hlast, hsane, hlevels⟩ ⟨fuel, h⟩
  have hprints := applyWithin_prints (reaches_sound hrun) hlevels h
  refine ⟨?_, ?_, hprints.levels⟩
  · rw [hprints.last, hlast, tape_snoc, List.getLast?_append]
  · exact List.forall_mem_append.2 ⟨hsane, List.forall_mem_singleton.2 hprints.sane⟩

/-- A held stop fires on the trade of the last command and trades at the next ask. -/
def twoPrints : List Sequenced :=
  [⟨1, 0, .new ⟨1, 0, .sell, .limit, .gtc, 100, 0, 1⟩⟩,
   ⟨2, 0, .new ⟨2, 0, .sell, .limit, .gtc, 105, 0, 3⟩⟩,
   ⟨3, 0, .new ⟨3, 0, .buy, .stopMarket, .gtc, 0, 100, 1⟩⟩,
   ⟨4, 0, .new ⟨4, 0, .buy, .market, .gtc, 0, 0, 1⟩⟩]

theorem reaches_tape_sample : ∃ (b : OrderBook (VecSlab Order)) (log : List Entry),
    log.map Prod.fst = twoPrints ∧ tape log = [100, 105] ∧ b.lastTrade = some 105 := by
  have hok : ∃ r, applyAll 9 (OrderBook.new 0 1 : OrderBook (VecSlab Order)) twoPrints = .ok r ∧
      r.2.map Prod.fst = twoPrints ∧ tape r.2 = [100, 105] := by
    refine ⟨_, rfl, ?_⟩
    decide +kernel
  obtain ⟨⟨b, log⟩, hrun, hlog, htape⟩ := hok
  refine ⟨b, log, hlog, htape, ?_⟩
  rw [(reaches_tape (reaches_applyAll hrun)).1, htape]
  rfl

end Exchange
