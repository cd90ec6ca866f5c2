import Exchange.Verify.Budget
import Exchange.Verify.Maintained

/-!
# What a rejected command changes

On every reachable book, stop orders included, a call that reports a rejection of
its own command leaves the book as it was, except for one kind of replace: the
price is checked only after the old order is gone.
-/

namespace Exchange

open Fuel

variable {A : Type} [Slab A Order] {b b' : OrderBook A} {no : NewOrder} {seq : Seq} {ts : Ts}
  {events : List OutputEvent} {o : Order} {s : Nat}

theorem Price.pos_iff {p : Price} : 0 < p ↔ ¬p ≤ 0 := by
  rw [Int64.le_iff_toInt_le, Int64.lt_iff_toInt_lt]
  omega

/-! ## New orders -/

omit [Slab A Order] in
theorem validate_eq_none : validate b no = none ↔
    no.qty ≠ 0 ∧ b.idIndex.contains no.id = false ∧
      (no.kind.needsPrice = true → 0 < no.price) := by
  have hprice : (no.kind.needsPrice && decide (no.price ≤ 0)) = true ↔
      ¬(no.kind.needsPrice = true → 0 < no.price) := by
    rw [Bool.and_eq_true, decide_eq_true_eq, Price.pos_iff, Classical.not_imp, Classical.not_not]
  unfold validate
  split_ifs with hqty hid hp
  · exact iff_of_false nofun fun h => h.1 hqty
  · exact iff_of_false nofun fun h => by simp [hid] at h
  · exact iff_of_false nofun fun h => hprice.1 hp h.2.2
  · exact iff_of_true rfl ⟨hqty, Bool.eq_false_iff.2 hid,
      Classical.not_not.1 fun h => hp (hprice.2 h)⟩

theorem execute_inv {fuel : Nat} (h : execute fuel b no seq ts = .ok (b', events))
    (hb : Sound b none) (hqty : no.qty ≠ 0) (hkind : no.kind.isStop = false)
    (hprice : no.kind = .limit → 0 < no.price) :
    Sound b' none ∧ ∀ e ∈ events, e.rejects = false := by
  obtain ⟨o, b₁, filled, fills, closing, hloop, hsettle, rfl⟩ := execute_calls h
  have hcore : coreOf (Slab.insert b.arena (no.toOrder seq ts)) =
      Function.update (coreOf b.arena) (Slab.vacantKey b.arena) (some (no.toOrder seq ts)) :=
    coreOf_insert
  have hb₀ : Sound (b.setArena (Slab.insert b.arena (no.toOrder seq ts)))
      (some (Slab.vacantKey b.arena)) := by
    intro r x hx hr
    rw [OrderBook.arena_setArena, hcore, Function.update_of_ne fun e => hr (by rw [e])] at hx
    exact hb r x hx nofun
  have ho₀ : coreOf (b.setArena (Slab.insert b.arena (no.toOrder seq ts))).arena
      (Slab.vacantKey b.arena) = some (no.toOrder seq ts) := by
    rw [OrderBook.arena_setArena, hcore, Function.update_self]
  obtain ⟨hb₁, ⟨left, ho₁, hsum⟩, hquiet⟩ := matchLoop_inv hloop hb₀ ho₀
    (Nat.zero_add no.qty.toNat) no.qty.toNat_lt
  obtain ⟨hb₂, hquiet'⟩ := settle_inv hsettle hb₁ ho₁ hsum hqty hkind hprice
  refine ⟨hb₂, fun e he => ?_⟩
  rcases List.mem_append.1 he with he | he
  · exact hquiet e he
  · exact hquiet' e he

theorem Sound.holdStop (hb : Sound b none) (hqty : no.qty ≠ 0) (hstop : no.kind.isStop = true)
    (hprice : no.kind.needsPrice = true → 0 < no.price) :
    Sound (Exchange.holdStop b no seq ts) none := by
  have hcore : coreOf (Exchange.holdStop b no seq ts).arena =
      Function.update (coreOf b.arena) (Slab.vacantKey b.arena) (some (no.toOrder seq ts)) :=
    coreOf_insert
  have hkind : no.kind = .stopMarket ∨
      (no.kind = .limit ∨ no.kind = .stopLimit) ∧ 0 < no.price := by
    cases hk : no.kind with
    | stopMarket => exact .inl rfl
    | stopLimit => exact .inr ⟨.inr rfl, hprice (by rw [hk]; rfl)⟩
    | _ =>
      rw [hk] at hstop
      cases hstop
  intro r x hx _
  rw [hcore] at hx
  by_cases hr : r = Slab.vacantKey b.arena
  · rw [hr, Function.update_self] at hx
    cases hx
    exact ⟨hqty, hkind⟩
  · rw [Function.update_of_ne hr] at hx
    exact hb r x hx nofun

/-! ## Stop triggers -/

/-- What is asked of a call that re-submits an order which passes validation. -/
def Accepts (resubmit : OrderBook A → NewOrder → Outcome (OrderBook A × List OutputEvent)) :
    Prop :=
  ∀ b no b' events, Sound b none → validate b no = none → no.kind ≠ .fok →
    resubmit b no = .ok (b', events) → Sound b' none ∧ ∀ e ∈ events, e.rejects = false

/-- A sound order that is pulled out passes validation again. -/
theorem activated_valid (hb : Sound b none) (ho : b.slot? s = some o)
    (h : (b.setIndex (b.idIndex.erase o.id)).removeOrder s = .ok b') :
    Sound b' none ∧ validate b' o.activated = none ∧ o.activated.kind ≠ .fok := by
  have hsound := hb s _ (coreOf_of_slot? ho) nofun
  have hb₀ : Sound (b.setIndex (b.idIndex.erase o.id)) (some s) :=
    fun r x hx _ => hb r x hx nofun
  refine ⟨hb₀.remove h, ?_, ?_⟩
  · obtain ⟨o', -, rfl⟩ := removeOrder_inv h
    have hid : (b.idIndex.erase o.id).contains o.id = false := by simp
    refine validate_eq_none.2 ⟨hsound.remaining, hid, fun hk => ?_⟩
    rcases hsound.kind with hstop | ⟨-, hprice⟩
    · have hstop : o.kind = .stopMarket := hstop
      simp [Order.activated, hstop, OrderType.needsPrice] at hk
    · exact hprice
  · unfold Order.activated
    dsimp only
    split <;> nofun

theorem activate_inv
    {resubmit : OrderBook A → NewOrder → Outcome (OrderBook A × List OutputEvent)}
    (hresubmit : Accepts resubmit) (h : activate resubmit b s = .ok (b', events))
    (hb : Sound b none) : Sound b' none ∧ ∀ e ∈ events, e.rejects = false := by
  cases activate_cases h with
  | vacant _ => exact ⟨hb, nofun⟩
  | resubmitted ho hremove hnew =>
    obtain ⟨hb₁, hvalid, hfok⟩ := activated_valid hb ho hremove
    exact hresubmit _ _ _ _ hb₁ hvalid hfok hnew

/-- **New orders.** A new order is refused or killed on an unchanged book, or neither
it nor any stop it triggers is rejected. -/
theorem applyNew_inv {fuel : Nat} (h : applyNew seq ts fuel b no = .ok (b', events))
    (hb : Sound b none) :
    Sound b' none ∧
      (validate b no = none ∧ (∀ e ∈ events, e.rejects = false) ∨
        b' = b ∧ ∀ e ∈ events, e = .accepted no.id seq ∨ e.rejects = true) ∧
      (validate b no = none → no.kind ≠ .fok → ∀ e ∈ events, e.rejects = false) := by
  induction fuel generalizing b no b' events with
  | zero => cases h
  | succ fuel ih =>
    have hresubmit : Accepts (applyNew (A := A) seq ts fuel) :=
      fun b no b' events hb hvalid hk h => ⟨(ih h hb).1, (ih h hb).2.2 hvalid hk⟩
    have hexecuted : ∀ {b₁ fills}, validate b no = none → no.kind.isStop = false →
        execute fuel b no seq ts = .ok (b₁, fills) →
        Sound b₁ none ∧ ∀ e ∈ .accepted no.id seq :: fills, e.rejects = false := by
      intro b₁ fills hvalid hstop hexec
      obtain ⟨hqty, -, hprice⟩ := validate_eq_none.1 hvalid
      obtain ⟨hb₁, hquiet⟩ := execute_inv hexec hb hqty hstop fun hk => hprice (by rw [hk]; rfl)
      exact ⟨hb₁, List.forall_mem_cons.2 ⟨rfl, hquiet⟩⟩
    cases applyNew_cases h with
    | refused hinvalid =>
      exact ⟨hb, .inr ⟨rfl, by simp [OutputEvent.rejects]⟩, by simp [hinvalid]⟩
    | held hvalid hstop =>
      obtain ⟨hqty, -, hprice⟩ := validate_eq_none.1 hvalid
      have hquiet : ∀ e ∈ [OutputEvent.accepted no.id seq], e.rejects = false := by
        simp [OutputEvent.rejects]
      exact ⟨hb.holdStop hqty hstop hprice, .inl ⟨hvalid, hquiet⟩, fun _ _ => hquiet⟩
    | killed _ hfok _ =>
      exact ⟨hb, .inr ⟨rfl, by simp [OutputEvent.rejects]⟩, fun _ hk => absurd hfok hk⟩
    | untraded hvalid hstop _ hexec _ =>
      obtain ⟨hb₁, hquiet⟩ := hexecuted hvalid hstop hexec
      exact ⟨hb₁, .inl ⟨hvalid, hquiet⟩, fun _ _ => hquiet⟩
    | traded hvalid hstop _ hexec _ htrigger =>
      obtain ⟨hb₁, hquiet₁⟩ := hexecuted hvalid hstop hexec
      obtain ⟨hb₂, hquiet₂⟩ := triggerStops_induct (P := fun e => e.rejects = false)
        (fun hb h => activate_inv hresubmit h hb) (fun _ _ hb => hb) hb₁ htrigger
      have hquiet := List.forall_mem_append.2 ⟨hquiet₁, hquiet₂⟩
      exact ⟨hb₂, .inl ⟨hvalid, hquiet⟩, fun _ _ => hquiet⟩

/-! ## Taking an order out -/

/-- The removal that cancel and replace share. -/
theorem takeOut_inv {b₁ b₂ : OrderBook A} {m : Std.ExtTreeMap OrderId Location} {side : Side}
    {p : Price} {qty : Qty} (h₁ : (b.setIndex m).removeSlot s side p qty = .ok b₁)
    (h₂ : b₁.removeOrder s = .ok b₂) (hb : Sound b none) : Sound b₂ none ∧ b₂.idIndex = m := by
  have hrewired := Rewired.removeSlot h₁
  have hb₁ : Sound b₁ (some s) := by
    intro r x hx _
    rw [hrewired.core] at hx
    exact hb r x hx nofun
  have hb₂ := hb₁.remove h₂
  obtain ⟨o, -, rfl⟩ := removeOrder_inv h₂
  exact ⟨hb₂, hrewired.idIndex⟩

theorem applyCancel_inv {id : OrderId} (h : applyCancel b id seq = .ok (b', events))
    (hb : Sound b none) :
    Sound b' none ∧ (b' = b ∧ events = [.rejected id .unknownId seq] ∨
      events = [.cancelled id seq]) := by
  cases applyCancel_cases h with
  | unknown _ => exact ⟨hb, .inl ⟨rfl, rfl⟩⟩
  | cancelled _ _ h₁ h₂ => exact ⟨(takeOut_inv h₁ h₂ hb).1, .inr rfl⟩

/-- A replace is refused on the unchanged book, or re-submits the order it has taken
out. -/
theorem applyReplace_inv {fuel : Nat} {id : OrderId} {newPrice : Price} {newQty : Qty}
    (h : applyReplace fuel b id newPrice newQty seq ts = .ok (b', events)) (hb : Sound b none) :
    b' = b ∧ (∃ reason, events = [.rejected id reason seq]) ∧
        (newQty = 0 ∨ b.idIndex[id]? = none) ∨
      ∃ loc o b₂ events', newQty ≠ 0 ∧ b.idIndex[id]? = some loc ∧ b.slot? loc.slot = some o ∧
        Sound b₂ none ∧ b₂.idIndex.contains id = false ∧
        applyNew seq ts fuel b₂ (o.replacement id newPrice newQty) = .ok (b', events') ∧
        events = .replaced id seq :: events' := by
  cases applyReplace_cases h with
  | zeroQty hzero => exact .inl ⟨rfl, ⟨_, rfl⟩, .inl hzero⟩
  | unknown _ hidx => exact .inl ⟨rfl, ⟨_, rfl⟩, .inr hidx⟩
  | @replaced loc o b₁ b₂ _ events' hqty hidx ho h₁ h₂ hnew =>
    obtain ⟨hb₂, hindex⟩ := takeOut_inv h₁ h₂ hb
    refine .inr ⟨loc, o, b₂, events', hqty, hidx, slot?_of_order ho, hb₂, ?_, hnew, rfl⟩
    rw [hindex]
    simp

/-- The orders stay sound whatever is done to the book. -/
theorem Sound.maintained : Maintained (A := A) fun b => Sound b none where
  new symbol tick s o ho := by
    have hnone : coreOf (Slab.new : A) s = none := by simp [coreOf, Slab.get?_new]
    cases hnone.symm.trans ho
  execute hb hvalid hstop h := by
    obtain ⟨hqty, -, hprice⟩ := validate_eq_none.1 hvalid
    exact (execute_inv h hb hqty hstop fun hk => hprice (by rw [hk]; rfl)).1
  holdStop hb hvalid hstop := by
    obtain ⟨hqty, -, hprice⟩ := validate_eq_none.1 hvalid
    exact hb.holdStop hqty hstop hprice
  release {b s o b'} hb _ h := by
    have hb₀ : Sound (b.setIndex (b.idIndex.erase o.id)) (some s) :=
      fun r x hx _ => hb r x hx (by simp)
    exact hb₀.remove h
  retain _ _ hb := hb
  takeOut hb _ h₁ h₂ := (takeOut_inv h₁ h₂ hb).1

/-- Every book that is reached is sound. -/
theorem reaches_sound {symbol : SymbolId} {tick : Price} {log : List Entry}
    (h : Reaches symbol tick log b) : Sound b none :=
  Sound.maintained.reaches h

/-! ## Rejected commands -/

def Command.id : Command → OrderId
  | .new no => no.id
  | .cancel id _ => id
  | .replace id _ _ _ => id

/-- An event that reports a change of the book. -/
def OutputEvent.changes : OutputEvent → Bool
  | .trade .. | .filled .. | .cancelled .. | .replaced .. => true
  | _ => false

/-- When its own id is rejected, the command has changed nothing and reports no
change. -/
def RejectedUnchanged (b : OrderBook A) (cmd : Sequenced) (b' : OrderBook A)
    (events : List OutputEvent) : Prop :=
  (∃ reason seq, .rejected cmd.cmd.id reason seq ∈ events) →
    b' = b ∧ ∀ e ∈ events, e.changes = false

/-- The command replaces a live order that carries a limit price by a quantity at no
positive price. -/
def OrderBook.LosesOrder (b : OrderBook A) : Command → Prop
  | .replace id newPrice newQty _ => newQty ≠ 0 ∧ newPrice ≤ 0 ∧
      ∃ loc o, b.idIndex[id]? = some loc ∧ b.slot? loc.slot = some o ∧ o.kind ≠ .stopMarket
  | _ => False

omit [Slab A Order] in
theorem RejectedUnchanged.of_quiet {cmd : Sequenced} (h : ∀ e ∈ events, e.rejects = false) :
    RejectedUnchanged b cmd b' events := by
  rintro ⟨reason, seq, hmem⟩
  cases h _ hmem

omit [Slab A Order] in
theorem Order.Sound.kind_eq (h : o.Sound) :
    o.kind = .stopMarket ∨ o.kind = .limit ∨ o.kind = .stopLimit :=
  h.kind.imp_right And.left

theorem Order.Sound.needsPrice_iff (h : o.Sound) :
    o.kind.needsPrice = true ↔ o.kind ≠ .stopMarket := by
  rcases h.kind_eq with hk | hk | hk <;> simp [hk, OrderType.needsPrice]

theorem Order.Sound.kind_ne_fok (h : o.Sound) : o.kind ≠ .fok := by
  rcases h.kind_eq with hk | hk | hk <;> simp [hk]

/-- An order that validation refuses is reported, and nothing else happens. -/
theorem applyNew_refuses {fuel : Nat} {reason : RejectReason} (hinvalid : validate b no = some reason)
    (h : applyNew seq ts fuel b no = .ok (b', events)) :
    b' = b ∧ events = [.rejected no.id reason seq] := by
  cases fuel with
  | zero => cases h
  | succ fuel =>
    cases applyNew_cases h with
    | refused hreason =>
      cases hinvalid.symm.trans hreason
      exact ⟨rfl, rfl⟩
    | held hvalid _ => cases hinvalid.symm.trans hvalid
    | killed hvalid _ _ => cases hinvalid.symm.trans hvalid
    | untraded hvalid _ _ _ _ => cases hinvalid.symm.trans hvalid
    | traded hvalid _ _ _ _ _ => cases hinvalid.symm.trans hvalid

theorem applyNew_rejectedUnchanged {fuel : Nat} (hb : Sound b none)
    (h : applyNew seq ts fuel b no = .ok (b', events)) :
    RejectedUnchanged b ⟨seq, ts, .new no⟩ b' events := by
  rcases (applyNew_inv h hb).2.1 with ⟨-, hquiet⟩ | ⟨rfl, hall⟩
  · exact .of_quiet hquiet
  · intro _
    refine ⟨rfl, fun e he => ?_⟩
    rcases hall e he with rfl | hrejects
    · rfl
    · cases e with
      | rejected => rfl
      | _ => cases hrejects

theorem applyCancel_rejectedUnchanged {id : OrderId} {symbol : SymbolId} (hb : Sound b none)
    (h : applyCancel b id seq = .ok (b', events)) :
    RejectedUnchanged b ⟨seq, ts, .cancel id symbol⟩ b' events := by
  rcases (applyCancel_inv h hb).2 with ⟨rfl, rfl⟩ | rfl
  · exact fun _ => ⟨rfl, by simp [OutputEvent.changes]⟩
  · exact .of_quiet (by simp [OutputEvent.rejects])

/-- The price of a replace is refused when the old order is already gone. -/
theorem applyReplace_rejectedUnchanged {fuel : Nat} {id : OrderId} {newPrice : Price} {newQty : Qty}
    (symbol : SymbolId) (hb : Sound b none)
    (h : applyReplace fuel b id newPrice newQty seq ts = .ok (b', events)) :
    RejectedUnchanged b ⟨seq, ts, .replace id newPrice newQty symbol⟩ b' events ↔
      ¬b.LosesOrder (.replace id newPrice newQty symbol) := by
  rcases applyReplace_inv h hb with ⟨rfl, ⟨reason, rfl⟩, hnone⟩ |
    ⟨loc, o, b₂, events', hqty, hidx, ho, hb₂, hid, hnew, rfl⟩
  · refine iff_of_true (fun _ => ⟨rfl, by simp [OutputEvent.changes]⟩) ?_
    rintro ⟨hqty, -, loc, o, hidx, -⟩
    rcases hnone with hzero | hnone
    · exact hqty hzero
    · rw [hnone] at hidx
      cases hidx
  have hsound : o.unlinked.Sound := hb loc.slot _ (coreOf_of_slot? ho) (by simp)
  have hneeds : o.kind.needsPrice = true ↔ o.kind ≠ .stopMarket := hsound.needsPrice_iff
  have hloses : b.LosesOrder (.replace id newPrice newQty symbol) ↔
      newPrice ≤ 0 ∧ o.kind ≠ .stopMarket := by
    constructor
    · rintro ⟨-, hle, loc', o', hidx', ho', hk⟩
      cases hidx.symm.trans hidx'
      cases ho.symm.trans ho'
      exact ⟨hle, hk⟩
    · rintro ⟨hle, hk⟩
      exact ⟨hqty, hle, loc, o, hidx, ho, hk⟩
  have hvalid : validate b₂ (o.replacement id newPrice newQty) = none ↔
      ¬(newPrice ≤ 0 ∧ o.kind ≠ .stopMarket) := by
    refine validate_eq_none.trans
      ⟨fun ⟨_, _, hpos⟩ ⟨hle, hk⟩ => ?_, fun hnot => ⟨hqty, hid, fun hk => ?_⟩⟩
    · exact Price.pos_iff.1 (hpos (hneeds.2 hk)) hle
    · exact Price.pos_iff.2 fun hle => hnot ⟨hle, hneeds.1 hk⟩
  rw [hloses, ← hvalid]
  constructor
  · intro hunchanged
    by_contra hinvalid
    obtain ⟨reason, hreason⟩ := Option.ne_none_iff_exists'.1 hinvalid
    obtain ⟨-, rfl⟩ := applyNew_refuses hreason hnew
    have hall := (hunchanged ⟨reason, seq, by simp [Order.replacement, Command.id]⟩).2
    cases hall _ List.mem_cons_self
  · intro hvalid
    refine .of_quiet fun e he => ?_
    rcases List.mem_cons.1 he with rfl | he
    · rfl
    · exact (applyNew_inv hnew hb₂).2.2 hvalid hsound.kind_ne_fok e he

/-- **Rejected commands.** On a reached book a rejected command has changed nothing
exactly if it is not a replace that loses its order. -/
theorem reaches_rejectedUnchanged {symbol : SymbolId} {tick : Price} {log : List Entry}
    {cmd : Sequenced} (h : Reaches symbol tick log b) (happ : Applies b cmd b' events) :
    RejectedUnchanged b cmd b' events ↔ ¬b.LosesOrder cmd.cmd := by
  have hb := reaches_sound h
  obtain ⟨seq, ts, cmd⟩ := cmd
  obtain ⟨fuel, happ⟩ := happ
  cases cmd with
  | new no => exact iff_of_true (applyNew_rejectedUnchanged hb happ) not_false
  | cancel id symbol => exact iff_of_true (applyCancel_rejectedUnchanged hb happ) not_false
  | replace id newPrice newQty symbol => exact applyReplace_rejectedUnchanged symbol hb happ

theorem reaches_rejectedUnchanged_sample : ∃ (b b' : OrderBook (VecSlab Order))
    (events : List OutputEvent),
    Applies b ⟨2, 0, .new ⟨1, 0, .sell, .limit, .gtc, 101, 0, 5⟩⟩ b' events ∧
      events = [.rejected 1 .duplicateId 2] ∧
      RejectedUnchanged b ⟨2, 0, .new ⟨1, 0, .sell, .limit, .gtc, 101, 0, 5⟩⟩ b' events := by
  have hok : ∃ r r', applyAll 9 (OrderBook.new 0 1 : OrderBook (VecSlab Order))
      (sampleCommands.take 1) = .ok r ∧
      applyWithin 9 r.1 ⟨2, 0, .new ⟨1, 0, .sell, .limit, .gtc, 101, 0, 5⟩⟩ = .ok r' ∧
      r'.2 = [.rejected 1 .duplicateId 2] := by
    refine ⟨_, _, rfl, rfl, ?_⟩
    decide +kernel
  obtain ⟨⟨b, log⟩, ⟨b', events⟩, hrun, happ, hevents⟩ := hok
  exact ⟨b, b', events, ⟨9, happ⟩, hevents,
    (reaches_rejectedUnchanged (reaches_applyAll hrun) ⟨9, happ⟩).2 nofun⟩

/-- A bid of five at 100 is replaced at price 0: it is gone, and the call reports its
rejection. -/
theorem replace_loses_order : ∃ (log : List Entry) (b b' : OrderBook (VecSlab Order))
    (events : List OutputEvent),
    Reaches 0 1 log b ∧ Applies b ⟨2, 0, .replace 1 0 5 0⟩ b' events ∧
      .rejected 1 .badPrice 2 ∈ events ∧ .replaced 1 2 ∈ events ∧
      b.idIndex.contains 1 = true ∧ b'.idIndex.contains 1 = false ∧
      ¬RejectedUnchanged b ⟨2, 0, .replace 1 0 5 0⟩ b' events := by
  have hok : ∃ r r', applyAll 9 (OrderBook.new 0 1 : OrderBook (VecSlab Order))
      (sampleCommands.take 1) = .ok r ∧
      applyWithin 9 r.1 ⟨2, 0, .replace 1 0 5 0⟩ = .ok r' ∧
      .rejected 1 .badPrice 2 ∈ r'.2 ∧ .replaced 1 2 ∈ r'.2 ∧
      r.1.idIndex.contains 1 = true ∧ r'.1.idIndex.contains 1 = false := by
    refine ⟨_, _, rfl, rfl, ?_⟩
    decide +kernel
  obtain ⟨⟨b, log⟩, ⟨b', events⟩, hrun, happ, hrejected, hreplaced, hlive, hgone⟩ := hok
  refine ⟨log, b, b', events, reaches_applyAll hrun, ⟨9, happ⟩, hrejected, hreplaced, hlive, hgone,
    fun hunchanged => ?_⟩
  cases (hunchanged ⟨_, _, hrejected⟩).2 _ hreplaced

end Exchange
