import Exchange.Core.Matcher

/-!
# What a call has done

One constructor for each way in which a function of the matcher returns, with the tests
that led there and the calls it made. What a command keeps is proved by cases on these.
-/

namespace Exchange

open Fuel

variable {A : Type} [Slab A Order] {b b' : OrderBook A} {no : NewOrder} {seq : Seq} {ts : Ts}
  {events : List OutputEvent} {fuel : Nat}

/-! ## The match loop -/

/-- What a step of budget of the loop did. -/
inductive MatchLoopCase (t : Aggressor) (seq : Seq) (ts : Ts) (fuel : Nat) (b : OrderBook A)
    (total : Qty) : OrderBook A → Qty → List OutputEvent → Prop
  | done : MatchLoopCase t seq ts fuel b total b total []
  | traded {b₁ b' : OrderBook A} {qty total' : Qty} {events₁ events₂ : List OutputEvent}
      (step : matchStep b t seq ts = .ok (some (b₁, qty, events₁)))
      (loop : matchLoop t seq ts fuel b₁ (total + qty) = .ok (b', total', events₂)) :
      MatchLoopCase t seq ts fuel b total b' total' (events₁ ++ events₂)

theorem matchLoop_cases {t : Aggressor} {total total' : Qty}
    (h : matchLoop t seq ts (fuel + 1) b total = .ok (b', total', events)) :
    MatchLoopCase t seq ts fuel b total b' total' events := by
  obtain ⟨r, hstep, h⟩ := bind_eq_ok.1 h
  cases r with
  | none =>
    cases h
    exact .done
  | some r =>
    obtain ⟨b₁, qty, events₁⟩ := r
    obtain ⟨⟨b₂, total₂, events₂⟩, hloop, h⟩ := bind_eq_ok.1 h
    cases h
    exact .traded hstep hloop

/-! ## Settling -/

/-- What `settle` made of the order in `slot`. -/
inductive SettleCase (b : OrderBook A) (no : NewOrder) (slot : Nat) (filled : Qty) (seq : Seq) :
    OrderBook A → List OutputEvent → Prop
  | closed {o : Order} {b₁ : OrderBook A} (order : b.order slot = .ok o)
      (traded : filled > 0) (full : o.remaining = 0) (removed : b.removeOrder slot = .ok b₁) :
      SettleCase b no slot filled seq (b₁.setIndex (b₁.idIndex.erase no.id)) [.filled no.id seq]
  | rested {o : Order} {b₁ : OrderBook A} (order : b.order slot = .ok o)
      (unfilled : ¬(filled > 0 ∧ o.remaining = 0)) (limit : no.kind = .limit)
      (rested : restOrder b no slot = .ok b₁) :
      SettleCase b no slot filled seq b₁
        (if filled > 0 then [.partiallyFilled no.id filled o.remaining seq] else [])
  | dropped {o : Order} {b₁ : OrderBook A} (order : b.order slot = .ok o)
      (unfilled : ¬(filled > 0 ∧ o.remaining = 0)) (unlimited : no.kind ≠ .limit)
      (removed : b.removeOrder slot = .ok b₁) :
      SettleCase b no slot filled seq b₁
        ((if filled > 0 then [.partiallyFilled no.id filled o.remaining seq] else []) ++
          [.cancelled no.id seq])
  | left (untraded : ¬filled > 0) (stop : no.kind.isStop = true) :
      SettleCase b no slot filled seq b []

theorem settle_cases {slot : Nat} {filled : Qty}
    (h : settle b no slot filled seq = .ok (b', events)) :
    SettleCase b no slot filled seq b' events := by
  obtain ⟨o, ho, h⟩ := bind_eq_ok.1 h
  dsimp only at h
  split at h
  · next hclosed =>
    obtain ⟨b₁, h₁, h⟩ := bind_eq_ok.1 h
    cases h
    exact .closed ho hclosed.1 hclosed.2 h₁
  · next hopen =>
    have hrested : ∀ {closing}, no.kind = .limit →
        (if filled > 0 then [OutputEvent.partiallyFilled no.id filled o.remaining seq] else []) =
          closing →
        (do let b ← restOrder b no slot; return (b, closing) : Outcome _) = .ok (b', events) →
        SettleCase b no slot filled seq b' events := by
      rintro closing hlimit rfl h
      obtain ⟨b₁, h₁, h⟩ := bind_eq_ok.1 h
      cases h
      exact .rested ho hopen hlimit h₁
    have hdropped : ∀ {closing}, no.kind ≠ .limit →
        (if filled > 0 then [OutputEvent.partiallyFilled no.id filled o.remaining seq] else []) ++
          [.cancelled no.id seq] = closing →
        (do let b ← b.removeOrder slot; return (b, closing) : Outcome _) = .ok (b', events) →
        SettleCase b no slot filled seq b' events := by
      rintro closing hlimit rfl h
      obtain ⟨b₁, h₁, h⟩ := bind_eq_ok.1 h
      cases h
      exact .dropped ho hopen hlimit h₁
    split at h
    · next hfilled =>
      split at h
      · next hlimit => exact hrested hlimit (if_pos hfilled) h
      · next hlimit => exact hdropped hlimit (by rw [if_pos hfilled]; rfl) h
    · next hfilled =>
      split at h
      · next hkind => exact hrested hkind (if_neg hfilled) h
      · next hkind => exact hdropped (by rw [hkind]; decide) (by rw [if_neg hfilled]; rfl) h
      · next hkind => exact hdropped (by rw [hkind]; decide) (by rw [if_neg hfilled]; rfl) h
      · next hkind => exact hdropped (by rw [hkind]; decide) (by rw [if_neg hfilled]; rfl) h
      · next hlimit hmarket hioc hfok =>
        cases h
        refine .left hfilled ?_
        cases hkind : no.kind with
        | limit => exact absurd hkind hlimit
        | market => exact absurd hkind hmarket
        | ioc => exact absurd hkind hioc
        | fok => exact absurd hkind hfok
        | stopMarket => rfl
        | stopLimit => rfl

/-- The order is entered, matched and settled. -/
theorem execute_calls (h : execute fuel b no seq ts = .ok (b', events)) :
    ∃ o b₁ filled fills closing,
      matchLoop ⟨Slab.vacantKey b.arena, Order.side o, o.kind, o.price⟩ seq ts fuel
        (b.setArena (Slab.insert b.arena (no.toOrder seq ts))) 0 = .ok (b₁, filled, fills) ∧
      settle b₁ no (Slab.vacantKey b.arena) filled seq = .ok (b', closing) ∧
      events = fills ++ closing := by
  obtain ⟨⟨b₁, filled, fills⟩, hmatch, h⟩ := bind_eq_ok.1 h
  obtain ⟨⟨b₂, closing⟩, hsettle, h⟩ := bind_eq_ok.1 h
  cases h
  obtain ⟨o, -, hloop⟩ := bind_eq_ok.1 hmatch
  exact ⟨o, b₁, filled, fills, closing, hloop, hsettle, rfl⟩

/-! ## Triggers -/

/-- What `activate` made of the slot. -/
inductive ActivateCase
    (resubmit : OrderBook A → NewOrder → Outcome (OrderBook A × List OutputEvent))
    (b : OrderBook A) (s : Nat) : OrderBook A → List OutputEvent → Prop
  | vacant (empty : b.slot? s = none) : ActivateCase resubmit b s b []
  | resubmitted {o : Order} {b₁ b₂ : OrderBook A} {answer : List OutputEvent}
      (stored : b.slot? s = some o)
      (removed : (b.setIndex (b.idIndex.erase o.id)).removeOrder s = .ok b₁)
      (entered : resubmit b₁ o.activated = .ok (b₂, answer)) :
      ActivateCase resubmit b s b₂ answer

theorem activate_cases {s : Nat}
    {resubmit : OrderBook A → NewOrder → Outcome (OrderBook A × List OutputEvent)}
    (h : activate resubmit b s = .ok (b', events)) : ActivateCase resubmit b s b' events := by
  unfold activate at h
  split at h
  · next hvacant =>
    cases h
    exact .vacant hvacant
  · next o ho =>
    obtain ⟨b₁, hremove, h⟩ := bind_eq_ok.1 h
    exact .resubmitted ho hremove h

/-! ## Commands -/

/-- What `applyNew` made of a new order. -/
inductive NewCase (seq : Seq) (ts : Ts) (fuel : Nat) (b : OrderBook A) (no : NewOrder) :
    OrderBook A → List OutputEvent → Prop
  | refused {reason : RejectReason} (invalid : validate b no = some reason) :
      NewCase seq ts fuel b no b [.rejected no.id reason seq]
  | held (valid : validate b no = none) (stop : no.kind.isStop = true) :
      NewCase seq ts fuel b no (holdStop b no seq ts) [.accepted no.id seq]
  | killed (valid : validate b no = none) (fok : no.kind = .fok)
      (short : availableQty b no.side no.price < no.qty) :
      NewCase seq ts fuel b no b [.accepted no.id seq, .rejected no.id .fokUnfillable seq]
  | untraded {b₁ : OrderBook A} {fills : List OutputEvent} (valid : validate b no = none)
      (unstop : no.kind.isStop = false)
      (fillable : ¬(no.kind = .fok ∧ availableQty b no.side no.price < no.qty))
      (executed : execute fuel b no seq ts = .ok (b₁, fills)) (never : b₁.lastTrade = none) :
      NewCase seq ts fuel b no b₁ (.accepted no.id seq :: fills)
  | traded {b₁ b₂ : OrderBook A} {fills triggered : List OutputEvent} {last : Price}
      (valid : validate b no = none) (unstop : no.kind.isStop = false)
      (fillable : ¬(no.kind = .fok ∧ availableQty b no.side no.price < no.qty))
      (executed : execute fuel b no seq ts = .ok (b₁, fills)) (price : b₁.lastTrade = some last)
      (cascade : triggerStops (applyNew seq ts fuel) b₁ last = .ok (b₂, triggered)) :
      NewCase seq ts fuel b no b₂ (.accepted no.id seq :: fills ++ triggered)

theorem applyNew_cases (h : applyNew seq ts (fuel + 1) b no = .ok (b', events)) :
    NewCase seq ts fuel b no b' events := by
  unfold applyNew at h
  split at h
  · next reason hinvalid =>
    cases h
    exact .refused hinvalid
  · next hvalid =>
    split at h
    · next hstop =>
      cases h
      exact .held hvalid hstop
    · next hstop =>
      split at h
      · next hfok =>
        cases h
        exact .killed hvalid hfok.1 hfok.2
      · next hfok =>
        obtain ⟨⟨b₁, fills⟩, hexec, h⟩ := bind_eq_ok.1 h
        have hstop := Bool.eq_false_iff.2 hstop
        cases hlast : b₁.lastTrade with
        | none =>
          simp only [hlast] at h
          cases h
          exact .untraded hvalid hstop hfok hexec hlast
        | some last =>
          simp only [hlast] at h
          obtain ⟨⟨b₂, triggered⟩, htrigger, h⟩ := bind_eq_ok.1 h
          cases h
          exact .traded hvalid hstop hfok hexec hlast htrigger

/-- A stop order is refused or held. -/
theorem applyNew_stop_cases (hstop : no.kind.isStop = true)
    (h : applyNew seq ts fuel b no = .ok (b', events)) :
    validate b no ≠ none ∧ b' = b ∨ validate b no = none ∧ b' = holdStop b no seq ts := by
  cases fuel with
  | zero => cases h
  | succ fuel =>
    cases applyNew_cases h with
    | refused hinvalid => exact .inl ⟨by rw [hinvalid]; simp, rfl⟩
    | held hvalid _ => exact .inr ⟨hvalid, rfl⟩
    | killed _ hfok _ =>
      rw [hfok] at hstop
      cases hstop
    | untraded _ hunstop _ _ _ => cases hunstop.symm.trans hstop
    | traded _ hunstop _ _ _ _ => cases hunstop.symm.trans hstop

/-- What `applyCancel` made of the order `id`. -/
inductive CancelCase (b : OrderBook A) (id : OrderId) (seq : Seq) :
    OrderBook A → List OutputEvent → Prop
  | unknown (missing : b.idIndex[id]? = none) :
      CancelCase b id seq b [.rejected id .unknownId seq]
  | cancelled {loc : Location} {o : Order} {b₁ b₂ : OrderBook A}
      (indexed : b.idIndex[id]? = some loc) (order : b.order loc.slot = .ok o)
      (unlinked : (b.setIndex (b.idIndex.erase id)).removeSlot loc.slot loc.side loc.price
        o.remaining = .ok b₁)
      (removed : b₁.removeOrder loc.slot = .ok b₂) :
      CancelCase b id seq b₂ [.cancelled id seq]

theorem applyCancel_cases {id : OrderId} (h : applyCancel b id seq = .ok (b', events)) :
    CancelCase b id seq b' events := by
  unfold applyCancel at h
  split at h
  · next hidx =>
    cases h
    exact .unknown hidx
  · next loc hidx =>
    obtain ⟨o, ho, h⟩ := bind_eq_ok.1 h
    obtain ⟨b₁, h₁, h⟩ := bind_eq_ok.1 h
    obtain ⟨b₂, h₂, h⟩ := bind_eq_ok.1 h
    cases h
    exact .cancelled hidx ho h₁ h₂

/-- What `applyReplace` made of the order `id`. -/
inductive ReplaceCase (fuel : Nat) (b : OrderBook A) (id : OrderId) (newPrice : Price)
    (newQty : Qty) (seq : Seq) (ts : Ts) : OrderBook A → List OutputEvent → Prop
  | zeroQty (zero : newQty = 0) :
      ReplaceCase fuel b id newPrice newQty seq ts b [.rejected id .zeroQty seq]
  | unknown (nonzero : newQty ≠ 0) (missing : b.idIndex[id]? = none) :
      ReplaceCase fuel b id newPrice newQty seq ts b [.rejected id .unknownId seq]
  | replaced {loc : Location} {o : Order} {b₁ b₂ b₃ : OrderBook A} {answer : List OutputEvent}
      (nonzero : newQty ≠ 0) (indexed : b.idIndex[id]? = some loc)
      (order : b.order loc.slot = .ok o)
      (unlinked : (b.setIndex (b.idIndex.erase id)).removeSlot loc.slot o.side loc.price
        o.remaining = .ok b₁)
      (removed : b₁.removeOrder loc.slot = .ok b₂)
      (entered : applyNew seq ts fuel b₂ (o.replacement id newPrice newQty) =
        .ok (b₃, answer)) :
      ReplaceCase fuel b id newPrice newQty seq ts b₃ (.replaced id seq :: answer)

theorem applyReplace_cases {id : OrderId} {newPrice : Price} {newQty : Qty}
    (h : applyReplace fuel b id newPrice newQty seq ts = .ok (b', events)) :
    ReplaceCase fuel b id newPrice newQty seq ts b' events := by
  unfold applyReplace at h
  split at h
  · next hzero =>
    cases h
    exact .zeroQty hzero
  · next hqty =>
    split at h
    · next hidx =>
      cases h
      exact .unknown hqty hidx
    · next loc hidx =>
      obtain ⟨o, ho, h⟩ := bind_eq_ok.1 h
      obtain ⟨b₁, h₁, h⟩ := bind_eq_ok.1 h
      obtain ⟨b₂, h₂, h⟩ := bind_eq_ok.1 h
      obtain ⟨⟨b₃, answer⟩, hnew, h⟩ := bind_eq_ok.1 h
      cases h
      exact .replaced hqty hidx ho h₁ h₂ hnew

end Exchange
