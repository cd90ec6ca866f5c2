import Exchange.Verify.StopSteps
import Exchange.Verify.StopMaps

/-!
# Books with stop orders refine the priority book

Every run of clear commands, with all that they trigger, is a run of the priority book
with stop orders: the same events, and the same book afterwards.
-/

namespace Exchange

open PriorityBook Fuel Transition

variable {A : Type} [Slab A Order] {b b' b₁ : OrderBook A} {q q' q₀ : PriorityBook}
  {no : NewOrder} {seq : Seq} {ts : Ts} {es events : List OutputEvent} {side : Side} {t p : Price}
  {s : Nat} {fuel : Nat}

/-! ## The checks -/

namespace Models

theorem index_none_iff (hm : Models b q) {id : OrderId} :
    b.idIndex[id]? = none ↔ ¬q.Lives id := by
  obtain ⟨σ, hr⟩ := hm
  constructor
  · rintro hnone (⟨side, o, ho, hid⟩ | ⟨s, o, ho, rfl⟩)
    · exact hr.fresh hnone side o ho hid
    · have hidx := hr.filed.index_eq (hr.filed.held_core s o ho).1 nofun
      rw [hnone] at hidx
      cases hidx
  · intro h
    cases hidx : b.idIndex[id]? with
    | none => rfl
    | some loc =>
      obtain ⟨o, ho, hid, -, hmem | hheld⟩ := hr.filed.of_index hidx
      · obtain ⟨x, hx, hcore⟩ := hr.filed.core_of_mem hmem
        rw [ho] at hcore
        cases hcore
        exact absurd (.inl ⟨_, o, (mem_queue.1 hx).1, hid⟩) h
      · exact absurd (.inr ⟨_, o, hheld, hid⟩) h

theorem refuses_iff (hm : Models b q) {reason : RejectReason} :
    validate b no = some reason ↔ q.Refuses no reason := by
  have hlives : b.idIndex.contains no.id = true ↔ q.Lives no.id := by
    rw [Std.ExtTreeMap.contains_eq_isSome_getElem?, ← not_iff_not, ← hm.index_none_iff]
    simp
  unfold validate
  constructor
  · intro h
    split_ifs at h with hqty hid hprice
    · cases h
      exact .zeroQty hqty
    · cases h
      exact .duplicateId hqty (hlives.1 hid)
    · cases h
      obtain ⟨hneeds, hle⟩ := Bool.and_eq_true_iff.1 hprice
      exact .badPrice hqty (mt hlives.2 hid) hneeds (of_decide_eq_true hle)
  · rintro (⟨hqty⟩ | ⟨hqty, hid⟩ | ⟨hqty, hid, hneeds, hprice⟩)
    · rw [if_pos hqty]
    · rw [if_neg hqty, if_pos (hlives.2 hid)]
    · rw [if_neg hqty, if_neg (mt hlives.1 hid), if_pos (by simp [hneeds, hprice])]

theorem not_refuses (hm : Models b q) (hvalid : validate b no = none) (reason : RejectReason) :
    ¬q.Refuses no reason := by
  intro h
  rw [hm.refuses_iff.2 h] at hvalid
  cases hvalid

theorem files_iff (hm : Models b q) : q.Files side t s ↔ b.Lists side t s := by
  obtain ⟨σ, hr⟩ := hm
  have hstops : q.stops side = b.stops side := by
    cases side
    · exact hr.stopBuys.symm
    · exact hr.stopSells.symm
  unfold Files OrderBook.Lists
  rw [hstops]

end Models

/-- Held orders want to trade. -/
def HeldLive (q : PriorityBook) : Prop := ∀ s o, q.held s = some o → o.remaining ≠ 0

theorem HeldLive.cascade {T : List Nat} (h : HeldLive q) (hc : Cascade T b q b' q') :
    HeldLive q' :=
  fun s o ho => h s o (hc.still s o ho)

/-! ## The trigger recursion -/

section Recursion

variable {R : Price → Prop} {L : Finset Nat} {M : Nat}
  {f : OrderBook A → NewOrder → Outcome (OrderBook A × List OutputEvent)} {T T' : List Nat}

/-- The books after a call that has completed activations, those of `T` among them. From
`q₀` on, orders have fired with these events. -/
def Fired (seq : Seq) (ts : Ts) (R : Price → Prop) (T : List Nat) (b : OrderBook A)
    (q : PriorityBook) (q₀ : PriorityBook) (es : List OutputEvent) (b' : OrderBook A) : Prop :=
  ∃ q', Models b' q' ∧ Cascade T b q b' q' ∧ (∀ p, b'.lastTrade = some p → R p) ∧
    q₀.Fires seq ts es q'

/-- A re-submitted market order is executed, and then orders fire. -/
def Refires (seq : Seq) (ts : Ts) (R : Price → Prop) (L : Finset Nat) (M : Nat)
    (f : OrderBook A → NewOrder → Outcome (OrderBook A × List OutputEvent)) : Prop :=
  ∀ b q no b' events, Safe R L M b q → HeldLive q → no.kind = .market → no.qty ≠ 0 →
    b.idIndex[no.id]? = none → (∀ m ∈ q.makers no.side.opposite, R m.price) →
    f b no = .ok (b', events) → ∃ es,
      events = .accepted no.id seq :: (q.execute no seq ts).2 ++ es ∧
        Fired seq ts R [] b q (q.execute no seq ts).1 es b'

theorem activate_fired (hf : Refires seq ts R L M f) (h : Safe R L M b q) (hlive : HeldLive q)
    (hready : Ready R b q s) (hfires : q₀.Fires seq ts es q) (hlast : q₀.TradedAt es p)
    (ht : side.triggers t p = true) (hfiled : ∀ o, q.held s = some o → b.Lists side t s)
    (hcall : activate f b s = .ok (b', events)) :
    Fired seq ts R [s] b q q₀ (es ++ events) b' := by
  rcases hready with hvac | ⟨o, ho, hkind, hR⟩
  · have hslot : b.slot? s = none := by
      rwa [coreOf, Option.map_eq_none_iff] at hvac
    rw [activate, hslot] at hcall
    cases hcall
    exact ⟨q, h.models, .skip h.models hvac, h.last, by simpa using hfires⟩
  · obtain ⟨b₁, hsame, hm₁, hc₁, hvac, hlast₁, hid₁⟩ := activate_held (f := f) h.models ho
    rw [hsame] at hcall
    have hsafe : Safe R L M b₁ (q.release s) := h.cascade hc₁ hm₁ (hlast₁ ▸ h.last)
    obtain ⟨es', rfl, q', hm', hc', hlast', hfires'⟩ := hf b₁ (q.release s) o.activated b' events
      hsafe (hlive.cascade hc₁) (if_pos hkind) (hlive s o ho) hid₁ hR hcall
    refine ⟨q', hm', hc₁.trans hc', hlast', ?_⟩
    rw [← List.append_assoc]
    exact (Fires.fire hfires ho hkind (h.models.files_iff.2 (hfiled o ho)) hlast ht).trans hfires'

theorem activateAll_fired (hf : Refires seq ts R L M f) (slots : List Nat)
    (h : Safe R L M b q) (hlive : HeldLive q) (hready : ∀ s ∈ slots, Ready R b q s)
    (hfires : q₀.Fires seq ts es q) (hlast : q₀.lastTrade = some p)
    (hfiled : ∀ s ∈ slots, ∃ t, side.triggers t p = true ∧
      ∀ o, q.held s = some o → b.Lists side t s)
    (hcall : activateAll f slots b = .ok (b', events)) :
    Fired seq ts R slots b q q₀ (es ++ events) b' := by
  induction slots generalizing b q es events with
  | nil =>
    cases hcall
    exact ⟨q, h.models, .refl _ q, h.last, by simpa using hfires⟩
  | cons s slots ih =>
    obtain ⟨⟨b₁, first⟩, hfirst, hcall⟩ := Fuel.bind_eq_ok.1 hcall
    obtain ⟨⟨b₂, later⟩, hlater, hcall⟩ := Fuel.bind_eq_ok.1 hcall
    cases hcall
    obtain ⟨t, ht, hlists⟩ := hfiled s List.mem_cons_self
    obtain ⟨q₁, hm₁, hc₁, hlast₁, hfires₁⟩ := activate_fired hf h hlive
      (hready s List.mem_cons_self) hfires (.inl hlast) ht hlists hfirst
    obtain ⟨q₂, hm₂, hc₂, hlast₂, hfires₂⟩ := ih (h.cascade hc₁ hm₁ hlast₁)
      (hlive.cascade hc₁) (fun r hr => (hready r (List.mem_cons_of_mem s hr)).cascade hc₁) hfires₁
      (fun r hr => by
        obtain ⟨t, ht, hlists⟩ := hfiled r (List.mem_cons_of_mem s hr)
        exact ⟨t, ht, fun o ho => hc₁.filed side t r o (hlists o (hc₁.still r o ho)) ho⟩) hlater
    rw [← List.append_assoc]
    exact ⟨q₂, hm₂, hc₁.trans hc₂, hlast₂, hfires₂⟩

theorem triggerSide_fired (hf : Refires seq ts R L M f) (h : Safe R L M b q)
    (hlive : HeldLive q) (hp : R p) (hfires : q₀.Fires seq ts es q)
    (hlast : q₀.lastTrade = some p) (hcall : triggerSide f b side p = .ok (b', events)) :
    Fired seq ts R [] b q q₀ (es ++ events) b' := by
  obtain ⟨⟨b₁, fired⟩, hall, hcall⟩ := Fuel.bind_eq_ok.1 hcall
  cases hcall
  obtain ⟨q₁, hm₁, hc₁, hlast₁, hfires₁⟩ := activateAll_fired hf (b.triggered side p) h hlive
    (fun s hs => by
      obtain ⟨t, hl, ht⟩ := OrderBook.mem_triggered.1 hs
      exact h.ready side t s hl ⟨p, hp, ht⟩) hfires hlast
    (fun s hs => by
      obtain ⟨t, hl, ht⟩ := OrderBook.mem_triggered.1 hs
      exact ⟨t, ht, fun _ _ => hl⟩) hall
  refine ⟨q₁.prune side p, hm₁.retainStops side p, hc₁.prune, hlast₁,
    hfires₁.prune (.inl hlast) fun t s hs ht => ?_⟩
  -- what is still filed was filed before, so it has been activated
  have hl := hc₁.lists (hm₁.files_iff.1 hs)
  exact hc₁.pulled s (OrderBook.mem_triggered.2 ⟨t, hl, ht⟩)

theorem triggerStops_fired (hf : Refires seq ts R L M f) (h : Safe R L M b q)
    (hlive : HeldLive q) (hlast : b.lastTrade = some p)
    (hcall : triggerStops f b p = .ok (b', events)) : Fired seq ts R [] b q q events b' := by
  obtain ⟨⟨b₁, buys⟩, hbuys, hcall⟩ := Fuel.bind_eq_ok.1 hcall
  obtain ⟨⟨b₂, sells⟩, hsells, hcall⟩ := Fuel.bind_eq_ok.1 hcall
  cases hcall
  have hlast₀ : q.lastTrade = some p := by
    obtain ⟨σ, hr⟩ := h.models
    exact hr.lastTrade.symm.trans hlast
  have hp := h.last p hlast
  obtain ⟨q₁, hm₁, hc₁, hlast₁, hfires₁⟩ :=
    triggerSide_fired hf h hlive hp .refl hlast₀ hbuys
  obtain ⟨q₂, hm₂, hc₂, hlast₂, hfires₂⟩ := triggerSide_fired hf (h.cascade hc₁ hm₁ hlast₁)
    (hlive.cascade hc₁) hp hfires₁ hlast₀ hsells
  exact ⟨q₂, hm₂, hc₁.trans hc₂, hlast₂, hfires₂⟩

/-- An execution that returns is that of the priority book. -/
theorem execute_models (hm : Models b q) (hqty : no.qty ≠ 0) (hkind : no.kind.isStop = false)
    (hid : b.idIndex[no.id]? = none) (hcall : execute fuel b no seq ts = .ok (b₁, events)) :
    events = (q.execute no seq ts).2 ∧ Models b₁ (q.execute no seq ts).1 ∧
      ∀ r, coreOf b.arena r = none → (no.kind = .limit → r ≠ Slab.vacantKey b.arena) →
        coreOf b₁.arena r = none := by
  obtain ⟨σ, hr⟩ := hm
  obtain ⟨b₂, σ', hexec, hr', hvac⟩ := execute_refines hr hqty hkind hid (Nat.le_refl _) seq ts
  have hsame := Converges.unique (execute_stable b no seq ts) ⟨_, hcall⟩ ⟨_, hexec⟩
  cases hsame
  exact ⟨rfl, ⟨σ', hr'⟩, hvac⟩

theorem applyNew_refires (seq : Seq) (ts : Ts) (fuel : Nat) :
    Refires seq ts R L M (applyNew (A := A) seq ts fuel) := by
  induction fuel with
  | zero => exact fun b q no b' events _ _ _ _ _ _ hcall => by cases hcall
  | succ fuel ih =>
    intro b q no b' events h hlive hkind hqty hid hR hcall
    have hstop : no.kind.isStop = false := by rw [hkind]; rfl
    have hvalid : validate b no = none := by
      refine validate_eq_none.2 ⟨hqty, ?_, fun hneeds => ?_⟩
      · rw [Std.ExtTreeMap.contains_eq_isSome_getElem?, hid]
        rfl
      · rw [hkind] at hneeds
        cases hneeds
    have hexecuted : ∀ {b₁ fills}, execute fuel b no seq ts = .ok (b₁, fills) →
        fills = (q.execute no seq ts).2 ∧ Models b₁ (q.execute no seq ts).1 ∧
          Cascade [] b q b₁ (q.execute no seq ts).1 ∧ ∀ p, b₁.lastTrade = some p → R p := by
      intro b₁ fills hexec
      obtain ⟨rfl, hm₁, hvac⟩ := execute_models h.models hqty hstop hid hexec
      obtain ⟨hheld, hbuys, hsells, -, -⟩ := execute_frame q no seq ts
      obtain ⟨hprices, hlast⟩ := execute_prices q no seq ts
      have hnot : no.kind ≠ .limit := by rw [hkind]; exact nofun
      refine ⟨rfl, hm₁, .of_frame hheld (Models.stops_eq h.models hm₁ hbuys hsells)
        (fun s hs => hvac s hs fun hk => absurd hk hnot) (fun side => (hprices side).1 hnot)
        fun side m' hm' => ((hprices side).2 m' hm').resolve_right fun hk => hnot hk.1,
        fun p hp => ?_⟩
      obtain ⟨σ, hr⟩ := h.models
      obtain ⟨σ₁, hr₁⟩ := hm₁
      rcases hlast p (hr₁.lastTrade.symm.trans hp) with hp' | ⟨m, hm, -, rfl⟩
      · exact h.last p (hr.lastTrade.trans hp')
      · exact hR m hm
    cases applyNew_cases hcall with
    | refused invalid => exact absurd (hvalid.symm.trans invalid) nofun
    | held _ stop => exact absurd (hstop.symm.trans stop) nofun
    | killed _ fok => exact absurd (hkind.symm.trans fok) nofun
    | untraded _ _ _ executed never =>
      obtain ⟨rfl, hm₁, hc₁, hlast₁⟩ := hexecuted executed
      exact ⟨[], by simp, _, hm₁, hc₁, hlast₁, .refl⟩
    | traded _ _ _ executed price cascade =>
      obtain ⟨rfl, hm₁, hc₁, hlast₁⟩ := hexecuted executed
      obtain ⟨q₂, hm₂, hc₂, hlast₂, hfires⟩ := triggerStops_fired ih (h.cascade hc₁ hm₁ hlast₁)
        (hlive.cascade hc₁) price cascade
      exact ⟨_, rfl, q₂, hm₂, hc₁.trans hc₂, hlast₂, hfires⟩

end Recursion

/-! ## Commands -/

theorem HeldLive.execute (h : HeldLive q) (no : NewOrder) (seq : Seq) (ts : Ts) :
    HeldLive (q.execute no seq ts).1 := by
  obtain ⟨hheld, -⟩ := execute_frame q no seq ts
  intro s o ho
  rw [hheld] at ho
  exact h s o ho

/-- An order that is submitted, and what it triggers. -/
theorem applyNew_enters {R : Price → Prop} (hm : Models b q) (hlive : HeldLive q)
    (hadmits : no.kind.isStop = false → validate b no = none →
      ¬(no.kind = .fok ∧ availableQty b no.side no.price < no.qty) → Admits R b q no)
    (hcall : applyNew seq ts fuel b no = .ok (b', events)) :
    ∃ q', Models b' q' ∧ HeldLive q' ∧ q.Enters seq ts no q' events := by
  cases fuel with
  | zero => cases hcall
  | succ fuel =>
    have hindex : validate b no = none → b.idIndex[no.id]? = none := by
      intro hvalid
      have hid := (validate_eq_none.1 hvalid).2.1
      rw [Std.ExtTreeMap.contains_eq_isSome_getElem?] at hid
      exact Option.isNone_iff_eq_none.1 (Option.isSome_eq_false_iff.1 hid)
    have hfillable : ¬(no.kind = .fok ∧ availableQty b no.side no.price < no.qty) →
        ¬(no.kind = .fok ∧ q.available no.side no.price < no.qty) := by
      obtain ⟨σ, hr⟩ := hm
      rw [hr.availableQty_eq]
      exact id
    cases applyNew_cases hcall with
    | refused invalid => exact ⟨q, hm, hlive, .rejected (hm.refuses_iff.1 invalid)⟩
    | held valid stop =>
      have hqty := (validate_eq_none.1 valid).1
      obtain ⟨σ, hr⟩ := id hm
      obtain ⟨hr', -⟩ := hr.holdStop stop (hindex valid) seq ts
      refine ⟨_, ⟨σ, hr'⟩, fun s o ho => ?_, .held (hm.not_refuses valid) stop ?_⟩
      · change Function.update q.held _ _ s = some o at ho
        by_cases hs : s = Slab.vacantKey b.arena
        · rw [hs, Function.update_self] at ho
          cases ho
          exact hqty
        · rw [Function.update_of_ne hs] at ho
          exact hlive s o ho
      · cases hheld : q.held (Slab.vacantKey b.arena) with
        | none => rfl
        | some o =>
          have hcore := hm.held_core hheld
          rw [coreOf_vacantKey] at hcore
          cases hcore
    | killed valid fok short =>
      obtain ⟨σ, hr⟩ := id hm
      rw [hr.availableQty_eq] at short
      exact ⟨q, hm, hlive, .killed (hm.not_refuses valid) fok short⟩
    | untraded valid unstop fillable executed never =>
      obtain ⟨rfl, hm₁, -⟩ := execute_models hm (validate_eq_none.1 valid).1 unstop
        (hindex valid) executed
      refine ⟨_, hm₁, hlive.execute no seq ts, ?_⟩
      rw [← List.append_nil (_ :: _)]
      exact .executed (hm.not_refuses valid) unstop (hfillable fillable) .refl
    | traded valid unstop fillable executed price cascade =>
      obtain ⟨rfl, hm₁, hvac⟩ := execute_models hm (validate_eq_none.1 valid).1 unstop
        (hindex valid) executed
      obtain ⟨hheld, hbuys, hsells, -⟩ := execute_frame q no seq ts
      have hlast : _ = _ := hm₁.choose_spec.lastTrade
      have hstops := Models.stops_eq hm hm₁ hbuys hsells
      have hsafe := (hadmits unstop valid fillable).safe hm hm₁ hlast hstops hvac
      obtain ⟨q₂, hm₂, hc₂, -, hfires⟩ := triggerStops_fired (applyNew_refires seq ts fuel) hsafe
        (hlive.execute no seq ts) price cascade
      exact ⟨q₂, hm₂, (hlive.execute no seq ts).cascade hc₂,
        .executed (hm.not_refuses valid) unstop (hfillable fillable) hfires⟩

/-- What Cancel and Replace do before anything else. -/
theorem removeSlot_takesOut (hm : Models b q) (hlive : HeldLive q) {id : OrderId} {loc : Location}
    {x : Order} {b₂ : OrderBook A} (hidx : b.idIndex[id]? = some loc)
    (hx : b.slot? loc.slot = some x)
    (h₁ : (b.setIndex (b.idIndex.erase id)).removeSlot loc.slot x.side loc.price x.remaining =
      .ok b₁) (h₂ : b₁.removeOrder loc.slot = .ok b₂) :
    ∃ o q₂, q.TakesOut id o q₂ ∧ Models b₂ q₂ ∧ HeldLive q₂ ∧
      (∀ newPrice newQty, o.replacement id newPrice newQty = x.replacement id newPrice newQty) ∧
      (∀ side, ∀ m ∈ q₂.makers side, m ∈ q.makers side) ∧
      (x.kind.isStop = false → q₂.held = q.held) := by
  obtain ⟨σ, hr⟩ := hm
  obtain ⟨o, ho, hid, hloc, hplace⟩ := hr.filed.of_index hidx
  have hu : x.unlinked = o := by
    have hcore : coreOf b.arena loc.slot = some x.unlinked := congrArg (·.map Order.unlinked) hx
    exact Option.some.inj (hcore.symm.trans ho)
  have hside : x.side = o.side := by rw [← hu]; rfl
  have hrem : x.remaining = o.remaining := by rw [← hu]; rfl
  have hkind : x.kind = o.kind := by rw [← hu]; rfl
  have hreplacement : ∀ newPrice newQty,
      o.replacement id newPrice newQty = x.replacement id newPrice newQty := by
    intro newPrice newQty
    rw [← hu]
    rfl
  rw [hside, hrem] at h₁
  rcases hplace with hσ | hheld
  · have hnot := (hr.filed.side_price hσ ho).2.2
    have hprice : loc.price = o.price := by rw [← hloc, Order.location, hnot]; rfl
    obtain ⟨c₁, c₂, σ', h₁', h₂', hr₂, -⟩ := hr.takeOut_maker hidx ho hσ
    rw [hprice, h₁'] at h₁
    cases h₁
    rw [h₂'] at h₂
    cases h₂
    obtain ⟨x', hx', hcore⟩ := hr.filed.core_of_mem hσ
    rw [ho] at hcore
    cases hcore
    refine ⟨o, q.drop o, .maker (mem_queue.1 hx').1 hid, ⟨σ', hr₂⟩, hlive, hreplacement,
      fun side m hmem => ?_, fun _ => rfl⟩
    by_cases hs : side = o.side
    · subst hs
      rw [PriorityBook.drop, makers_put_self] at hmem
      exact (List.mem_filter.1 hmem).1
    · rwa [PriorityBook.drop, makers_put_of_ne hs] at hmem
  · have hstop := (hr.filed.held_core _ _ hheld).2
    have hprice : loc.price = o.stopPrice := by rw [← hloc, Order.location, if_pos hstop]
    obtain ⟨c₁, c₂, h₁', h₂', hr₂, -⟩ := hr.takeOut_held hidx hheld
    rw [hprice, h₁'] at h₁
    cases h₁
    rw [h₂'] at h₂
    cases h₂
    refine ⟨o, _, .held hheld hid, ⟨σ, hr₂⟩, fun s o' ho' => ?_, hreplacement,
      fun side m hmem => hmem, fun hx => ?_⟩
    · change Function.update q.held loc.slot none s = some o' at ho'
      by_cases hs : s = loc.slot
      · rw [hs, Function.update_self] at ho'
        cases ho'
      · rw [Function.update_of_ne hs] at ho'
        exact hlive s o' ho'
    · rw [hkind, hstop] at hx
      cases hx

/-- **The step.** A clear command that returns is one of the priority book. -/
theorem apply_stopStep [LifoSlab A Order] (hm : Models b q) (hlive : HeldLive q)
    {cmd : Sequenced} (hcmd : cmd.cmd.Clear b) (happ : Applies b cmd b' events) :
    ∃ q', StopStep q (cmd, events) q' ∧ Models b' q' ∧ HeldLive q' := by
  obtain ⟨fuel, hcall⟩ := happ
  obtain ⟨seq, ts, cmd⟩ := cmd
  cases cmd with
  | new no =>
    obtain ⟨q', hm', hlive', henters⟩ :=
      applyNew_enters hm hlive (fun hkind => hcmd.admits_new hm hkind) hcall
    exact ⟨q', .new henters, hm', hlive'⟩
  | cancel id symbol =>
    cases applyCancel_cases hcall with
    | unknown missing => exact ⟨q, .cancelUnknown (hm.index_none_iff.1 missing), hm, hlive⟩
    | cancelled indexed order unlinked removed =>
      obtain ⟨x, b₁, b₂, -, hpulls, -⟩ := takeOut hm indexed
      cases (order_eq hpulls.slot).symm.trans order
      rw [hpulls.side] at unlinked
      obtain ⟨o, q₂, htakes, hm₂, hlive₂, -⟩ :=
        removeSlot_takesOut hm hlive indexed hpulls.slot unlinked removed
      exact ⟨q₂, .cancel htakes, hm₂, hlive₂⟩
  | replace id newPrice newQty symbol =>
    cases applyReplace_cases hcall with
    | zeroQty zero =>
      subst zero
      exact ⟨q, .replaceZero, hm, hlive⟩
    | unknown nonzero missing =>
      exact ⟨q, .replaceUnknown nonzero (hm.index_none_iff.1 missing), hm, hlive⟩
    | @replaced loc x b₁ b₂ b₃ answer nonzero indexed order unlinked removed entered =>
      obtain ⟨x', c₁, c₂, -, hpulls, -⟩ := takeOut hm indexed
      cases (order_eq hpulls.slot).symm.trans order
      cases hpulls.unlinked.symm.trans unlinked
      cases hpulls.removed.symm.trans removed
      obtain ⟨o, q₂, htakes, hm₂, hlive₂, hreplacement, hmakers, hheld⟩ :=
        removeSlot_takesOut hm hlive indexed hpulls.slot unlinked removed
      obtain ⟨q₃, hm₃, hlive₃, henters⟩ := applyNew_enters hm₂ hlive₂
        (hcmd.admits_replace hm nonzero indexed hpulls hmakers hheld) entered
      rw [← hreplacement] at henters
      exact ⟨q₃, .replace nonzero htakes henters, hm₃, hlive₃⟩

theorem reachesClear_stopRun [LifoSlab A Order] {symbol : SymbolId} {tick : Price}
    {log : List Entry} (h : ReachesClear symbol tick log b) :
    ∃ q, Run StopStep (PriorityBook.new symbol tick) log q ∧ Models b q ∧ HeldLive q :=
  h.simulate (R := fun (b : OrderBook A) q => Models b q ∧ HeldLive q)
    ⟨⟨_, Refines.new symbol tick⟩, nofun⟩
    fun _ _ _ _ ⟨hm, hlive⟩ ⟨hclear, happ⟩ => by
      obtain ⟨q', hstep, hm', hlive'⟩ := apply_stopStep hm hlive hclear happ
      exact ⟨q', hstep, hm', hlive'⟩

/-- **Refinement.** A run of clear commands, cascades included, is a run of the priority
book with stop orders: command by command the same events, and the book it leads to models
the priority book. -/
theorem reachesClear_refines [LifoSlab A Order] {symbol : SymbolId} {tick : Price}
    {log : List Entry} (h : ReachesClear symbol tick log b) :
    ∃ q, Run StopStep (PriorityBook.new symbol tick) log q ∧ Models b q := by
  obtain ⟨q, hrun, hm, -⟩ := reachesClear_stopRun h
  exact ⟨q, hrun, hm⟩

/-- Of two stop market buys the first fires on the trade of the last command, and trades
with what that command left. -/
def cascadeCommands : List Sequenced :=
  [⟨1, 0, .new ⟨1, 0, .buy, .stopMarket, .gtc, 0, 100, 3⟩⟩,
   ⟨2, 0, .new ⟨2, 0, .buy, .stopMarket, .gtc, 0, 110, 2⟩⟩,
   ⟨3, 0, .new ⟨3, 0, .sell, .limit, .gtc, 100, 0, 5⟩⟩,
   ⟨4, 0, .new ⟨4, 0, .buy, .limit, .gtc, 100, 0, 1⟩⟩]

theorem cascadeRun : ∃ (b : OrderBook (VecSlab Order)) (log : List Entry),
    ReachesClear 0 1 log b ∧ log.map Prod.fst = cascadeCommands ∧
      (log.flatMap Prod.snd).filterMap OutputEvent.tradePrice? = [100, 100] ∧
      b.depth 2 = ⟨[], [(100, 1)], some 100⟩ ∧ b.idIndex.contains 1 = false ∧
      b.idIndex.contains 2 = true := by
  have hok : ∃ r₁ r₂ r₃ r₄,
      applyWithin 9 (OrderBook.new 0 1 : OrderBook (VecSlab Order))
        ⟨1, 0, .new ⟨1, 0, .buy, .stopMarket, .gtc, 0, 100, 3⟩⟩ = .ok r₁ ∧
      applyWithin 9 r₁.1 ⟨2, 0, .new ⟨2, 0, .buy, .stopMarket, .gtc, 0, 110, 2⟩⟩ = .ok r₂ ∧
      applyWithin 9 r₂.1 ⟨3, 0, .new ⟨3, 0, .sell, .limit, .gtc, 100, 0, 5⟩⟩ = .ok r₃ ∧
      applyWithin 9 r₃.1 ⟨4, 0, .new ⟨4, 0, .buy, .limit, .gtc, 100, 0, 1⟩⟩ = .ok r₄ ∧
      ((∀ s ∈ r₁.1.filedSlots, (r₁.1.slot? s).all fun o => o.kind = .stopMarket) ∧
        Slab.vacantKey r₁.1.arena ∉ r₁.1.filedSlots) ∧
      ((∀ s ∈ r₂.1.filedSlots, (r₂.1.slot? s).all fun o => o.kind = .stopMarket) ∧
        Slab.vacantKey r₂.1.arena ∉ r₂.1.filedSlots) ∧
      ((∀ s ∈ r₃.1.filedSlots, (r₃.1.slot? s).all fun o => o.kind = .stopMarket) ∧
        Slab.vacantKey r₃.1.arena ∉ r₃.1.filedSlots) ∧
      (r₁.2 ++ r₂.2 ++ r₃.2 ++ r₄.2).filterMap OutputEvent.tradePrice? = [100, 100] ∧
      r₄.1.depth 2 = ⟨[], [(100, 1)], some 100⟩ ∧ r₄.1.idIndex.contains 1 = false ∧
      r₄.1.idIndex.contains 2 = true := by
    refine ⟨_, _, _, _, rfl, rfl, rfl, rfl, ?_⟩
    decide +kernel
  obtain ⟨⟨b₁, e₁⟩, ⟨b₂, e₂⟩, ⟨b₃, e₃⟩, ⟨b₄, e₄⟩, h₁, h₂, h₃, h₄, ⟨hfiled₁, hfree₁⟩,
    ⟨hfiled₂, hfree₂⟩, ⟨hfiled₃, hfree₃⟩, htrades, hdepth, hids⟩ := hok
  have hrun₁ : ReachesClear 0 1 ([] ++ [(_, e₁)]) b₁ := Transition.Run.nil.snoc
    ⟨Command.clear_of_filedSlots (by decide) (by decide) _, 9, h₁⟩
  have hrun₂ : ReachesClear 0 1 ([] ++ [(_, e₁)] ++ [(_, e₂)]) b₂ :=
    hrun₁.snoc ⟨Command.clear_of_filedSlots hfiled₁ hfree₁ _, 9, h₂⟩
  have hrun₃ : ReachesClear 0 1 ([] ++ [(_, e₁)] ++ [(_, e₂)] ++ [(_, e₃)]) b₃ :=
    hrun₂.snoc ⟨Command.clear_of_filedSlots hfiled₂ hfree₂ _, 9, h₃⟩
  have hrun₄ : ReachesClear 0 1 ([] ++ [(_, e₁)] ++ [(_, e₂)] ++ [(_, e₃)] ++ [(_, e₄)]) b₄ :=
    hrun₃.snoc ⟨Command.clear_of_filedSlots hfiled₃ hfree₃ _, 9, h₄⟩
  exact ⟨b₄, _, hrun₄, rfl, by simpa [List.append_assoc] using htrades, hdepth, hids⟩

theorem reachesClear_refines_sample :
    ∃ (b : OrderBook (VecSlab Order)) (log : List Entry) (q : PriorityBook),
      Run StopStep (PriorityBook.new 0 1) log q ∧ Models b q ∧
      log.map Prod.fst = cascadeCommands ∧
      (log.flatMap Prod.snd).filterMap OutputEvent.tradePrice? = [100, 100] := by
  obtain ⟨b, log, hrun, hlog, htrades, -⟩ := cascadeRun
  obtain ⟨q, hq, hm⟩ := reachesClear_refines hrun
  exact ⟨b, log, q, hq, hm, hlog, htrades⟩

end Exchange
