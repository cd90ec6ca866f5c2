import Exchange.Lib.Transition
import Exchange.Verify.Budget
import Exchange.Verify.Commands

/-!
# Books without stop orders

While no stop order is held, `apply` is the priority book's `apply`: the checks
read the same, no trigger fires, and a budget that covers the opposite side
suffices. `Log` is a run with the events of each command.
-/

namespace Exchange

open PriorityBook

variable {A : Type} [Slab A Order] {b : OrderBook A} {σ : Queues Nat} {q : PriorityBook}
  {o : Order}

namespace PriorityBook

/-- No stop is held and none is filed. -/
structure StopFree (q : PriorityBook) : Prop where
  held : ∀ s, q.held s = none
  buys : q.stopBuys = ∅
  sells : q.stopSells = ∅

theorem WF.live?_eq_some (hq : q.WF) {id : OrderId} :
    q.live? id = some o ↔ (∃ side, o ∈ q.makers side) ∧ o.id = id := by
  unfold live?
  constructor
  · intro h
    have hmem := List.mem_of_find?_eq_some h
    have hid := List.find?_some h
    refine ⟨?_, by simpa using hid⟩
    rcases List.mem_append.1 hmem with hmem | hmem
    · exact ⟨_, hmem⟩
    · exact ⟨_, hmem⟩
  · rintro ⟨⟨side, hmem⟩, rfl⟩
    cases hfind : (q.makers .buy ++ q.makers .sell).find? fun x => decide (x.id = o.id) with
    | none =>
      rw [List.find?_eq_none] at hfind
      have hmem' : o ∈ q.makers .buy ++ q.makers .sell := by
        cases side
        · exact List.mem_append_left _ hmem
        · exact List.mem_append_right _ hmem
      exact absurd (hfind o hmem') (by simp)
    | some x =>
      have hx := List.mem_of_find?_eq_some hfind
      have hid : x.id = o.id := by simpa using List.find?_some hfind
      obtain ⟨side', hx⟩ : ∃ side', x ∈ q.makers side' := by
        rcases List.mem_append.1 hx with hx | hx
        · exact ⟨_, hx⟩
        · exact ⟨_, hx⟩
      rcases side.eq_or_eq_opposite side' with rfl | rfl
      · rw [List.inj_on_of_nodup_map (hq.ids side') hx hmem hid]
      · exact absurd hid.symm (hq.apart side o hmem x hx)

theorem WF.live?_eq_none (hq : q.WF) {id : OrderId} :
    q.live? id = none ↔ ∀ side, ∀ o ∈ q.makers side, o.id ≠ id := by
  constructor
  · rintro h side o ho rfl
    rw [hq.live?_eq_some.2 ⟨⟨side, ho⟩, rfl⟩] at h
    cases h
  · intro h
    cases hl : q.live? id with
    | none => rfl
    | some o =>
      obtain ⟨⟨side, ho⟩, hid⟩ := hq.live?_eq_some.1 hl
      exact absurd hid (h side o ho)

/-- The prices of a side, best first. -/
theorem WF.prices_sorted (hq : q.WF) (side : Side) :
    (((q.makers side).map (·.price)).dedup).Pairwise fun p p' => side.rank p < side.rank p' := by
  have hord : (((q.makers side).map (·.price)).dedup).Pairwise
      fun p p' => side.rank p ≤ side.rank p' :=
    (List.Pairwise.map (R := fun o o' : Order => side.rank o.price ≤ side.rank o'.price)
      (S := fun p p' => side.rank p ≤ side.rank p') (·.price) (fun _ _ h => h)
      (hq.ordered side)).sublist (List.dedup_sublist _)
  refine (hord.and (List.nodup_dedup _)).imp fun h => ?_
  exact lt_of_le_of_ne h.1 fun e => h.2 (Side.rank_inj e)

end PriorityBook

/-! ## The checks -/

namespace Refines

variable (hr : Refines b σ none q)
include hr

/-- Without held stops the index holds the live ids. -/
theorem index_none_iff (hfree : ∀ s, q.held s = none) {id : OrderId} :
    b.idIndex[id]? = none ↔ q.live? id = none := by
  rw [hr.wf.live?_eq_none]
  constructor
  · exact fun h => hr.fresh h
  · intro h
    cases hidx : b.idIndex[id]? with
    | none => rfl
    | some loc =>
      obtain ⟨o, ho, hid, -, hmem⟩ := hr.filed.of_index hidx
      have hmem := hmem.resolve_right (by simp [hfree])
      obtain ⟨x, hx, hcore⟩ := hr.filed.core_of_mem hmem
      rw [ho] at hcore
      cases hcore
      exact absurd hid (h o.side o (mem_queue.1 hx).1)

/-- A live order is where the index says. -/
theorem locate {id : OrderId} (hlive : q.live? id = some o) :
    ∃ s, b.idIndex[id]? = some ⟨o.price, o.side, s⟩ ∧ coreOf b.arena s = some o ∧
      s ∈ σ o.side o.price := by
  obtain ⟨⟨side, hmem⟩, rfl⟩ := hr.wf.live?_eq_some.1 hlive
  obtain ⟨hkind, rfl, -⟩ := hr.wf.maker side o hmem
  obtain ⟨s, hs, hcore⟩ := hr.filed.slot_of_mem (mem_queue.2 ⟨hmem, rfl⟩)
  refine ⟨s, ?_, hcore, hs⟩
  have hloc : o.location s = ⟨o.price, o.side, s⟩ := by
    rw [Order.location, hkind]
    rfl
  exact hloc ▸ hr.filed.index_eq hcore (hr.filed.not_hidden hs)

theorem validate_eq (hfree : ∀ s, q.held s = none) (no : NewOrder) :
    validate b no = q.reject? no := by
  have hcontains : b.idIndex.contains no.id = (q.live? no.id).isSome := by
    have h : b.idIndex[no.id]? = none ↔ _ := hr.index_none_iff hfree
    rw [Bool.eq_iff_iff, Std.ExtTreeMap.contains_iff_mem, Std.ExtTreeMap.mem_iff_isSome_getElem?]
    rw [← not_iff_not]
    simpa using h
  unfold validate reject?
  rw [hcontains]

/-- The level map of a side is its ladder. -/
theorem levels_eq (side : Side) :
    (b.levels side).toList.map (fun e => (e.1, e.2.totalQty)) = q.ladder side := by
  have hsorted : ((b.levels side).toList.map fun e => (e.1, e.2.totalQty)).Pairwise
      fun e e' => side.rank e.1 < side.rank e'.1 := by
    rw [List.pairwise_map]
    exact (Std.ExtTreeMap.ordered_keys_toList (t := b.levels side)).imp Side.keyOrder_lt.1
  have hsorted' : (q.ladder side).Pairwise fun e e' => side.rank e.1 < side.rank e'.1 := by
    rw [ladder, List.pairwise_map]
    exact hr.wf.prices_sorted side
  have hirrefl : ∀ e e' : Price × Qty, side.rank e.1 < side.rank e'.1 →
      side.rank e'.1 < side.rank e.1 → e = e' := fun _ _ h h' => absurd h (lt_asymm h')
  refine List.Perm.eq_of_pairwise (fun e e' _ _ => hirrefl e e') hsorted hsorted' ?_
  have hnodup : ∀ {l : List (Price × Qty)},
      l.Pairwise (fun e e' => side.rank e.1 < side.rank e'.1) → l.Nodup := fun h =>
    h.imp fun hlt e => by
      rw [e] at hlt
      exact lt_irrefl _ hlt
  refine (List.perm_ext_iff_of_nodup (hnodup hsorted) (hnodup hsorted')).2 fun ⟨p, t⟩ => ?_
  have hprices : p ∈ ((q.makers side).map (·.price)).dedup ↔ q.queue side p ≠ [] := by
    rw [List.mem_dedup, List.mem_map]
    constructor
    · rintro ⟨o, ho, rfl⟩ h
      exact List.not_mem_nil (h ▸ mem_queue.2 ⟨ho, rfl⟩)
    · intro h
      obtain ⟨o, ho⟩ := List.exists_mem_of_ne_nil _ h
      exact ⟨o, (mem_queue.1 ho).1, (mem_queue.1 ho).2⟩
  rw [ladder, List.mem_map, List.mem_map]
  constructor
  · rintro ⟨⟨p', l⟩, hl, he⟩
    obtain ⟨rfl, rfl⟩ := Prod.mk.inj he
    have hl : b.level? side p' = some l := OrderedMap.mem_toList_iff.1 hl
    refine ⟨p', hprices.2 ((hr.present side p').1 (by rw [hl]; rfl)), ?_⟩
    rw [hr.tally side p' l hl]
    rfl
  · rintro ⟨p', hp', he⟩
    obtain ⟨rfl, rfl⟩ := Prod.mk.inj he
    obtain ⟨l, hl⟩ := Option.isSome_iff_exists.1 ((hr.present side p').2 (hprices.1 hp'))
    refine ⟨(p', l), OrderedMap.mem_toList_iff.2 hl, ?_⟩
    rw [hr.tally side p' l hl]
    rfl

/-- The fill-or-kill check reads the ladder. -/
theorem availableQty_eq (aggressor : Side) (limit : Price) :
    availableQty b aggressor limit = q.available aggressor limit := by
  unfold availableQty available
  rw [← hr.levels_eq, List.takeWhile_map, List.foldl_map]
  rfl

end Refines

/-! ## No trigger fires -/

theorem filter_empty {κ ν : Type} {cmp : κ → κ → Ordering} [Std.TransCmp cmp]
    [Std.LawfulEqCmp cmp] (f : κ → Bool) :
    (∅ : Std.ExtTreeMap κ ν cmp).filter (fun k _ => f k) = ∅ := by
  refine Std.ExtTreeMap.ext_getElem? fun k => ?_
  rw [OrderedMap.getElem?_filter]
  simp

theorem triggerStops_of_empty (hbuys : b.stopBuys = ∅) (hsells : b.stopSells = ∅)
    (resubmit : OrderBook A → NewOrder → Outcome (OrderBook A × List OutputEvent))
    (last : Price) : triggerStops resubmit b last = .ok (b, []) := by
  have hstops : ∀ side, b.stops side = ∅ := fun side => by
    cases side
    · exact hbuys
    · exact hsells
  have hside : ∀ side, triggerSide resubmit b side last = .ok (b, []) := by
    intro side
    have htriggered : b.triggered side last = [] := by
      simp [OrderBook.triggered, hstops]
    have hretain : b.retainStops side last = b := by
      rw [OrderBook.retainStops, hstops, filter_empty]
      cases side
      · rw [← hbuys]
        rfl
      · rw [← hsells]
        rfl
    rw [triggerSide, htriggered]
    simp [activateAll, hretain]
  simp [triggerStops, hside]

/-! ## The step -/

namespace PriorityBook

theorem settle_frame (q : PriorityBook) (no : NewOrder) (filled : Qty) (seq : Seq) (ts : Ts) :
    (q.settle no filled seq ts).1.held = q.held ∧
      (q.settle no filled seq ts).1.stopBuys = q.stopBuys ∧
      (q.settle no filled seq ts).1.stopSells = q.stopSells ∧
      (q.settle no filled seq ts).1.symbol = q.symbol ∧
      (q.settle no filled seq ts).1.tick = q.tick := by
  unfold settle
  dsimp only
  split
  · exact ⟨rfl, rfl, rfl, rfl, rfl⟩
  · split
    · exact ⟨rfl, rfl, rfl, rfl, rfl⟩
    · exact ⟨rfl, rfl, rfl, rfl, rfl⟩

/-- Executing an order leaves the held stops alone. -/
theorem execute_frame (q : PriorityBook) (no : NewOrder) (seq : Seq) (ts : Ts) :
    (q.execute no seq ts).1.held = q.held ∧
      (q.execute no seq ts).1.stopBuys = q.stopBuys ∧
      (q.execute no seq ts).1.stopSells = q.stopSells ∧
      (q.execute no seq ts).1.symbol = q.symbol ∧ (q.execute no seq ts).1.tick = q.tick := by
  obtain ⟨-, h₁, h₂, h₃, h₄, h₅⟩ := tradeAll_frame no.side.opposite q
    (fills no.accepts no.qty (q.makers no.side.opposite))
  obtain ⟨h₁', h₂', h₃', h₄', h₅'⟩ := settle_frame (q.tradeAll no.side.opposite
    (fills no.accepts no.qty (q.makers no.side.opposite))) no
    (taken (fills no.accepts no.qty (q.makers no.side.opposite))) seq ts
  exact ⟨h₁'.trans h₁, h₂'.trans h₂, h₃'.trans h₃, h₄'.trans h₄, h₅'.trans h₅⟩

theorem StopFree.execute (hq : q.StopFree) (no : NewOrder) (seq : Seq) (ts : Ts) :
    (q.execute no seq ts).1.StopFree := by
  obtain ⟨hheld, hbuys, hsells, -⟩ := execute_frame q no seq ts
  exact ⟨fun s => by rw [hheld]; exact hq.held s, hbuys.trans hq.buys, hsells.trans hq.sells⟩

theorem StopFree.drop (hq : q.StopFree) (o : Order) : (q.drop o).StopFree :=
  ⟨hq.held, hq.buys, hq.sells⟩

theorem StopFree.enter (hq : q.StopFree) (no : NewOrder) (seq : Seq) (ts : Ts) :
    (q.enter no seq ts).1.StopFree := by
  unfold PriorityBook.enter
  split
  · exact hq
  · split
    · exact hq
    · exact hq.execute no seq ts

end PriorityBook

/-- A new order on a book without stops. -/
theorem applyNew_refines (hr : Refines b σ none q) (hq : q.StopFree) {no : NewOrder}
    (hkind : no.kind.isStop = false) (seq : Seq) (ts : Ts) :
    ∃ b' σ', applyNew seq ts ((q.makers no.side.opposite).length + 3) b no =
        .ok (b', (q.enter no seq ts).2) ∧
      Refines b' σ' none (q.enter no seq ts).1 := by
  unfold applyNew PriorityBook.enter
  rw [hr.validate_eq hq.held]
  cases hreject : q.reject? no with
  | some reason => exact ⟨b, σ, rfl, hr⟩
  | none =>
    dsimp only
    rw [if_neg (by simp [hkind]), hr.availableQty_eq]
    by_cases hfok : no.kind = .fok ∧ q.available no.side no.price < no.qty
    · rw [if_pos hfok, if_pos hfok]
      exact ⟨b, σ, rfl, hr⟩
    · rw [if_neg hfok, if_neg hfok]
      have hqty : no.qty ≠ 0 := by
        intro h
        simp [reject?, h] at hreject
      have hid : b.idIndex[no.id]? = none := by
        rw [hr.index_none_iff hq.held]
        cases hlive : q.live? no.id with
        | none => rfl
        | some o => simp [reject?, hqty, hlive] at hreject
      obtain ⟨b', σ', hexec, hr', -⟩ := execute_refines hr hqty hkind hid (Nat.le_refl _) seq ts
      refine ⟨b', σ', ?_, hr'⟩
      have hq' := hq.execute no seq ts
      rw [hexec, Fuel.ok_bind]
      cases hlast : b'.lastTrade with
      | none => simp
      | some last =>
        simp [triggerStops_of_empty (hr'.stopBuys.trans hq'.buys)
          (hr'.stopSells.trans hq'.sells)]

/-- A `New` of the command is none of a stop order. -/
def Command.StopFree : Command → Prop
  | .new no => no.kind.isStop = false
  | _ => True

instance (c : Command) : Decidable c.StopFree := by
  cases c <;> unfold Command.StopFree <;> infer_instance

/-- **The step.** On a book without stops, `apply` of a command that is not a stop
order returns what the priority book's `apply` says. -/
theorem apply_refines (hr : Refines b σ none q) (hq : q.StopFree) {cmd : Sequenced}
    (hcmd : cmd.cmd.StopFree) :
    ∃ b' σ', Applies b cmd b' (q.apply cmd).2 ∧ Refines b' σ' none (q.apply cmd).1 ∧
      (q.apply cmd).1.StopFree := by
  obtain ⟨seq, ts, cmd⟩ := cmd
  unfold PriorityBook.apply
  cases cmd with
  | new no =>
    obtain ⟨b', σ', hb', hr'⟩ := applyNew_refines hr hq hcmd seq ts
    exact ⟨b', σ', ⟨(q.makers no.side.opposite).length + 3, hb'⟩, hr', hq.enter no seq ts⟩
  | cancel id symbol =>
    dsimp only
    cases hlive : q.live? id with
    | none =>
      refine ⟨b, σ, ⟨0, ?_⟩, hr, hq⟩
      simp [applyWithin, applyCancel, (hr.index_none_iff hq.held).2 hlive]
    | some o =>
      obtain ⟨s, hidx, ho, hs⟩ := hr.locate hlive
      obtain ⟨b₁, b₂, σ', h₁, h₂, hr', -⟩ := hr.takeOut_maker hidx ho hs
      obtain ⟨o', ho', hu, -⟩ := order_of_core ho
      have hrem : o'.remaining = o.remaining := by rw [← hu]; rfl
      refine ⟨b₂, σ', ⟨0, ?_⟩, hr', hq.drop o⟩
      have ho'' : (b.setIndex (b.idIndex.erase id)).order s = .ok o' := ho'
      simp only [applyWithin, applyCancel, hidx, ho'', Fuel.ok_bind, hrem, h₁, h₂]
      rfl
  | replace id newPrice newQty symbol =>
    dsimp only
    by_cases hzero : newQty = 0
    · rw [if_pos hzero]
      exact ⟨b, σ, ⟨0, by simp [applyWithin, applyReplace, hzero]⟩, hr, hq⟩
    · rw [if_neg hzero]
      cases hlive : q.live? id with
      | none =>
        refine ⟨b, σ, ⟨0, ?_⟩, hr, hq⟩
        simp [applyWithin, applyReplace, hzero, (hr.index_none_iff hq.held).2 hlive]
      | some o =>
        obtain ⟨s, hidx, ho, hs⟩ := hr.locate hlive
        obtain ⟨b₁, b₂, σ', h₁, h₂, hr', -⟩ := hr.takeOut_maker hidx ho hs
        obtain ⟨o', ho', hu, -⟩ := order_of_core ho
        have hrem : o'.remaining = o.remaining := by rw [← hu]; rfl
        have hside : o'.side = o.side := by rw [← hu]; rfl
        have hrepl : o'.replacement id newPrice newQty = o.replacement id newPrice newQty := by
          rw [← hu]
          rfl
        have hkind : (o.replacement id newPrice newQty).kind.isStop = false := by
          obtain ⟨⟨side, hmem⟩, -⟩ := hr.wf.live?_eq_some.1 hlive
          have hk : (o.replacement id newPrice newQty).kind = .limit := (hr.wf.maker side o hmem).1
          rw [hk]
          rfl
        obtain ⟨b', σ'', hb', hr''⟩ := applyNew_refines hr' (hq.drop o) hkind seq ts
        refine ⟨b', σ'',
          ⟨((q.drop o).makers (o.replacement id newPrice newQty).side.opposite).length + 3, ?_⟩,
          hr'', (hq.drop o).enter _ seq ts⟩
        have ho'' : (b.setIndex (b.idIndex.erase id)).order s = .ok o' := ho'
        simp only [applyWithin, applyReplace, hzero, if_false, hidx, ho'', Fuel.ok_bind, hrem,
          hside, h₁, h₂, hrepl, hb']
        rfl

/-! ## Runs -/

/-- A command with the events its `apply` pushed. -/
abbrev Entry := Sequenced × List OutputEvent

/-- One call of `apply`. -/
def ApplyStep (b : OrderBook A) (e : Entry) (b' : OrderBook A) : Prop := Applies b e.1 b' e.2

/-- The book `b` is reached from a new one with this log. -/
def Reaches (symbol : SymbolId) (tick : Price) (log : List Entry) (b : OrderBook A) : Prop :=
  Transition.Run ApplyStep (OrderBook.new symbol tick) log b

/-- The same by commands none of which submits a stop order. -/
def ReachesStopFree (symbol : SymbolId) (tick : Price) (log : List Entry) (b : OrderBook A) :
    Prop :=
  Transition.Run (Transition.restrict (fun _ e => e.1.cmd.StopFree) ApplyStep)
    (OrderBook.new symbol tick) log b

/-- The commands determine the run. -/
theorem applyStep_unique {log log' : List Entry} {b₁ b₂ : OrderBook A}
    (h : Transition.Run ApplyStep b log b₁) (h' : Transition.Run ApplyStep b log' b₂)
    (hcmds : log.map Prod.fst = log'.map Prod.fst) : log = log' ∧ b₁ = b₂ := by
  refine h.unique (fun c e c₁ e' c₂ he he' hkey => ?_) h' hcmds
  obtain ⟨cmd, events⟩ := e
  obtain ⟨cmd', events'⟩ := e'
  cases hkey
  obtain ⟨rfl, rfl⟩ := Applies.unique he he'
  exact ⟨rfl, rfl⟩

/-- One command on the priority book. -/
def PriorityStep (q : PriorityBook) (e : Entry) (q' : PriorityBook) : Prop :=
  e.1.cmd.StopFree ∧ q.apply e.1 = (q', e.2)

/-- **Refinement of runs.** Every stop-free run of the order book is a run of the
priority book with the same log. -/
theorem reaches_refines {symbol : SymbolId} {tick : Price} {log : List Entry}
    (h : ReachesStopFree symbol tick log b) :
    ∃ q, Transition.Run PriorityStep (PriorityBook.new symbol tick) log q ∧
      (∃ σ, Refines b σ none q) ∧ q.StopFree := by
  refine Transition.Run.simulate (R := fun b q => (∃ σ, Refines b σ none q) ∧ q.StopFree)
    ⟨⟨_, Refines.new symbol tick⟩, fun _ => rfl, rfl, rfl⟩ ?_ h
  rintro b q e b' ⟨⟨σ, hr⟩, hq⟩ ⟨hcmd, hstep⟩
  obtain ⟨b'', σ', happ, hr', hq'⟩ := apply_refines hr hq hcmd
  obtain ⟨rfl, hevents⟩ := Applies.unique hstep happ
  exact ⟨(q.apply e.1).1, ⟨hcmd, Prod.ext rfl hevents.symm⟩, ⟨σ', hr'⟩, hq'⟩

/-! ## Computed runs -/

/-- Apply commands one after another, within a budget for each. -/
def applyAll (fuel : Nat) : OrderBook A → List Sequenced → Outcome (OrderBook A × List Entry)
  | b, [] => return (b, [])
  | b, cmd :: cmds => do
    let (b, events) ← applyWithin fuel b cmd
    let (b, log) ← applyAll fuel b cmds
    return (b, (cmd, events) :: log)

/-- A computed run is a run. -/
theorem run_applyAll {P : Sequenced → Prop} {fuel : Nat} {cmds : List Sequenced}
    {b' : OrderBook A} {log : List Entry} (h : applyAll fuel b cmds = .ok (b', log))
    (hP : ∀ cmd ∈ cmds, P cmd) :
    Transition.Run (Transition.restrict (fun _ e => P e.1) ApplyStep) b log b' := by
  induction cmds generalizing b log with
  | nil =>
    cases h
    exact .nil
  | cons cmd cmds ih =>
    obtain ⟨⟨b₁, events⟩, h₁, h⟩ := Fuel.bind_eq_ok.1 h
    obtain ⟨⟨b₂, log'⟩, h₂, h⟩ := Fuel.bind_eq_ok.1 h
    cases h
    have hrest := ih h₂ fun cmd hcmd => hP cmd (List.mem_cons_of_mem _ hcmd)
    have hfirst : Transition.Run (Transition.restrict (fun _ e => P e.1) ApplyStep) b
        ([] ++ [(cmd, events)]) b₁ :=
      Transition.Run.nil.snoc ⟨hP cmd List.mem_cons_self, fuel, h₁⟩
    exact hfirst.append hrest

/-- A test holds at every step of a computed run. -/
def stepsHold (fuel : Nat) (test : OrderBook A → Sequenced → OrderBook A → Bool) :
    OrderBook A → List Sequenced → Bool
  | _, [] => true
  | b, cmd :: cmds =>
    match applyWithin fuel b cmd with
    | .ok (b', _) => test b cmd b' && stepsHold fuel test b' cmds
    | .error _ => false

/-- A computed run is a run of the steps that pass the test. -/
theorem run_of_stepsHold {test : OrderBook A → Sequenced → OrderBook A → Bool} {fuel : Nat}
    {cmds : List Sequenced} {b' : OrderBook A} {log : List Entry}
    (h : applyAll fuel b cmds = .ok (b', log)) (htest : stepsHold fuel test b cmds = true) :
    Transition.Run (fun b e b' => test b e.1 b' = true ∧ ApplyStep b e b') b log b' := by
  induction cmds generalizing b log with
  | nil =>
    cases h
    exact .nil
  | cons cmd cmds ih =>
    obtain ⟨⟨b₁, events⟩, h₁, h⟩ := Fuel.bind_eq_ok.1 h
    obtain ⟨⟨b₂, log'⟩, h₂, h⟩ := Fuel.bind_eq_ok.1 h
    cases h
    unfold stepsHold at htest
    rw [h₁] at htest
    obtain ⟨hfirst, hrest⟩ := Bool.and_eq_true_iff.1 htest
    have hstep : Transition.Run (fun b e b' => test b e.1 b' = true ∧ ApplyStep b e b') b
        ([] ++ [(cmd, events)]) b₁ :=
      Transition.Run.nil.snoc ⟨hfirst, fuel, h₁⟩
    exact hstep.append (ih h₂ hrest)

theorem reaches_applyAll {symbol : SymbolId} {tick : Price} {fuel : Nat} {cmds : List Sequenced}
    {log : List Entry} (h : applyAll fuel (OrderBook.new symbol tick) cmds = .ok (b, log)) :
    Reaches symbol tick log b :=
  (run_applyAll (P := fun _ => True) h fun _ _ => trivial).mono fun _ _ _ h => h.2

theorem reachesStopFree_applyAll {symbol : SymbolId} {tick : Price} {fuel : Nat}
    {cmds : List Sequenced} {log : List Entry}
    (h : applyAll fuel (OrderBook.new symbol tick) cmds = .ok (b, log))
    (hcmds : ∀ cmd ∈ cmds, cmd.cmd.StopFree) : ReachesStopFree symbol tick log b :=
  run_applyAll (P := fun cmd => cmd.cmd.StopFree) h hcmds

/-- Two resting bids, a market sell through the first into the second, a replace of
what is left, and an ask under the id of the filled sell. -/
def sampleCommands : List Sequenced :=
  [⟨1, 0, .new ⟨1, 0, .buy, .limit, .gtc, 100, 0, 5⟩⟩,
   ⟨2, 0, .new ⟨2, 0, .buy, .limit, .gtc, 100, 0, 5⟩⟩,
   ⟨3, 0, .new ⟨3, 0, .sell, .market, .gtc, 0, 0, 7⟩⟩,
   ⟨4, 0, .replace 2 101 4 0⟩,
   ⟨5, 0, .new ⟨3, 0, .sell, .limit, .day, 103, 0, 6⟩⟩]

/-- The sample run, on the crate's slab. -/
theorem sampleRun : ∃ (b : OrderBook (VecSlab Order)) (log : List Entry),
    ReachesStopFree 0 1 log b ∧ log.map Prod.fst = sampleCommands ∧
      b.depth 2 = ⟨[(101, 4)], [(103, 6)], some 100⟩ ∧
      b.idIndex.contains 2 = true ∧ b.idIndex.contains 1 = false := by
  have hok : ∃ r, applyAll 9 (OrderBook.new 0 1 : OrderBook (VecSlab Order)) sampleCommands =
      .ok r ∧ r.2.map Prod.fst = sampleCommands ∧
        r.1.depth 2 = ⟨[(101, 4)], [(103, 6)], some 100⟩ ∧
        r.1.idIndex.contains 2 = true ∧ r.1.idIndex.contains 1 = false := by
    refine ⟨_, rfl, ?_⟩
    decide +kernel
  obtain ⟨⟨b, log⟩, h, hlog, hdepth⟩ := hok
  exact ⟨b, log, reachesStopFree_applyAll h (by decide), hlog, hdepth⟩

end Exchange
