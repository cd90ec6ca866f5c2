import Exchange.Verify.StopLedger
import Exchange.Verify.TriggerComplete

/-!
# When stop orders fire

In a run of commands that keep the stop maps, an accepted stop order waits as it was
submitted until a trade reaches its trigger price. It then fires, neither early nor late:
not before there is such a trade, and not after the next order that has been matched.
-/

namespace Exchange

open PriorityBook Transition

variable {A : Type} [Slab A Order] {b b' : OrderBook A} {q q' q₁ q₂ : PriorityBook}
  {no : NewOrder} {seq : Seq} {ts : Ts} {es events : List OutputEvent} {side : Side}
  {t p : Price} {s : Nat} {o : Order} {e : Entry}

/-- The command enters an order that is matched. -/
structure Entry.Executes (e : Entry) : Prop where
  accepted : ∃ seq, .accepted e.1.cmd.id seq ∈ e.2
  unrejected : ∀ e' ∈ e.2, e'.rejects = false
  unstop : ∀ no, e.1.cmd = .new no → no.kind.isStop = false

/-! ## Held orders and their slots -/

theorem Models.held_iff (hm : Models b q) :
    q.held s = some o ↔ coreOf b.arena s = some o ∧ o.kind.isStop = true := by
  obtain ⟨σ, hr⟩ := hm
  refine ⟨hr.filed.held_core s o, fun ⟨hcore, hstop⟩ => ?_⟩
  rcases (hr.filed.covered s o hcore).resolve_left nofun with hσ | hheld
  · have hnot := (hr.filed.side_price hσ hcore).2.2
    rw [hstop] at hnot
    cases hnot
  · exact hheld

/-- A held order is stored as it is. -/
theorem Models.slot?_of_held (hm : Models b q) (hs : q.held s = some o) :
    b.slot? s = some o := by
  have hcore := hm.held_core hs
  obtain ⟨σ, hr⟩ := hm
  have hlinks := hr.loose_links s o hs
  obtain ⟨x, hx, rfl⟩ := get?_of_core hcore
  unfold linksOf at hlinks
  rw [hx] at hlinks
  obtain ⟨hprev, hnext⟩ := Prod.mk.inj (Option.some.inj hlinks)
  have hsame : x.unlinked = x := by
    cases x
    cases hprev
    cases hnext
    rfl
  rw [hsame]
  exact hx

theorem StopsFiled.congr (hf : StopsFiled b q) (hm : Models b q) (hm' : Models b q') :
    StopsFiled b q' := by
  have hheld : ∀ s o, q'.held s = some o ↔ q.held s = some o := fun s o =>
    hm'.held_iff.trans hm.held_iff.symm
  refine ⟨fun side t s hl => ?_, fun s o ho => hf.filed s o ((hheld s o).1 ho), hf.nodup⟩
  obtain ⟨o, ho, hside, hprice⟩ := hf.listed side t s hl
  exact ⟨o, (hheld s o).2 ho, hside, hprice⟩

namespace PriorityBook

/-- A held order is filed at most under its own side and trigger price. -/
def Orderly (q : PriorityBook) : Prop :=
  ∀ side t s o, q.Files side t s → q.held s = some o → o.side = side ∧ o.stopPrice = t

theorem files_prune {side' : Side} (h : (q.prune side p).Files side' t s) : q.Files side' t s := by
  have hfilter : ∀ side', (q.prune side p).stops side' =
      if side' = side then (q.stops side').filter fun t _ => !side'.triggers t p
      else q.stops side' := by
    intro side'
    cases side <;> cases side' <;> rfl
  obtain ⟨slots, hslots, hs⟩ := h
  rw [hfilter] at hslots
  split at hslots
  · rw [OrderedMap.getElem?_filter] at hslots
    split at hslots
    · exact ⟨slots, hslots, hs⟩
    · cases hslots
  · exact ⟨slots, hslots, hs⟩

theorem files_execute : (q.execute no seq ts).1.Files side t s ↔ q.Files side t s := by
  obtain ⟨-, hbuys, hsells, -⟩ := execute_frame q no seq ts
  have hstops : (q.execute no seq ts).1.stops side = q.stops side := by
    cases side
    · exact hbuys
    · exact hsells
  unfold Files
  rw [hstops]

theorem held_execute : (q.execute no seq ts).1.held = q.held := (execute_frame q no seq ts).1

namespace Fires

theorem files (h : q.Fires seq ts es q₁) (hs : q₁.Files side t s) : q.Files side t s := by
  induction h with
  | refl => exact hs
  | prune _ _ _ ih => exact ih (files_prune hs)
  | @fire es q₁ side' t' p r o _ _ _ _ _ _ ih =>
    have hreleased : (q₁.release r).Files side t s := files_execute.1 hs
    exact ih hreleased

theorem still (h : q.Fires seq ts es q₁) (hs : q₁.held s = some o) : q.held s = some o := by
  induction h with
  | refl => exact hs
  | prune _ _ _ ih => exact ih hs
  | @fire es q₁ side t p r o' h hheld _ _ _ _ ih =>
    rw [held_execute] at hs
    change Function.update q₁.held r none s = some o at hs
    by_cases hr : s = r
    · rw [hr, Function.update_self] at hs
      cases hs
    · rw [Function.update_of_ne hr] at hs
      exact ih hs

/-- A held order that is gone has fired, and its trigger price was reached. -/
theorem left (h : q.Fires seq ts es q₁) (hq : q.Orderly) (hs : q.held s = some o) :
    q₁.held s = some o ∨ .accepted o.id seq ∈ es ∧
      ∃ p, q.TradedAt es p ∧ o.side.triggers o.stopPrice p = true := by
  induction h with
  | refl => exact .inl hs
  | prune _ _ _ ih => exact ih
  | @fire es q₁ side t p r o' h hheld _ hfiled hlast ht ih =>
    rcases ih with ih | ⟨hmem, p', hp', ht'⟩
    · by_cases hr : s = r
      · subst hr
        cases hheld.symm.trans ih
        obtain ⟨rfl, rfl⟩ := hq _ _ _ _ (h.files hfiled) (h.still hheld)
        exact .inr ⟨by simp, p, hlast.append_left _, ht⟩
      · left
        rw [held_execute]
        exact (Function.update_of_ne hr ..).trans ih
    · exact .inr ⟨List.mem_append_left _ hmem, p', hp'.append_left _, ht'⟩

theorem rejects (h : q.Fires seq ts es q₁) : ∀ e ∈ es, e.rejects = false := by
  induction h with
  | refl => exact nofun
  | prune _ _ _ ih => exact ih
  | fire _ _ _ _ _ _ ih =>
    intro e he
    rcases List.mem_append.1 he with he | he
    · exact ih e he
    · rcases List.mem_cons.1 he with rfl | he
      · rfl
      · exact rejects_of_mem_execute he

end Fires

theorem TradedAt.cons {e : OutputEvent} (h : q.TradedAt es p) : q.TradedAt (e :: es) p := by
  rcases h with h | h
  · exact .inl h
  · obtain ⟨e', he', hp⟩ := List.mem_filterMap.1 h
    exact .inr (List.mem_filterMap.2 ⟨e', List.mem_cons_of_mem e he', hp⟩)

theorem Enters.left (h : q.Enters seq ts no q₁ es) (hq : q.Orderly) (hs : q.held s = some o) :
    q₁.held s = some o ∨ (.accepted o.id seq ∈ es ∧ no.id ≠ o.id) ∧
      ∃ p, q.TradedAt es p ∧ o.side.triggers o.stopPrice p = true := by
  cases h with
  | rejected => exact .inl hs
  | @held r hno hstop hr =>
    left
    change Function.update q.held r _ s = some o
    rw [Function.update_of_ne]
    · exact hs
    · rintro rfl
      rw [hr] at hs
      cases hs
  | killed => exact .inl hs
  | @executed q₁ es hno hstop hfok hfires =>
    have hq' : (q.execute no seq ts).1.Orderly := by
      intro side t r o hl ho
      rw [held_execute] at ho
      exact hq side t r o (files_execute.1 hl) ho
    rcases hfires.left hq' (by rw [held_execute]; exact hs) with h | ⟨hmem, p, hp, ht⟩
    · exact .inl h
    · have hid : no.id ≠ o.id := fun hid =>
        (qty_and_not_lives_of_not_refuses hno).2 (.inr ⟨s, o, hs, hid.symm⟩)
      refine .inr ⟨⟨List.mem_append_right _ hmem, hid⟩, p, ?_, ht⟩
      rcases hp with hp | hp
      · exact ((tradedAt_of_getLast? ((execute_lastTrade q no seq ts).symm.trans hp)).cons
          (e := .accepted no.id seq)).append_left es
      · refine .inr ?_
        rw [List.filterMap_append]
        exact List.mem_append_right _ hp

/-- The last trade price after an order has come in. -/
theorem Enters.lastTrade (h : q.Enters seq ts no q₁ es) :
    q₁.lastTrade = (es.filterMap OutputEvent.tradePrice?).getLast?.or q.lastTrade := by
  cases h with
  | rejected => rfl
  | held => rfl
  | killed => rfl
  | executed _ _ _ hfires =>
    rw [hfires.lastTrade, execute_lastTrade, List.filterMap_append,
      List.filterMap_cons_none rfl, List.getLast?_append, Option.or_assoc]

/-- An order that does not come to a match leaves the last trade price. -/
theorem Enters.quiet (h : q.Enters seq ts no q₁ es)
    (hidle : no.kind.isStop = true ∨ ∃ e ∈ es, e.rejects = true) :
    q₁.lastTrade = q.lastTrade := by
  cases h with
  | rejected => rfl
  | held => rfl
  | killed => rfl
  | executed _ hstop _ hfires =>
    rcases hidle with hidle | ⟨e, he, hrejects⟩
    · rw [hstop] at hidle
      cases hidle
    · have hnone : e.rejects = false := by
        rcases List.mem_append.1 he with he | he
        · rcases List.mem_cons.1 he with rfl | he
          · rfl
          · exact rejects_of_mem_execute he
        · exact hfires.rejects e he
      rw [hnone] at hrejects
      cases hrejects

theorem Enters.accepted_or_rejected (h : q.Enters seq ts no q₁ es) :
    .accepted no.id seq ∈ es ∨ ∃ e ∈ es, e.rejects = true := by
  cases h with
  | rejected => exact .inr ⟨_, List.mem_singleton_self _, rfl⟩
  | held => exact .inl (List.mem_singleton_self _)
  | killed => exact .inl List.mem_cons_self
  | executed => exact .inl (List.mem_append_left _ List.mem_cons_self)

theorem TakesOut.frame {id : OrderId} (h : q.TakesOut id o q₁) (hw : ¬q.Waits id) :
    q₁.held = q.held ∧ q₁.lastTrade = q.lastTrade ∧
      ∀ side t s, q₁.Files side t s ↔ q.Files side t s := by
  cases h with
  | maker => exact ⟨rfl, rfl, fun side t s => by cases side <;> exact Iff.rfl⟩
  | held ho hid => exact absurd ⟨_, _, ho, hid⟩ hw

end PriorityBook

namespace StopStep

/-- A held order that a command does not take out stays, or has fired. -/
theorem left (h : StopStep q e q₁) (hq : q.Orderly)
    (hw : ∀ id, e.1.cmd.takesOut = some id → ¬q.Waits id) (hs : q.held s = some o) :
    q₁.held s = some o ∨ (.accepted o.id e.1.seq ∈ e.2 ∧ e.1.cmd.id ≠ o.id) ∧
      ∃ p, q.TradedAt e.2 p ∧ o.side.triggers o.stopPrice p = true := by
  cases h with
  | new h => exact h.left hq hs
  | cancelUnknown => exact .inl hs
  | cancel h => exact .inl (by rw [(h.frame (hw _ rfl)).1]; exact hs)
  | replaceZero => exact .inl hs
  | replaceUnknown => exact .inl hs
  | replace hqty h henters =>
    obtain ⟨hheld, hlast, hfiles⟩ := h.frame (hw _ (if_neg hqty))
    have hq₂ : PriorityBook.Orderly _ := fun side t r o hl ho =>
      hq side t r o ((hfiles side t r).1 hl) (by rw [← hheld]; exact ho)
    rcases henters.left hq₂ (by rw [hheld]; exact hs) with h | ⟨⟨hmem, hid⟩, p, hp, ht⟩
    · exact .inl h
    · refine .inr ⟨⟨List.mem_cons_of_mem _ hmem, hid⟩, p, ?_, ht⟩
      unfold TradedAt at hp
      rw [hlast] at hp
      exact TradedAt.cons hp

/-- The last trade price is the last on the tape. -/
theorem lastTrade (h : StopStep q e q₁)
    (hw : ∀ id, e.1.cmd.takesOut = some id → ¬q.Waits id) :
    q₁.lastTrade = (e.2.filterMap OutputEvent.tradePrice?).getLast?.or q.lastTrade := by
  cases h with
  | new h => exact h.lastTrade
  | cancelUnknown => rfl
  | cancel h => exact (h.frame (hw _ rfl)).2.1
  | replaceZero => rfl
  | replaceUnknown => rfl
  | replace hqty h henters =>
    rw [henters.lastTrade, (h.frame (hw _ (if_neg hqty))).2.1, List.filterMap_cons_none rfl]

/-- A command that matches no order leaves the last trade price. -/
theorem quiet (h : StopStep q e q₁) (hw : ∀ id, e.1.cmd.takesOut = some id → ¬q.Waits id)
    (hidle : ¬Entry.Executes e) : q₁.lastTrade = q.lastTrade := by
  have henters : ∀ {q q₁ : PriorityBook} {no : NewOrder} {seq : Seq} {ts : Ts}
      {es : List OutputEvent}, q.Enters seq ts no q₁ es → no.id = e.1.cmd.id →
      (∀ e' ∈ es, e' ∈ e.2) → (∀ e' ∈ e.2, e'.rejects = true → e' ∈ es) →
      (∀ no', e.1.cmd = .new no' → no' = no) → q₁.lastTrade = q.lastTrade := by
    intro q q₁ no seq ts es h hid hmem hrejected hnew
    refine h.quiet ?_
    by_contra hbusy
    push Not at hbusy
    refine hidle ⟨?_, fun e' he' => ?_, fun no' hno' => ?_⟩
    · rcases h.accepted_or_rejected with hacc | ⟨e', he', hrej⟩
      · exact ⟨seq, hid ▸ hmem _ hacc⟩
      · exact absurd hrej (hbusy.2 e' he')
    · cases hrej : e'.rejects with
      | false => rfl
      | true => exact absurd hrej (hbusy.2 e' (hrejected e' he' hrej))
    · rw [hnew no' hno']
      exact Bool.eq_false_iff.2 hbusy.1
  cases h with
  | new h => exact henters h rfl (fun _ h => h) (fun _ h _ => h) fun no' hno' => by cases hno'; rfl
  | cancelUnknown => rfl
  | cancel h => exact (h.frame (hw _ rfl)).2.1
  | replaceZero => rfl
  | replaceUnknown => rfl
  | replace hqty h hnew =>
    rw [← (h.frame (hw _ (if_neg hqty))).2.1]
    refine henters hnew rfl (fun _ h => List.mem_cons_of_mem _ h) (fun e' he' hrej => ?_) nofun
    rcases List.mem_cons.1 he' with rfl | he'
    · cases hrej
    · exact he'

/-- A stop order that is accepted is held. -/
theorem holds (h : StopStep q e q₁) (hno : e.1.cmd = .new no) (hstop : no.kind.isStop = true)
    {seq : Seq} (haccepted : .accepted no.id seq ∈ e.2) :
    ∃ s, q₁.held s = some (no.toOrder e.1.seq e.1.ts) := by
  cases h with
  | new h =>
    cases hno
    cases h with
    | rejected => simp at haccepted
    | @held s => exact ⟨s, Function.update_self ..⟩
    | killed _ hfok =>
      rw [hfok] at hstop
      cases hstop
    | executed _ hunstop =>
      rw [hunstop] at hstop
      cases hstop
  | _ => cases hno

end StopStep

/-! ## Runs -/

/-- A command that keeps the stop maps takes no held order out. -/
theorem Command.KeepsStops.not_waits {c : Command} (h : c.KeepsStops b) (hm : Models b q)
    {id : OrderId} (hid : c.takesOut = some id) : ¬q.Waits id := by
  rintro ⟨s, o, ho, rfl⟩
  have hslot := hm.slot?_of_held ho
  obtain ⟨σ, hr⟩ := hm
  obtain ⟨hcore, hstop⟩ := hr.filed.held_core s o ho
  have hnot := h.1 o.id hid _ o (hr.filed.index_eq hcore nofun) hslot
  rw [hstop] at hnot
  cases hnot

theorem StopsFiled.orderly (hf : StopsFiled b q) (hm : Models b q) : q.Orderly := by
  intro side t s o hl ho
  obtain ⟨o', ho', hside, hprice⟩ := hf.listed side t s (hm.files_iff.1 hl)
  rw [ho] at ho'
  cases ho'
  exact ⟨hside, hprice⟩

/-- An order that is matched leaves no stop order waiting that the last trade has reached. -/
theorem Entry.Executes.noneWaiting (h : Entry.Executes e) (hb : Sound b none)
    (hkeeps : e.1.cmd.KeepsStops b) (happ : ApplyStep b e b') : NoneWaiting b' := by
  obtain ⟨⟨seq, ts, cmd⟩, events⟩ := e
  obtain ⟨fuel, hcall⟩ := happ
  change applyWithin fuel b ⟨seq, ts, cmd⟩ = .ok (b', events) at hcall
  have hunrejected : ∀ id reason seq, .rejected id reason seq ∉ events :=
    fun id reason seq hmem => by cases h.unrejected _ hmem
  cases cmd with
  | new no =>
    exact applyNew_completes hcall hb (h.unstop no rfl) fun reason => hunrejected _ _ _
  | cancel id symbol =>
    obtain ⟨seq', hmem⟩ := h.accepted
    rcases (applyCancel_inv hcall hb).2 with ⟨-, hevents⟩ | hevents
    · rw [hevents] at hmem
      simp at hmem
    · rw [hevents] at hmem
      simp at hmem
  | replace id newPrice newQty symbol =>
    rcases applyReplace_inv hcall hb with ⟨-, ⟨reason, hevents⟩, -⟩ |
      ⟨loc, o, b₂, answer, hqty, hidx, hslot, hb₂, -, hnew, hevents⟩
    · refine absurd ?_ (hunrejected id reason seq)
      rw [hevents]
      exact List.mem_singleton_self _
    · have hkind : o.kind.isStop = false := hkeeps.1 id (if_neg hqty) loc o hidx hslot
      refine applyNew_completes hnew hb₂ hkind fun reason hmem => ?_
      refine hunrejected id reason seq ?_
      rw [hevents]
      exact List.mem_cons_of_mem _ hmem

/-- A stop order has fired, at a command for another order, on a trade of that command or
the last one before it that reached its trigger price. -/
def HasFired (before : List Entry) (e : Entry) (no : NewOrder) (after : List Entry) : Prop :=
  ∃ mid e' rest p, after = mid ++ e' :: rest ∧
    (.accepted no.id e'.1.seq ∈ e'.2 ∧ e'.1.cmd.id ≠ no.id) ∧
    ((tape (before ++ e :: mid)).getLast? = some p ∨
      p ∈ e'.2.filterMap OutputEvent.tradePrice?) ∧
    no.side.triggers no.stopPrice p = true

/-- What has become of a stop order that was accepted: it waits as it was submitted, and
beyond the last trade once another order has been matched, or it has fired. -/
def StopFate (b : OrderBook A) (before : List Entry) (e : Entry) (no : NewOrder)
    (after : List Entry) : Prop :=
  (∃ s, b.slot? s = some (no.toOrder e.1.seq e.1.ts) ∧
    ((∃ e' ∈ after, Entry.Executes e') →
      ∀ p, b.lastTrade = some p → no.side.triggers no.stopPrice p = false)) ∨
  HasFired before e no after

/-- A book of the run, its priority book, and what has become of its stop orders. -/
structure Tracks (b : OrderBook A) (q : PriorityBook) (log : List Entry) : Prop where
  models : Models b q
  live : HeldLive q
  filed : StopsFiled b q
  last : q.lastTrade = (tape log).getLast?
  fate : ∀ before e after no, log = before ++ e :: after → e.1.cmd = .new no →
    no.kind.isStop = true → (∃ seq, .accepted no.id seq ∈ e.2) → StopFate b before e no after

theorem Tracks.new (symbol : SymbolId) (tick : Price) :
    Tracks (OrderBook.new symbol tick : OrderBook A) (PriorityBook.new symbol tick) [] where
  models := ⟨_, Refines.new symbol tick⟩
  live := nofun
  filed := .new symbol tick
  last := rfl
  fate before e after no h := by simp at h

theorem Models.lastTrade (hm : Models b q) : b.lastTrade = q.lastTrade := hm.choose_spec.lastTrade

variable [LifoSlab A Order]

/-- **The step.** -/
theorem Tracks.step {log : List Entry} (h : Tracks b q log) (hb : Sound b none)
    (hkeeps : e.1.cmd.KeepsStops b) (happ : ApplyStep b e b') :
    ∃ q', Tracks b' q' (log ++ [e]) := by
  obtain ⟨q', hstep, hm', hlive'⟩ :=
    apply_stopStep h.models h.live (hkeeps.clear h.filed h.models) happ
  obtain ⟨q₂, hm₂, hf₂⟩ := apply_stopsFiled h.models h.filed hkeeps happ
  have hf' := hf₂.congr hm₂ hm'
  have hw : ∀ id, e.1.cmd.takesOut = some id → ¬q.Waits id := fun id hid =>
    hkeeps.not_waits h.models hid
  have hunreached : ∀ {s o}, q'.held s = some o → Entry.Executes e →
      ∀ p, b'.lastTrade = some p → o.side.triggers o.stopPrice p = false := by
    intro s o ho hexec p hp
    rw [← Bool.not_eq_true]
    intro ht
    obtain ⟨slots, hslots, -⟩ := hf'.filed s o ho
    rw [hexec.noneWaiting hb hkeeps happ p hp _ _ ht] at hslots
    cases hslots
  refine ⟨q', hm', hlive', hf', ?_, fun before e₀ after no hlog hno hstop haccepted => ?_⟩
  · rw [hstep.lastTrade hw, h.last, tape_snoc, List.getLast?_append]
  rcases List.eq_nil_or_concat' after with rfl | ⟨mid, e', rfl⟩
  · -- the command that has just been applied is the one that held the order
    obtain ⟨rfl, he⟩ := List.append_inj' hlog rfl
    cases he
    obtain ⟨seq, haccepted⟩ := haccepted
    obtain ⟨s, hs⟩ := hstep.holds hno hstop haccepted
    exact .inl ⟨s, hm'.slot?_of_held hs, fun ⟨e', he', _⟩ => by cases he'⟩
  · have hsplit : log = before ++ e₀ :: mid ∧ e = e' := by
      have hlog' : log ++ [e] = (before ++ e₀ :: mid) ++ [e'] := by simpa using hlog
      obtain ⟨hl, he⟩ := List.append_inj' hlog' rfl
      exact ⟨hl, by simpa using he⟩
    obtain ⟨rfl, rfl⟩ := hsplit
    rcases h.fate before e₀ mid no rfl hno hstop haccepted with
      ⟨s, hslot, hbeyond⟩ | ⟨mid', e', rest, p, rfl, hacc, hp, ht⟩
    · have hheld : q.held s = some (no.toOrder e₀.1.seq e₀.1.ts) :=
        h.models.held_iff.2 ⟨congrArg (·.map Order.unlinked) hslot, hstop⟩
      rcases hstep.left (h.filed.orderly h.models) hw hheld with hs | ⟨hacc, p, hp, ht⟩
      · refine .inl ⟨s, hm'.slot?_of_held hs, fun ⟨e', he', hexec⟩ p hp => ?_⟩
        by_cases hnow : Entry.Executes e
        · exact hunreached hs hnow p hp
        · -- the price is the one from before
          rcases List.mem_append.1 he' with he' | he'
          · refine hbeyond ⟨e', he', hexec⟩ p ?_
            rw [h.models.lastTrade, ← hstep.quiet hw hnow, ← hm'.lastTrade]
            exact hp
          · rw [List.mem_singleton.1 he'] at hexec
            exact absurd hexec hnow
      · refine .inr ⟨mid, e, [], p, rfl, hacc, ?_, ht⟩
        rw [← h.last]
        exact hp
    · exact .inr ⟨mid', e', rest ++ [e], p, by simp, hacc, hp, ht⟩

/-- **Stop orders fire in time.** In a run of commands that keep the stop maps every stop
order that was accepted waits as it was submitted, and has not missed its price, or has
fired, and a trade had reached its price. -/
theorem reachesKeeping_fires {symbol : SymbolId} {tick : Price} {before after : List Entry}
    (h : ReachesKeeping symbol tick (before ++ e :: after) b) (hno : e.1.cmd = .new no)
    (hstop : no.kind.isStop = true) (haccepted : .accepted no.id seq ∈ e.2) :
    StopFate b before e no after := by
  have hinv : ∃ q, Tracks b q (before ++ e :: after) := by
    have hall : Reaches symbol tick (before ++ e :: after) b ∧
        ∃ q, Tracks b q (before ++ e :: after) := by
      refine Run.invariant (I := fun log b => Reaches symbol tick log b ∧ ∃ q, Tracks b q log)
        ⟨.nil, _, .new symbol tick⟩ ?_ h
      rintro log b e b' hrun ⟨hreach, q, hq⟩ ⟨hkeeps, happ⟩
      exact ⟨hreach.snoc happ, hq.step (reaches_sound hreach) hkeeps happ⟩
    exact hall.2
  obtain ⟨q, hq⟩ := hinv
  exact hq.fate before e after no rfl hno hstop ⟨seq, haccepted⟩

/-- The trade of the last command fires the second stop order and not the first. -/
theorem reachesKeeping_fires_sample :
    ∃ (b : OrderBook (VecSlab Order)) (e₁ e₂ e₃ e₄ : Entry),
      ReachesKeeping 0 1 [e₁, e₂, e₃, e₄] b ∧ (∃ x, b.slot? 0 = some x ∧ x.id = 1) ∧
      .trade 4 2 3 100 1 .buy 0 ∈ e₄.2 ∧
      StopFate b [] e₁ ⟨1, 0, .buy, .stopMarket, .gtc, 0, 105, 1⟩ [e₂, e₃, e₄] ∧
      StopFate b [e₁] e₂ ⟨2, 0, .buy, .stopMarket, .gtc, 0, 100, 1⟩ [e₃, e₄] := by
  have hok : ∃ r₁ r₂ r₃ r₄,
      applyWithin 9 (OrderBook.new 0 1 : OrderBook (VecSlab Order))
        ⟨1, 0, .new ⟨1, 0, .buy, .stopMarket, .gtc, 0, 105, 1⟩⟩ = .ok r₁ ∧
      applyWithin 9 r₁.1 ⟨2, 0, .new ⟨2, 0, .buy, .stopMarket, .gtc, 0, 100, 1⟩⟩ = .ok r₂ ∧
      applyWithin 9 r₂.1 ⟨3, 0, .new ⟨3, 0, .sell, .limit, .gtc, 100, 0, 2⟩⟩ = .ok r₃ ∧
      applyWithin 9 r₃.1 ⟨4, 0, .new ⟨4, 0, .buy, .limit, .gtc, 100, 0, 1⟩⟩ = .ok r₄ ∧
      (∀ s ∈ r₁.1.filedSlots, (r₁.1.slot? s).all fun o => o.kind = .stopMarket) ∧
      (∀ s ∈ r₂.1.filedSlots, (r₂.1.slot? s).all fun o => o.kind = .stopMarket) ∧
      (∀ s ∈ r₃.1.filedSlots, (r₃.1.slot? s).all fun o => o.kind = .stopMarket) ∧
      (∃ x, r₄.1.slot? 0 = some x ∧ x.id = 1) ∧
      .trade 4 2 3 100 1 .buy 0 ∈ r₄.2 ∧ .accepted 1 1 ∈ r₁.2 ∧ .accepted 2 2 ∈ r₂.2 := by
    refine ⟨_, _, _, _, rfl, rfl, rfl, rfl, ?_, ?_, ?_, ⟨_, rfl, rfl⟩, ?_⟩
    · decide +kernel
    · decide +kernel
    · decide +kernel
    · decide +kernel
  obtain ⟨⟨b₁, e₁⟩, ⟨b₂, e₂⟩, ⟨b₃, e₃⟩, ⟨b₄, e₄⟩, h₁, h₂, h₃, h₄, hf₁, hf₂, hf₃, hwaits, htrade,
    hacc₁, hacc₂⟩ := hok
  have hrun₁ : ReachesKeeping 0 1 ([] ++ [(_, e₁)]) b₁ :=
    Run.nil.snoc ⟨Command.keepsStops_of_filedSlots (by decide) rfl, 9, h₁⟩
  have hrun₂ : ReachesKeeping 0 1 ([] ++ [(_, e₁)] ++ [(_, e₂)]) b₂ :=
    hrun₁.snoc ⟨Command.keepsStops_of_filedSlots hf₁ rfl, 9, h₂⟩
  have hrun₃ : ReachesKeeping 0 1 ([] ++ [(_, e₁)] ++ [(_, e₂)] ++ [(_, e₃)]) b₃ :=
    hrun₂.snoc ⟨Command.keepsStops_of_filedSlots hf₂ rfl, 9, h₃⟩
  have hrun₄ : ReachesKeeping 0 1 ([] ++ [(_, e₁)] ++ [(_, e₂)] ++ [(_, e₃)] ++ [(_, e₄)]) b₄ :=
    hrun₃.snoc ⟨Command.keepsStops_of_filedSlots hf₃ rfl, 9, h₄⟩
  exact ⟨b₄, _, _, _, _, hrun₄, hwaits, htrade,
    reachesKeeping_fires hrun₄ rfl rfl hacc₁,
    reachesKeeping_fires hrun₄ rfl rfl hacc₂⟩

end Exchange
