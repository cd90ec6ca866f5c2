import Exchange.Verify.AlikeRuns
import Exchange.Verify.Live

/-!
# Probing the cached totals

Trades do not show the cached total of a level until a fill-or-kill order reads it:
cancel everything else on its side, then ask for a quantity at its price. Books that
trade alike under all commands therefore cache the same totals.
-/

namespace Exchange

open PriorityBook

variable {A : Type} [Slab A Order] {b b' : OrderBook A} {σ σ' : Queues Nat}
  {q q' : PriorityBook} {side : Side} {p : Price}

/-! ## Trades of a run -/

def OutputEvent.isTrade : OutputEvent → Bool
  | .trade .. => true
  | _ => false

def trades (log : List Entry) : List OutputEvent := log.flatMap fun e => e.2.filter (·.isTrade)

theorem trades_append (log log' : List Entry) : trades (log ++ log') = trades log ++ trades log' :=
  List.flatMap_append

/-- Whatever commands `b` processes, `b'` processes too, with the same trades. -/
def TradesLike (b b' : OrderBook A) : Prop :=
  ∀ log b₁, Transition.Run ApplyStep b log b₁ → ∃ log' b₁', Transition.Run ApplyStep b' log' b₁' ∧
    log'.map Prod.fst = log.map Prod.fst ∧ trades log' = trades log

def SameTrades (b b' : OrderBook A) : Prop := TradesLike b b' ∧ TradesLike b' b

theorem OrderBook.Alike.sameTrades [StackSlab A Order] {R : Nat → Nat → Prop}
    (hR : Relator.BiUnique R) (h : b.Alike R b') : SameTrades b b' := by
  refine ⟨fun log b₁ hrun => ?_, fun log b₁ hrun => ?_⟩
  · obtain ⟨b₁', hrun', -⟩ := h.run hR hrun
    exact ⟨log, b₁', hrun', rfl, rfl⟩
  · obtain ⟨b₁', hrun', -⟩ := h.run_right hR hrun
    exact ⟨log, b₁', hrun', rfl, rfl⟩

/-- A run of the priority book is a run of the order books that refine it. -/
theorem Refines.run {log : List Entry} {q₁ : PriorityBook} (hr : Refines b σ none q)
    (hq : q.StopFree) (hrun : Transition.Run PriorityStep q log q₁) :
    ∃ b₁, Transition.Run ApplyStep b log b₁ := by
  have hstep : ∀ q (b : OrderBook A) e q', ((∃ σ, Refines b σ none q) ∧ q.StopFree) →
      PriorityStep q e q' →
      ∃ b', ApplyStep b e b' ∧ (∃ σ, Refines b' σ none q') ∧ q'.StopFree := by
    rintro q b e q' ⟨⟨σ, hr⟩, hq⟩ ⟨hcmd, happly⟩
    obtain ⟨b', σ', happ, hr', hq'⟩ := apply_refines hr hq hcmd
    rw [happly] at happ hr' hq'
    exact ⟨b', happ, ⟨σ', hr'⟩, hq'⟩
  obtain ⟨b₁, hrun', -⟩ := Transition.Run.simulate
    (R := fun q b => (∃ σ, Refines b σ none q) ∧ q.StopFree) ⟨⟨σ, hr⟩, hq⟩ hstep hrun
  exact ⟨b₁, hrun'⟩

/-! ## The probe -/

namespace PriorityBook

/-- Ask `side` for `qty` at `p`, all or nothing. -/
def probe (id : OrderId) (side : Side) (p : Price) (qty : Qty) : NewOrder :=
  ⟨id, 0, side.opposite, .fok, .gtc, p, 0, qty⟩

theorem ladder_of_price (hp : ∀ o ∈ q.makers side, o.price = p) (hne : q.makers side ≠ []) :
    q.ladder side = [(p, (q.tally side p).totalQty)] := by
  have hrep : (q.makers side).map (·.price) = List.replicate (q.makers side).length p :=
    List.eq_replicate_iff.2 ⟨List.length_map .., fun p' hp' => by
      obtain ⟨o, ho, rfl⟩ := List.mem_map.1 hp'
      exact hp o ho⟩
  rw [ladder, hrep, List.replicate_dedup (by simpa using hne)]
  rfl

theorem available_of_price (hp : ∀ o ∈ q.makers side, o.price = p) (hne : q.makers side ≠ []) :
    q.available side.opposite p = (q.tally side p).totalQty := by
  have hself : side.opposite.withinLimit p p = true := by
    cases side <;> simp [Side.withinLimit, Side.opposite]
  unfold available
  rw [Side.opposite_opposite, ladder_of_price hp hne]
  simp [hself, Qty.satAdd]

theorem reject?_probe {id : OrderId} {qty : Qty} (hpos : 0 < p) (hqty : qty ≠ 0)
    (hid : q.live? id = none) : q.reject? (probe id side p qty) = none := by
  have hp : ¬p ≤ 0 := by
    rw [Int64.lt_iff_toInt_lt] at hpos
    rw [Int64.le_iff_toInt_le]
    omega
  simp [reject?, probe, hqty, hid, hp]

/-- On a side of one price the probe trades when the cached total suffices. -/
theorem probe_trades {id : OrderId} {qty : Qty} (seq : Seq) (ts : Ts)
    (hp : ∀ o ∈ q.makers side, o.price = p) (hne : q.makers side ≠ []) (hpos : 0 < p)
    (hqty : qty ≠ 0) (hid : q.live? id = none) :
    (q.enter (probe id side p qty) seq ts).2.filter (·.isTrade) = [] ↔
      (q.tally side p).totalQty < qty := by
  have havail := available_of_price hp hne
  unfold enter
  rw [reject?_probe hpos hqty hid]
  dsimp only
  have hkill : ((probe id side p qty).kind = .fok ∧
      q.available (probe id side p qty).side (probe id side p qty).price <
        (probe id side p qty).qty) ↔ (q.tally side p).totalQty < qty := by
    rw [show (probe id side p qty).kind = .fok from rfl, ← havail]
    exact and_iff_right rfl
  by_cases h : (q.tally side p).totalQty < qty
  · rw [if_pos (hkill.2 h)]
    exact iff_of_true rfl h
  · rw [if_neg fun h' => h (hkill.1 h')]
    refine iff_of_false ?_ h
    cases hm : q.makers side with
    | nil => exact absurd hm hne
    | cons m ms =>
      have hm' : q.makers (probe id side p qty).side.opposite = m :: ms := by
        rw [show (probe id side p qty).side = side.opposite from rfl, Side.opposite_opposite, hm]
      have hfills : fills (probe id side p qty).accepts (probe id side p qty).qty
          (q.makers (probe id side p qty).side.opposite) =
            (m, min qty m.remaining) :: fills (probe id side p qty).accepts
              (qty - min qty m.remaining) ms := by
        rw [hm']
        exact fills_of_go hqty rfl
      simp [execute, hfills, fillEvents, OutputEvent.isTrade]

/-- Cancelling orders of other prices leaves the total of the price alone. -/
theorem cancel_run (hq : q.WF) (hfree : q.StopFree) {ids : List OrderId} (hnd : ids.Nodup)
    (hids : ∀ id ∈ ids, ∃ o ∈ q.makers side, o.id = id ∧ o.price ≠ p) :
    ∃ log q₁, Transition.Run PriorityStep q log q₁ ∧
      log.map Prod.fst = ids.map (fun id => ⟨0, 0, .cancel id 0⟩) ∧ trades log = [] ∧ q₁.WF ∧
      q₁.StopFree ∧ q₁.makers side = (q.makers side).filter (fun o => o.id ∉ ids) ∧
      q₁.makers side.opposite = q.makers side.opposite ∧ q₁.tally side p = q.tally side p := by
  induction ids using List.reverseRecOn with
  | nil => exact ⟨[], q, .nil, rfl, rfl, hq, hfree, by simp, rfl, rfl⟩
  | append_singleton ids id ih =>
    obtain ⟨log, q₁, hrun, hcmds, htrades, hq₁, hfree₁, hmakers, hopposite, htally⟩ :=
      ih hnd.of_append_left fun id' hid' => hids id' (List.mem_append_left _ hid')
    obtain ⟨o, ho, rfl, hprice⟩ := hids id (List.mem_append_right _ List.mem_cons_self)
    have hfresh : o.id ∉ ids := fun h =>
      (List.nodup_append.1 hnd).2.2 _ h _ List.mem_cons_self rfl
    have ho₁ : o ∈ q₁.makers side := by
      rw [hmakers]
      exact List.mem_filter.2 ⟨ho, decide_eq_true hfresh⟩
    obtain ⟨-, rfl, -⟩ := hq₁.maker side o ho₁
    have hlive : q₁.live? o.id = some o := hq₁.live?_eq_some.2 ⟨⟨_, ho₁⟩, rfl⟩
    have happly : q₁.apply ⟨0, 0, .cancel o.id 0⟩ = (q₁.drop o, [.cancelled o.id 0]) := by
      simp only [apply, hlive]
    have hstep : PriorityStep q₁ (⟨0, 0, .cancel o.id 0⟩, [.cancelled o.id 0]) (q₁.drop o) :=
      ⟨trivial, happly⟩
    refine ⟨_, _, hrun.snoc hstep, ?_, ?_, hq₁.drop ho₁, hfree₁.drop o, ?_, ?_, ?_⟩
    · rw [List.map_append, List.map_append, hcmds]
      rfl
    · rw [trades_append, htrades]
      rfl
    · have hdrop : (q₁.drop o).makers o.side =
          (q₁.makers o.side).filter fun x => x.id ≠ o.id := makers_put_self
      rw [hdrop, hmakers, List.filter_filter]
      refine List.filter_congr fun x _ => ?_
      simp [and_comm]
    · rw [← hopposite]
      exact makers_put_of_ne (Side.opposite_ne o.side)
    · rw [← htally]
      simp [drop, put, Ne.symm hprice]

/-- The commands of a probe. -/
def probeCommands (ids : List OrderId) (id : OrderId) (side : Side) (p : Price) (qty : Qty) :
    List Sequenced :=
  ids.map (fun id => ⟨0, 0, .cancel id 0⟩) ++ [⟨0, 0, .new (probe id side p qty)⟩]

/-- **The probe.** It trades when the cached total of the level suffices. -/
theorem probe_run (hq : q.WF) (hfree : q.StopFree) {ids : List OrderId} (hnd : ids.Nodup)
    (hids : ∀ id, id ∈ ids ↔ ∃ o ∈ q.makers side, o.id = id ∧ o.price ≠ p)
    (hne : q.queue side p ≠ []) (hpos : 0 < p) {id : OrderId} (hid : q.live? id = none)
    {qty : Qty} (hqty : qty ≠ 0) :
    ∃ log q₁, Transition.Run PriorityStep q log q₁ ∧
      log.map Prod.fst = probeCommands ids id side p qty ∧
      (trades log = [] ↔ (q.tally side p).totalQty < qty) := by
  obtain ⟨log, q₁, hrun, hcmds, htrades, hq₁, -, hmakers, hopposite, htally⟩ :=
    cancel_run hq hfree hnd fun id hid => (hids id).1 hid
  have hp : ∀ o ∈ q₁.makers side, o.price = p := by
    intro o ho
    rw [hmakers] at ho
    obtain ⟨ho, hfresh⟩ := List.mem_filter.1 ho
    by_contra hprice
    exact of_decide_eq_true hfresh ((hids o.id).2 ⟨o, ho, rfl, hprice⟩)
  have hne₁ : q₁.makers side ≠ [] := by
    obtain ⟨o, ho⟩ := List.exists_mem_of_ne_nil _ hne
    obtain ⟨ho, hprice⟩ := mem_queue.1 ho
    refine List.ne_nil_of_mem (a := o) ?_
    rw [hmakers]
    refine List.mem_filter.2 ⟨ho, decide_eq_true fun h => ?_⟩
    obtain ⟨x, hx, hxid, hxp⟩ := (hids o.id).1 h
    rw [List.inj_on_of_nodup_map (hq.ids side) hx ho hxid] at hxp
    exact hxp hprice
  have hid₁ : q₁.live? id = none := by
    rw [hq₁.live?_eq_none]
    rw [hq.live?_eq_none] at hid
    intro side' x hx
    rcases side.eq_or_eq_opposite side' with rfl | rfl
    · rw [hmakers] at hx
      exact hid _ x (List.mem_filter.1 hx).1
    · rw [hopposite] at hx
      exact hid _ x hx
  have hstep : PriorityStep q₁ (⟨0, 0, .new (probe id side p qty)⟩,
      (q₁.enter (probe id side p qty) 0 0).2) (q₁.enter (probe id side p qty) 0 0).1 := ⟨rfl, rfl⟩
  refine ⟨_, _, hrun.snoc hstep, ?_, ?_⟩
  · rw [List.map_append, hcmds]
    rfl
  · rw [trades_append, htrades, List.nil_append, ← htally,
      ← probe_trades 0 0 hp hne₁ hpos hqty hid₁]
    simp [trades]

/-! ## Books that queue the same ids -/

/-- The makers of both books have the same ids at every side and price. -/
def SameIds (q q' : PriorityBook) : Prop :=
  ∀ side i p, (∃ o ∈ q.makers side, o.id = i ∧ o.price = p) ↔
    ∃ o ∈ q'.makers side, o.id = i ∧ o.price = p

theorem sameIds_of_perm
    (h : ∀ side p, ((q.queue side p).map (·.id)).Perm ((q'.queue side p).map (·.id))) :
    q.SameIds q' := by
  intro side i p
  have hiff := (h side p).mem_iff (a := i)
  simp only [List.mem_map, mem_queue] at hiff
  constructor
  · rintro ⟨o, ho, hi, hp⟩
    obtain ⟨o', ⟨ho', hp'⟩, hi'⟩ := hiff.1 ⟨o, ⟨ho, hp⟩, hi⟩
    exact ⟨o', ho', hi', hp'⟩
  · rintro ⟨o, ho, hi, hp⟩
    obtain ⟨o', ⟨ho', hp'⟩, hi'⟩ := hiff.2 ⟨o, ⟨ho, hp⟩, hi⟩
    exact ⟨o', ho', hi', hp'⟩

theorem SameIds.symm (h : q.SameIds q') : q'.SameIds q := fun side i p => (h side i p).symm

theorem SameIds.live?_eq_none (h : q.SameIds q') (hq : q.WF) (hq' : q'.WF) {id : OrderId}
    (hid : q.live? id = none) : q'.live? id = none := by
  rw [hq'.live?_eq_none]
  rw [hq.live?_eq_none] at hid
  intro side x hx hxid
  obtain ⟨o, ho, hoid, -⟩ := (h side id x.price).2 ⟨x, hx, hxid, rfl⟩
  exact hid side o ho hoid

theorem SameIds.queue_ne_nil (h : q.SameIds q') (hne : q.queue side p ≠ []) :
    q'.queue side p ≠ [] := by
  obtain ⟨o, ho⟩ := List.exists_mem_of_ne_nil _ hne
  obtain ⟨ho, hp⟩ := mem_queue.1 ho
  obtain ⟨o', ho', -, hp'⟩ := (h side o.id p).1 ⟨o, ho, rfl, hp⟩
  exact List.ne_nil_of_mem (mem_queue.2 ⟨ho', hp'⟩)

/-- The ids that a probe cancels first. -/
def otherIds (q : PriorityBook) (side : Side) (p : Price) : List OrderId :=
  ((q.makers side).filter fun o => o.price ≠ p).map (·.id)

theorem mem_otherIds {i : OrderId} :
    i ∈ q.otherIds side p ↔ ∃ o ∈ q.makers side, o.id = i ∧ o.price ≠ p := by
  unfold otherIds
  rw [List.mem_map]
  constructor
  · rintro ⟨o, ho, rfl⟩
    obtain ⟨ho, hp⟩ := List.mem_filter.1 ho
    exact ⟨o, ho, rfl, of_decide_eq_true hp⟩
  · rintro ⟨o, ho, rfl, hp⟩
    exact ⟨o, List.mem_filter.2 ⟨ho, decide_eq_true hp⟩, rfl⟩

theorem SameIds.mem_otherIds (h : q.SameIds q') {i : OrderId} :
    i ∈ q.otherIds side p ↔ ∃ o ∈ q'.makers side, o.id = i ∧ o.price ≠ p := by
  rw [PriorityBook.mem_otherIds]
  constructor
  · rintro ⟨o, ho, hi, hp⟩
    obtain ⟨o', ho', hi', hp'⟩ := (h side i o.price).1 ⟨o, ho, hi, rfl⟩
    exact ⟨o', ho', hi', hp' ▸ hp⟩
  · rintro ⟨o, ho, hi, hp⟩
    obtain ⟨o', ho', hi', hp'⟩ := (h side i o.price).2 ⟨o, ho, hi, rfl⟩
    exact ⟨o', ho', hi', hp' ▸ hp⟩

theorem WF.nodup_otherIds (hq : q.WF) : (q.otherIds side p).Nodup :=
  (hq.ids side).sublist (List.filter_sublist.map _)

end PriorityBook

/-- Numbers that exceed the same nonzero quantities are equal. -/
theorem Qty.eq_of_lt_iff {x y : Qty} (h : ∀ qty : Qty, qty ≠ 0 → (x < qty ↔ y < qty)) : x = y := by
  by_contra hne
  have hcases : x < y ∨ y < x := by
    rw [← UInt64.toNat_inj] at hne
    rw [UInt64.lt_iff_toNat_lt, UInt64.lt_iff_toNat_lt]
    omega
  rcases hcases with hlt | hlt
  · have hy := h y (fun e => by rw [e] at hlt; simp at hlt)
    exact absurd (hy.1 hlt) (UInt64.lt_irrefl y)
  · have hx := h x (fun e => by rw [e] at hlt; simp at hlt)
    exact absurd (hx.2 hlt) (UInt64.lt_irrefl x)

/-- Both books answer a probe alike. -/
theorem TradesLike.probe (hr : Refines b σ none q) (hq : q.StopFree)
    (hr' : Refines b' σ' none q') (hq' : q'.StopFree) (h : TradesLike b b') (hsame : q.SameIds q')
    (hne : q.queue side p ≠ []) (hp : 0 < p) {id : OrderId} (hid : q.live? id = none)
    {qty : Qty} (hqty : qty ≠ 0) :
    (q'.tally side p).totalQty < qty ↔ (q.tally side p).totalQty < qty := by
  obtain ⟨log, q₁, hrun, hcmds, hlog⟩ :=
    probe_run hr.wf hq hr.wf.nodup_otherIds (fun _ => mem_otherIds) hne hp hid hqty
  obtain ⟨log', q₁', hrun', hcmds', hlog'⟩ :=
    probe_run hr'.wf hq' hr.wf.nodup_otherIds (fun _ => hsame.mem_otherIds)
      (hsame.queue_ne_nil hne) hp (hsame.live?_eq_none hr.wf hr'.wf hid) hqty
  obtain ⟨b₁, hb⟩ := hr.run hq hrun
  obtain ⟨b₁', hb'⟩ := hr'.run hq' hrun'
  obtain ⟨log'', b₂, hb₂, hcmds₂, htrades⟩ := h log b₁ hb
  obtain ⟨rfl, -⟩ := applyStep_unique hb' hb₂ (hcmds'.trans (hcmds.symm.trans hcmds₂.symm))
  rw [← hlog, ← hlog', htrades]

/-- **Totals show in trades.** Books that queue the same ids and trade alike cache the
same totals, as long as there is an id for the probe. -/
theorem totals_of_tradesLike (hr : Refines b σ none q) (hq : q.StopFree)
    (hr' : Refines b' σ' none q') (hq' : q'.StopFree)
    (hqueue : ∀ side p, ((q.queue side p).map (·.id)).Perm ((q'.queue side p).map (·.id)))
    (hpos : ∀ side, ∀ o ∈ q.makers side, 0 < o.price) {id : OrderId}
    (hid : b.idIndex[id]? = none) (h : TradesLike b b') (side : Side) (p : Price) :
    (q'.tally side p).totalQty = (q.tally side p).totalQty := by
  have hsame := sameIds_of_perm hqueue
  by_cases hne : q.queue side p = []
  · have hne' : q'.queue side p = [] := by
      by_contra hne'
      exact hsame.symm.queue_ne_nil hne' hne
    rw [hr.wf.bare side p hne, hr'.wf.bare side p hne']
  · obtain ⟨o, ho⟩ := List.exists_mem_of_ne_nil _ hne
    obtain ⟨hmaker, hprice⟩ := mem_queue.1 ho
    have hlive := (hr.index_none_iff hq.held).1 hid
    exact Qty.eq_of_lt_iff fun qty hqty =>
      h.probe hr hq hr' hq' hsame hne (hprice ▸ hpos side o hmaker) hlive hqty

end Exchange
