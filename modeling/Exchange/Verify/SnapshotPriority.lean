import Exchange.Verify.Probe
import Exchange.Verify.Rejection
import Exchange.Verify.Reload
import Exchange.Verify.Twins

/-!
# Time priority across a snapshot

`save_snapshot` writes the orders as the id index enumerates them and
`load_snapshot` appends them in that order, so the queues come back as they were
exactly when the enumeration lists every level's orders in queue order. The cached
totals come back as sums; a total that has wrapped before is then another one.
-/

namespace Exchange

open Links PriorityBook

variable {A : Type} [Slab A Order] {b b' : OrderBook A} {σ σ' : Queues Nat}
  {q q' : PriorityBook} {side : Side} {p : Price} {ids : List OrderId}
  {entries : List (OrderId × Location)}

/-! ## Queues -/

/-- The ids of a level's orders from head to tail. -/
def OrderBook.HasQueue (b : OrderBook A) (side : Side) (p : Price) (ids : List OrderId) : Prop :=
  ∃ l slots, b.level? side p = some l ∧ Chain (linksOf b.arena) l.head l.tail slots ∧
    List.Forall₂ (fun s id => ∃ o, b.slot? s = some o ∧ o.id = id) slots ids

/-- Order `a` is ahead of order `c` in the queue of a level. -/
def OrderBook.Ahead (b : OrderBook A) (side : Side) (p : Price) (a c : OrderId) : Prop :=
  ∃ ids, b.HasQueue side p ids ∧ [a, c].Sublist ids

/-- Who is ahead in a level of `b` is ahead in the same level of `b'`. -/
def KeepsPriority (b b' : OrderBook A) : Prop :=
  ∀ side p a c, b.Ahead side p a c → b'.Ahead side p a c

/-- The enumeration lists each level's orders in queue order. -/
def OrderBook.InQueueOrder (b : OrderBook A) (entries : List (OrderId × Location)) : Prop :=
  ∀ side p ids, b.HasQueue side p ids → ids.Sublist (entries.map Prod.fst)

/-- Every level caches the sum of what the indexed orders of its price want, and
there is a level at each of their prices. -/
def OrderBook.TotalsExact (b : OrderBook A) : Prop :=
  ∀ side p, (b.level? side p).map (·.totalQty) =
    if ordersAt (b.ordersOf b.idIndex.toList) side p = [] then none
    else some (totalRemaining (ordersAt (b.ordersOf b.idIndex.toList) side p))

theorem forall₂_eq_map {s : List Nat} {os : List Order} {a : A}
    (h : List.Forall₂ (fun s o => coreOf a s = some o) s os)
    (hids : List.Forall₂ (fun s id => ∃ o, Slab.get? a s = some o ∧ o.id = id) s ids) :
    ids = os.map (·.id) := by
  induction h generalizing ids with
  | nil =>
    cases hids
    rfl
  | cons ho _ ih =>
    cases hids with
    | cons hid hids =>
      obtain ⟨x, hx, rfl⟩ := hid
      rw [coreOf, hx] at ho
      cases ho
      rw [List.map_cons, ih hids]
      rfl

/-- The queue of a level is that of the priority book. -/
theorem Refines.hasQueue_iff (hr : Refines b σ none q) :
    b.HasQueue side p ids ↔ q.queue side p ≠ [] ∧ ids = (q.queue side p).map (·.id) := by
  constructor
  · rintro ⟨l, slots, hl, hc, hids⟩
    obtain rfl := hc.unique (hr.wired.chain side p l hl)
    exact ⟨(hr.present side p).1 (by rw [hl]; rfl), forall₂_eq_map (hr.filed.queued side p) hids⟩
  · rintro ⟨hne, rfl⟩
    obtain ⟨l, hl⟩ := Option.isSome_iff_exists.1 ((hr.present side p).2 hne)
    refine ⟨l, σ side p, hl, hr.wired.chain side p l hl, ?_⟩
    refine List.forall₂_map_right_iff.2 ((hr.filed.queued side p).imp fun s o ho => ?_)
    obtain ⟨x, hx, rfl⟩ := get?_of_core ho
    exact ⟨x, hx, rfl⟩

theorem Refines.nodup_ids (hr : Refines b σ none q) (side : Side) (p : Price) :
    ((q.queue side p).map (·.id)).Nodup :=
  (hr.wf.ids side).sublist (List.filter_sublist.map _)

theorem Refines.ahead_iff (hr : Refines b σ none q) {a c : OrderId} :
    b.Ahead side p a c ↔ [a, c].Sublist ((q.queue side p).map (·.id)) := by
  constructor
  · rintro ⟨ids, hids, hac⟩
    rwa [(hr.hasQueue_iff.1 hids).2] at hac
  · intro hac
    refine ⟨_, hr.hasQueue_iff.2 ⟨fun hnil => ?_, rfl⟩, hac⟩
    rw [hnil] at hac
    cases hac

/-! ## The saved book -/

section Saved

variable (hr : Refines b σ none q) (hq : q.StopFree)
include hr

theorem Refines.located : b.Located := by
  intro id loc hloc
  obtain ⟨o, ho, hid, -⟩ := hr.filed.of_index hloc
  obtain ⟨x, hx, rfl⟩ := get?_of_core ho
  exact ⟨x, hx, hid⟩

include hq

/-- The located orders are the makers. -/
theorem Refines.mem_ordersOf (hperm : entries.Perm b.idIndex.toList) {o : Order} :
    (∃ x ∈ b.ordersOf entries, x.unlinked = o) ↔ ∃ side, o ∈ q.makers side := by
  constructor
  · rintro ⟨x, hx, rfl⟩
    obtain ⟨⟨id, loc⟩, he, hslot⟩ := List.mem_filterMap.1 hx
    have hidx := OrderedMap.mem_toList_iff.1 (hperm.mem_iff.1 he)
    obtain ⟨o, ho, -, -, hmem⟩ := hr.filed.of_index hidx
    have hmem := hmem.resolve_right (by simp [hq.held])
    obtain ⟨y, hy, hyc⟩ := hr.filed.core_of_mem hmem
    cases ho.symm.trans hyc
    cases ho.symm.trans (congrArg (Option.map Order.unlinked) hslot)
    exact ⟨_, (mem_queue.1 hy).1⟩
  · rintro ⟨side, ho⟩
    obtain ⟨s, hs, hcore⟩ := hr.filed.slot_of_mem (mem_queue.2 ⟨ho, rfl⟩)
    have hidx := hr.filed.index_eq hcore (hr.filed.not_hidden hs)
    obtain ⟨x, hx, rfl⟩ := get?_of_core hcore
    exact ⟨x, List.mem_filterMap.2 ⟨_, hperm.mem_iff.2 (OrderedMap.mem_toList_iff.2 hidx), hx⟩, rfl⟩

theorem Refines.mayRest (hperm : entries.Perm b.idIndex.toList) :
    MayRest (b.ordersOf entries) := by
  have hmaker : ∀ x ∈ b.ordersOf entries, x.unlinked ∈ q.makers x.side := by
    intro x hx
    obtain ⟨side, hmem⟩ := (hr.mem_ordersOf hq hperm).1 ⟨x, hx, rfl⟩
    obtain ⟨-, hside, -⟩ := hr.wf.maker side _ hmem
    rwa [← hside] at hmem
  refine ⟨fun x hx => ?_, hr.located.nodup_ids hperm, fun x hx y hy hside => ?_⟩
  · obtain ⟨hkind, -, hrem⟩ := hr.wf.maker x.side _ (hmaker x hx)
    exact ⟨hkind, hrem⟩
  · have hy := hmaker y hy
    rw [hside] at hy
    exact hr.wf.uncrossed x.side _ (hmaker x hx) y.unlinked hy

/-- **Save and load.** The loaded book refines the priority book of the enumerated
orders. -/
theorem Refines.save_load (hperm : entries.Perm b.idIndex.toList) (lastSeq : Seq) :
    ∃ snap b' σ' q', saveSnapshot b entries lastSeq = .ok snap ∧
      (loadSnapshot snap : Outcome (OrderBook A × Seq)) = .ok (b', lastSeq) ∧
      Refines b' σ' none q' ∧ Reloads b.symbol b.tick b.lastTrade (b.ordersOf entries) q' := by
  obtain ⟨b', σ', q', hload, hr', hreload⟩ :=
    load_refines (A := A) b.symbol b.tick b.lastTrade (hr.mayRest hq hperm)
  refine ⟨_, b', σ', q', saveSnapshot_eq lastSeq fun e he => ?_, ?_, hr', hreload⟩
  · obtain ⟨o, ho, -⟩ := hr.located.entries hperm e he
    exact ⟨o, ho⟩
  · unfold loadSnapshot
    dsimp only
    rw [hload]
    rfl

/-- A level's queue is an arrangement of the enumerated orders of its price. -/
theorem Refines.queue_perm (hperm : entries.Perm b.idIndex.toList) (side : Side) (p : Price) :
    ((q.queue side p).map (·.id)).Perm ((ordersAt (b.ordersOf entries) side p).map (·.id)) := by
  have hnd := (hr.located.nodup_ids hperm).sublist
    ((List.filter_sublist (p := fun o : Order => decide (o.side = side ∧ o.price = p))).map (·.id))
  refine (List.perm_ext_iff_of_nodup (hr.nodup_ids side p) hnd).2 fun id => ?_
  rw [List.mem_map, List.mem_map]
  constructor
  · rintro ⟨o, ho, rfl⟩
    obtain ⟨hmaker, rfl⟩ := mem_queue.1 ho
    obtain ⟨-, rfl, -⟩ := hr.wf.maker side o hmaker
    obtain ⟨x, hx, rfl⟩ := (hr.mem_ordersOf hq hperm).2 ⟨_, hmaker⟩
    exact ⟨x, List.mem_filter.2 ⟨hx, decide_eq_true ⟨rfl, rfl⟩⟩, rfl⟩
  · rintro ⟨x, hx, rfl⟩
    obtain ⟨hmem, hsp⟩ := List.mem_filter.1 hx
    obtain ⟨rfl, rfl⟩ := of_decide_eq_true hsp
    obtain ⟨side, hmem⟩ := (hr.mem_ordersOf hq hperm).1 ⟨x, hmem, rfl⟩
    obtain ⟨-, hside, -⟩ := hr.wf.maker side _ hmem
    rw [← hside] at hmem
    exact ⟨x.unlinked, mem_queue.2 ⟨hmem, rfl⟩, rfl⟩

/-- A maker and a located order of one id are one order. -/
theorem Refines.eq_unlinked (hperm : entries.Perm b.idIndex.toList) {o x : Order}
    (ho : o ∈ q.makers side) (hx : x ∈ b.ordersOf entries) (hid : o.id = x.id) :
    o = x.unlinked := by
  obtain ⟨side', hmem⟩ := (hr.mem_ordersOf hq hperm).1 ⟨x, hx, rfl⟩
  have h₁ := hr.wf.live?_eq_some.2 ⟨⟨side, ho⟩, hid⟩
  have h₂ := hr.wf.live?_eq_some.2 ⟨⟨side', hmem⟩, rfl⟩
  exact Option.some.inj (h₁.symm.trans h₂)

end Saved

/-! ## The loaded book -/

section Loaded

variable {symbol : SymbolId} {tick : Price} {last : Option Price}
  (hr : Refines b σ none q) (hq : q.StopFree) (hperm : entries.Perm b.idIndex.toList)
  (hr' : Refines b' σ' none q') (hload : Reloads symbol tick last (b.ordersOf entries) q')
include hr hq hperm hr' hload

omit hr hq hperm hr' in
theorem Reloads.queue_ids (side : Side) (p : Price) :
    (q'.queue side p).map (·.id) = (ordersAt (b.ordersOf entries) side p).map (·.id) := by
  rw [hload.queue, List.map_map]
  rfl

/-- **Priority.** It is kept exactly when the enumeration lists every level's orders in
queue order. -/
theorem keepsPriority_iff : KeepsPriority b b' ↔ b.InQueueOrder entries := by
  have hkeys := ids_ordersOf (hr.located.entries hperm)
  have hsub : ∀ side p, ((q'.queue side p).map (·.id)).Sublist (entries.map Prod.fst) := by
    intro side p
    rw [hload.queue_ids, ← hkeys]
    exact List.filter_sublist.map _
  have hqueue : ∀ side p,
      ((q.queue side p).map (·.id)).Perm ((q'.queue side p).map (·.id)) := fun side p => by
    rw [hload.queue_ids]
    exact hr.queue_perm hq hperm side p
  constructor
  · intro h side p ids hids
    obtain ⟨-, rfl⟩ := hr.hasQueue_iff.1 hids
    have heq : (q.queue side p).map (·.id) = (q'.queue side p).map (·.id) :=
      Priority.eq_of_pairs (hr'.nodup_ids side p) (hqueue side p)
        (fun a c hac => hr'.ahead_iff.1 (h side p a c (hr.ahead_iff.2 hac))) fun _ _ hac => hac
    rw [heq]
    exact hsub side p
  · intro h side p a c hac
    have hpair := hr.ahead_iff.1 hac
    obtain ⟨ids, hids, -⟩ := hac
    have hlisted := h side p ids hids
    obtain ⟨-, rfl⟩ := hr.hasQueue_iff.1 hids
    have hnd : (entries.map Prod.fst).Nodup := hkeys ▸ hr.located.nodup_ids hperm
    have heq : (q.queue side p).map (·.id) = (q'.queue side p).map (·.id) :=
      Priority.eq_of_pairs hnd (hqueue side p) (fun _ _ hac => hac.trans hlisted)
        fun _ _ hac => hac.trans (hsub side p)
    rw [hr'.ahead_iff, ← heq]
    exact hpair

omit hr' in
/-- The totals are exact when they are those of the loaded book. -/
theorem totalsExact_iff : b.TotalsExact ↔
    ∀ side p, (q'.tally side p).totalQty = (q.tally side p).totalQty := by
  have hall : ∀ side p, (ordersAt (b.ordersOf b.idIndex.toList) side p).Perm
      (ordersAt (b.ordersOf entries) side p) := fun side p =>
    ((hperm.filterMap _).filter _).symm
  have hlevel : ∀ side p, (b.level? side p).map (·.totalQty) =
      if q.queue side p = [] then none else some (q.tally side p).totalQty := by
    intro side p
    cases hl : b.level? side p with
    | none =>
      have hnil : q.queue side p = [] := by
        by_contra hne
        have := (hr.present side p).2 hne
        rw [hl] at this
        cases this
      rw [if_pos hnil]
      rfl
    | some l =>
      rw [if_neg ((hr.present side p).1 (by rw [hl]; rfl)), hr.tally side p l hl]
      rfl
  have hempty : ∀ side p, ordersAt (b.ordersOf b.idIndex.toList) side p = [] ↔
      q.queue side p = [] := by
    intro side p
    have hlen := (hr.queue_perm hq hperm side p).length_eq
    rw [List.length_map, List.length_map, ← (hall side p).length_eq] at hlen
    rw [← List.length_eq_zero_iff, ← List.length_eq_zero_iff, hlen]
  refine forall_congr' fun side => forall_congr' fun p => ?_
  rw [hlevel, totalRemaining_perm (hall side p), ← hload.tally]
  simp only [hempty]
  by_cases hnil : q.queue side p = []
  · have hperm' := (hall side p).symm
    rw [(hempty side p).2 hnil] at hperm'
    rw [if_pos hnil, if_pos hnil, hload.tally, hperm'.eq_nil, hr.wf.bare side p hnil]
    exact iff_of_true rfl rfl
  · rw [if_neg hnil, if_neg hnil, Option.some.injEq]
    exact eq_comm

/-- The same orders are queued when priority is kept. -/
theorem queue_same (horder : b.InQueueOrder entries) (side : Side) (p : Price) :
    List.Forall₂ Order.Same (q.queue side p) (q'.queue side p) := by
  have hkeep := (keepsPriority_iff hr hq hperm hr' hload).2 horder
  have heq : (q.queue side p).map (·.id) = (ordersAt (b.ordersOf entries) side p).map (·.id) := by
    rw [← hload.queue_ids]
    refine Priority.eq_of_pairs (hr'.nodup_ids side p) ?_
      (fun a c hac => hr'.ahead_iff.1 (hkeep side p a c (hr.ahead_iff.2 hac))) fun _ _ hac => hac
    rw [hload.queue_ids]
    exact hr.queue_perm hq hperm side p
  have hids : List.Forall₂ (fun o x : Order => o.id = x.id) (q.queue side p)
      (ordersAt (b.ordersOf entries) side p) := by
    have hrefl : List.Forall₂ (· = ·) ((q.queue side p).map (·.id))
        ((ordersAt (b.ordersOf entries) side p).map (·.id)) := by
      rw [heq]
      exact List.forall₂_refl _
    exact List.forall₂_map_right_iff.1 (List.forall₂_map_left_iff.1 hrefl)
  obtain ⟨hlen, hzip⟩ := List.forall₂_iff_zip.1 hids
  rw [hload.queue]
  refine List.forall₂_map_right_iff.2 (List.forall₂_iff_zip.2 ⟨hlen, fun {o x} hox => ?_⟩)
  obtain ⟨ho, hx⟩ := List.of_mem_zip hox
  rw [hr.eq_unlinked hq hperm (mem_queue.1 ho).1 (List.mem_filter.1 hx).1 (hzip hox)]
  exact ⟨symbol, .new, rfl⟩

/-- Books alike trade alike. -/
theorem sameTrades_of_inQueueOrder [StackSlab A Order] (hlast : q'.lastTrade = q.lastTrade)
    (horder : b.InQueueOrder entries) (htotals : b.TotalsExact) : SameTrades b b' := by
  have htally := (totalsExact_iff hr hq hperm hload).1 htotals
  have hqueue := queue_same hr hq hperm hr' hload horder
  exact (hr.alike hq hr' hload.stopFree hqueue htally hlast).sameTrades (hr.biUnique hr')

/-- The probe finds a total that is not the sum. -/
theorem totalsExact_of_tradesLike (hb : Sound b none) {id : OrderId}
    (hid : b.idIndex[id]? = none) (h : TradesLike b b') : b.TotalsExact := by
  refine (totalsExact_iff hr hq hperm hload).2
    (totals_of_tradesLike hr hq hr' hload.stopFree (fun side p => ?_) (fun side o ho => ?_) hid h)
  · rw [hload.queue_ids]
    exact hr.queue_perm hq hperm side p
  · obtain ⟨hkind, -, -⟩ := hr.wf.maker side o ho
    obtain ⟨s, -, hcore⟩ := hr.filed.slot_of_mem (mem_queue.2 ⟨ho, rfl⟩)
    rcases (hb s o hcore nofun).kind with hstop | ⟨-, hpos⟩
    · rw [hkind] at hstop
      cases hstop
    · exact hpos

end Loaded

/-- **Priority after recovery.** Saving and loading a book reached without stop orders
returns, whatever the order in which the index enumerates its entries. The loaded book
keeps everyone's place and trades alike if the enumeration lists each level's orders in
queue order and the cached totals are the sums of what these want; and only if, as long
as one id is not in the index. -/
theorem stopFree_snapshotPriority [StackSlab A Order] {symbol : SymbolId} {tick : Price}
    {log : List Entry} (h : ReachesStopFree symbol tick log b)
    (hperm : entries.Perm b.idIndex.toList) (lastSeq : Seq) :
    ∃ snap b', saveSnapshot b entries lastSeq = .ok snap ∧
      (loadSnapshot snap : Outcome (OrderBook A × Seq)) = .ok (b', lastSeq) ∧
      (b.InQueueOrder entries ∧ b.TotalsExact → KeepsPriority b b' ∧ SameTrades b b') ∧
      ((∃ id : OrderId, b.idIndex[id]? = none) →
        KeepsPriority b b' ∧ SameTrades b b' → b.InQueueOrder entries ∧ b.TotalsExact) := by
  obtain ⟨q, -, ⟨σ, hr⟩, hq⟩ := reaches_refines h
  obtain ⟨snap, b', σ', q', hsave, hload, hr', hreload⟩ := hr.save_load hq hperm lastSeq
  have hpriority := keepsPriority_iff hr hq hperm hr' hreload
  refine ⟨snap, b', hsave, hload, fun ⟨horder, htotals⟩ => ?_, fun ⟨id, hid⟩ ⟨hkeeps, hsame⟩ => ?_⟩
  · have hlast := hreload.lastTrade.trans hr.lastTrade
    exact ⟨hpriority.2 horder,
      sameTrades_of_inQueueOrder hr hq hperm hr' hreload hlast horder htotals⟩
  · have hsound := reaches_sound (h.mono fun _ _ _ hstep => hstep.2)
    exact ⟨hpriority.1 hkeeps,
      totalsExact_of_tradesLike hr hq hperm hr' hreload hsound hid hsame.1⟩

/-- Two sells at one price. -/
def twoSells : List Sequenced :=
  [⟨1, 0, .new ⟨1, 0, .sell, .limit, .gtc, 100, 0, 5⟩⟩,
   ⟨2, 0, .new ⟨2, 0, .sell, .limit, .gtc, 100, 0, 5⟩⟩]

theorem stopFree_snapshotPriority_sample : ∃ (b b' : OrderBook (VecSlab Order)) (snap : Snapshot),
    b.idIndex.toList.map Prod.fst = [1, 2] ∧ saveSnapshot b b.idIndex.toList 2 = .ok snap ∧
      loadSnapshot snap = .ok (b', 2) ∧ (KeepsPriority b b' ∧ SameTrades b b' ↔
        b.InQueueOrder b.idIndex.toList ∧ b.TotalsExact) := by
  have hok : ∃ r, applyAll 9 (OrderBook.new 0 1 : OrderBook (VecSlab Order)) twoSells = .ok r ∧
      r.1.idIndex.toList.map Prod.fst = [1, 2] ∧ r.1.idIndex[(3 : OrderId)]? = none := by
    refine ⟨_, rfl, ?_⟩
    decide +kernel
  obtain ⟨⟨b, log⟩, hrun, hids, hfree⟩ := hok
  obtain ⟨snap, b', hsave, hload, hkept, hneeds⟩ :=
    stopFree_snapshotPriority (reachesStopFree_applyAll hrun (by decide)) (List.Perm.refl _) 2
  exact ⟨b, b', snap, hids, hsave, hload, hneeds ⟨3, hfree⟩, hkept⟩

/-- A level of two orders, as its links show it. -/
theorem hasQueue_pair {l : PriceLevel} {s t : Nat} {a c : OrderId} (hst : s ≠ t)
    (hlevel : b.level? side p = some l) (hhead : l.head = some s) (htail : l.tail = some t)
    (hs : (b.slot? s).map (fun o => (o.id, o.prev, o.next)) = some (a, none, some t))
    (ht : (b.slot? t).map (fun o => (o.id, o.prev, o.next)) = some (c, some s, none)) :
    b.HasQueue side p [a, c] := by
  obtain ⟨x, hx, hxl⟩ := Option.map_eq_some_iff.1 hs
  obtain ⟨y, hy, hyl⟩ := Option.map_eq_some_iff.1 ht
  simp only [Prod.mk.injEq] at hxl hyl
  have hlinks : ∀ {r o}, b.slot? r = some o → linksOf b.arena r = some (o.prev, o.next) :=
    fun h => congrArg (Option.map fun o : Order => (o.prev, o.next)) h
  refine ⟨l, [s, t], hlevel, ?_, .cons ⟨x, hx, hxl.1⟩ (.cons ⟨y, hy, hyl.1⟩ .nil)⟩
  rw [hhead, htail]
  refine ⟨⟨rfl, some t, ?_, rfl, none, ?_, rfl, rfl⟩, by simp [hst]⟩
  · rw [hlinks hx, hxl.2.1, hxl.2.2]
  · rw [hlinks hy, hyl.2.1, hyl.2.2]

/-- Two sells at one price, that with the greater id first. -/
def sellsFromTwo : List Sequenced :=
  [⟨1, 0, .new ⟨2, 0, .sell, .limit, .gtc, 100, 0, 5⟩⟩,
   ⟨2, 0, .new ⟨1, 0, .sell, .limit, .gtc, 100, 0, 5⟩⟩]

/-- The enumeration lists the later sell first, and the next buy trades with it. -/
theorem loaded_maker_differs : ∃ (b b' : OrderBook (VecSlab Order)) (log : List Entry)
    (entries : List (OrderId × Location)) (snap : Snapshot),
    ReachesStopFree 0 1 log b ∧ log.map Prod.fst = sellsFromTwo ∧
      entries.Perm b.idIndex.toList ∧ entries.map Prod.fst = [1, 2] ∧
      saveSnapshot b entries 2 = .ok snap ∧ loadSnapshot snap = .ok (b', 2) ∧
      ¬KeepsPriority b b' ∧ ¬SameTrades b b' := by
  have hok : ∃ r, applyAll 9 (OrderBook.new 0 1 : OrderBook (VecSlab Order)) sellsFromTwo = .ok r ∧
      ∃ snap, saveSnapshot r.1 r.1.idIndex.toList 2 = .ok snap ∧
      ∃ r' : OrderBook (VecSlab Order) × Seq, loadSnapshot snap = .ok r' ∧
      ∃ c, applyAll 9 r.1 [⟨3, 0, .new ⟨3, 0, .buy, .market, .gtc, 0, 0, 5⟩⟩] = .ok c ∧
      ∃ c', applyAll 9 r'.1 [⟨3, 0, .new ⟨3, 0, .buy, .market, .gtc, 0, 0, 5⟩⟩] = .ok c' ∧
        r.2.map Prod.fst = sellsFromTwo ∧ r.1.idIndex.toList.map Prod.fst = [1, 2] ∧
        r.1.level? .sell 100 = some ⟨some 0, some 1, 10, 2⟩ ∧
        (r.1.slot? 0).map (fun o => (o.id, o.prev, o.next)) = some (2, none, some 1) ∧
        (r.1.slot? 1).map (fun o => (o.id, o.prev, o.next)) = some (1, some 0, none) ∧
        c.2.map Prod.fst = c'.2.map Prod.fst ∧ trades c.2 ≠ trades c'.2 := by
    refine ⟨_, rfl, _, rfl, _, rfl, _, rfl, _, rfl, ?_⟩
    decide +kernel
  obtain ⟨⟨b, log⟩, hrun, snap, hsave, ⟨b₁, lastSeq⟩, hload, ⟨c, traded⟩, hc, ⟨c', traded'⟩, hc',
    hlog, hids, hlevel, hfirst, hsecond, hcmds, hdiffer⟩ := hok
  have hreach : ReachesStopFree 0 1 log b := reachesStopFree_applyAll hrun (by decide)
  have hperm := List.Perm.refl b.idIndex.toList
  obtain ⟨q, -, ⟨σ, hr⟩, hq⟩ := reaches_refines hreach
  obtain ⟨snap', b', σ', q', hsave', hload', hr', hreload⟩ := hr.save_load hq hperm 2
  cases hsave.symm.trans hsave'
  cases hload.symm.trans hload'
  refine ⟨b, b₁, log, _, snap, hreach, hlog, hperm, hids, hsave, hload, fun hkeeps => ?_,
    fun hsame => ?_⟩
  · have hqueue := hasQueue_pair (by decide) hlevel rfl rfl hfirst hsecond
    have hsub := (keepsPriority_iff hr hq hperm hr' hreload).1 hkeeps _ _ _ hqueue
    rw [hids] at hsub
    exact absurd hsub (by decide)
  · have hany : ∀ {b c : OrderBook (VecSlab Order)} {l : List Entry} {cmds},
        applyAll 9 b cmds = .ok (c, l) → Transition.Run ApplyStep b l c := fun h =>
      (run_applyAll (P := fun _ => True) h fun _ _ => trivial).mono fun _ _ _ h => h.2
    obtain ⟨traded'', c'', hc'', hcmds'', htrades⟩ := hsame.1 traded c (hany hc)
    obtain ⟨rfl, -⟩ := applyStep_unique (hany hc') hc'' (hcmds.symm.trans hcmds''.symm)
    exact hdiffer htrades.symm

end Exchange
