import Exchange.Verify.Recovery
import Exchange.Verify.RoundTrip

/-!
# Recovery from a snapshot and the log behind it

A snapshot stands for the commands it was taken after, the log for all of them up to the
crash. Loading the snapshot and replaying the log behind its `last_seq` leads to the book
after the last command that either of them kept.
-/

namespace Exchange

open PriorityBook Transition

variable {A : Type} [Slab A Order]

/-- Nothing that can be seen tells the books apart: they show the same depth and give the
same events for the same commands. -/
structure Interchangeable (b b' : OrderBook A) : Prop where
  depth : ∀ levels, b'.depth levels = b.depth levels
  runs : ∀ log, (∃ b₁, Run ApplyStep b log b₁) ↔ ∃ b₁', Run ApplyStep b' log b₁'

section Alike

variable [StackSlab A Order] {R : Nat → Nat → Prop} {b b' : OrderBook A}

theorem OrderBook.Alike.totalQty (h : b.Alike R b') (side : Side) (p : Price) :
    (b'.level? side p).map (·.totalQty) = (b.level? side p).map (·.totalQty) := by
  have hlevel := h.level side p
  generalize b.level? side p = l at hlevel
  generalize b'.level? side p = l' at hlevel
  cases hlevel with
  | none => rfl
  | some hl => exact congrArg some hl.totalQty

theorem OrderBook.Alike.depth (h : b.Alike R b') (levels : Nat) :
    b'.depth levels = b.depth levels := by
  have hlevels : ∀ side, (b'.levels side).toList.map (fun e => (e.1, e.2.totalQty)) =
      (b.levels side).toList.map fun e => (e.1, e.2.totalQty) := fun side =>
    OrderedMap.map_toList_eq_iff.2 (h.totalQty side)
  have hbids : b'.bids.toList.map (fun e => (e.1, e.2.totalQty)) =
      b.bids.toList.map fun e => (e.1, e.2.totalQty) := hlevels .buy
  have hasks : b'.asks.toList.map (fun e => (e.1, e.2.totalQty)) =
      b.asks.toList.map fun e => (e.1, e.2.totalQty) := hlevels .sell
  unfold OrderBook.depth
  rw [List.map_take, List.map_take, List.map_take, List.map_take, hbids, hasks, h.lastTrade]

theorem OrderBook.Alike.interchangeable (hR : Relator.BiUnique R) (h : b.Alike R b') :
    Interchangeable b b' := by
  refine ⟨h.depth, fun log => ⟨?_, ?_⟩⟩
  · rintro ⟨b₁, hrun⟩
    obtain ⟨b₁', hrun', -⟩ := h.run hR hrun
    exact ⟨b₁', hrun'⟩
  · rintro ⟨b₁', hrun'⟩
    obtain ⟨b₁, hrun, -⟩ := h.run_right hR hrun'
    exact ⟨b₁, hrun⟩

end Alike

/-- The records behind the snapshot among the first `j` of the log. -/
theorem above_take {json : Sequenced → Bytes} {done rest : List Entry} {last : Seq}
    (hdone : ∀ e ∈ done, e.1.seq ≤ last) (hrest : ∀ e ∈ rest, last < e.1.seq) (j : Nat) :
    above last (((done ++ rest).take j).map fun e => logRecord json e.1) =
      (rest.take (j - done.length)).map fun e => logRecord json e.1 := by
  rw [List.take_append, List.map_append, above_append]
  have hbefore : above last ((done.take j).map fun e => logRecord json e.1) = [] := by
    refine List.filter_eq_nil_iff.2 fun rec hrec => ?_
    obtain ⟨e, he, rfl⟩ := List.mem_map.1 hrec
    have hle : (logRecord json e.1).seq ≤ last := hdone e (List.mem_of_mem_take he)
    simpa using hle
  have hbehind : above last ((rest.take (j - done.length)).map fun e => logRecord json e.1) =
      (rest.take (j - done.length)).map fun e => logRecord json e.1 := by
    refine List.filter_eq_self.2 fun rec hrec => ?_
    obtain ⟨e, he, rfl⟩ := List.mem_map.1 hrec
    exact decide_eq_true (hrest e (List.mem_of_mem_take he))
  rw [hbefore, hbehind, List.nil_append]

variable [StackSlab A Order] {crc : Bytes → UInt32} {json : Sequenced → Bytes}
  {parse : Bytes → Option Sequenced} {symbol : SymbolId} {tick : Price} {b b₁ : OrderBook A}
  {done rest : List Entry} {entries : List (OrderId × Location)} {last : Seq}
  {dir dir' : Dir}

/-- **Snapshot and log.** A stop-free book is saved, in queue order and with exact totals,
with a `last_seq` that separates its commands from those that follow; then the session that
logs all of them crashes. Loading the snapshot and replaying the log behind `last_seq`
applies the `k` surviving commands that the snapshot does not have, none if the crash took
records from before it, and gives their events and a book that nothing tells apart from the
one after them. -/
theorem snapshot_recovers {se : Session} (h : ReachesStopFree symbol tick done b)
    (hperm : entries.Perm b.idIndex.toList) (horder : b.InQueueOrder entries)
    (htotals : b.TotalsExact) (hrest : Run ApplyStep b rest b₁)
    (hdone : ∀ e ∈ done, e.1.seq ≤ last) (hafter : ∀ e ∈ rest, last < e.1.seq)
    (hparse : ∀ e ∈ rest, parse (json e.1) = some e.1)
    (hse : se.appended = (done ++ rest).map fun e => logRecord json e.1)
    (hfits : ∀ rec ∈ se.appended, rec.Fits) (hdir : listSegments dir = [])
    (hrun : se.run crc dir = some dir') (hcount : (listSegments dir').length < 10 ^ 10) :
    ∃ snap b' k, saveSnapshot b entries last = .ok snap ∧
      (loadSnapshot snap : Outcome (OrderBook A × Seq)) = .ok (b', last) ∧
      (se.survivors crc).drop done.length = (rest.take k).map (fun e => logRecord json e.1) ∧
      ∃ b₂ b₂', Run ApplyStep b (rest.take k) b₂ ∧ Interchangeable b₂ b₂' ∧
        ∃ n, ∀ fuel, n ≤ fuel → ∃ last',
          replay crc last (recoverCommand parse fuel) dir' (.ok (b', [])) =
            .ok (last', .ok (b₂', (rest.take k).flatMap Prod.snd)) := by
  obtain ⟨q, -, ⟨σ, hr⟩, hq⟩ := reaches_refines h
  obtain ⟨snap, b', σ', q', hsave, hload, hr', hreload⟩ := hr.save_load hq hperm last
  have hR := hr.biUnique hr'
  have halike : b.Alike (SlotPairs b b' σ σ') b' := by
    refine hr.alike hq hr' hreload.stopFree (queue_same hr hq hperm hr' hreload horder) ?_ ?_
    · exact (totalsExact_iff hr hq hperm hreload).1 htotals
    · exact hreload.lastTrade.trans hr.lastTrade
  -- what the crash left of the log
  have hfront := se.isPrefix_survivors crc
  have hsurvivors : se.survivors crc =
      ((done ++ rest).take (se.survivors crc).length).map fun e => logRecord json e.1 := by
    rw [List.map_take, ← hse]
    exact List.prefix_iff_eq_take.1 hfront
  generalize hj : (se.survivors crc).length = j at hsurvivors
  have hbehind : above last (((done ++ rest).take j).map fun e => logRecord json e.1) = _ :=
    above_take hdone hafter j
  rw [← hsurvivors] at hbehind
  have hdrop : (se.survivors crc).drop done.length =
      (rest.take (j - done.length)).map fun e => logRecord json e.1 := by
    rw [hsurvivors, ← List.map_drop, List.drop_take, List.drop_left]
  -- the commands that are applied again
  have hsplit := hrest
  rw [← List.take_append_drop (j - done.length) rest] at hsplit
  obtain ⟨b₂, hrun₂, -⟩ := hsplit.split
  obtain ⟨b₂', hrun₂', halike₂⟩ := halike.run hR hrun₂
  obtain ⟨n, hn⟩ := run_recover json [] hrun₂' fun e he => hparse e (List.mem_of_mem_take he)
  refine ⟨snap, b', j - done.length, hsave, hload, hdrop, b₂, b₂', hrun₂,
    halike₂.interchangeable hR, n, fun fuel hfuel => ⟨lastSeq last (above last (se.survivors crc)),
      ?_⟩⟩
  obtain ⟨files, segs, hsegments, hheld, hrecs⟩ := Session.run_logHolds hfits
    ⟨[], [], segments_nil hdir, .nil, rfl⟩ hrun hcount
  rw [hsegments.length_listSegments] at hcount
  rw [List.flatten_nil, List.nil_append] at hrecs
  rw [replay_holds hsegments hcount hheld, ← hrecs, hbehind, hn fuel hfuel]
  rfl

/-! ### Two sells in the snapshot, and a buy of them in the log -/

def crossSession : Session :=
  ⟨.every 2, [restingSell 1, restingSell 2, marketBuy].map (logRecord crossJson), 1000⟩

omit [StackSlab A Order] in
/-- The orders of a single level, enumerated in its order. -/
theorem inQueueOrder_of_hasQueue (h : ReachesStopFree symbol tick done b) {side : Side}
    {p : Price} {ids : List OrderId} (hqueue : b.HasQueue side p ids)
    (hall : b.idIndex.toList.map Prod.fst = ids) : b.InQueueOrder b.idIndex.toList := by
  obtain ⟨q, -, ⟨σ, hr⟩, hq⟩ := reaches_refines h
  obtain ⟨-, rfl⟩ := hr.hasQueue_iff.1 hqueue
  intro side' p' ids hids
  obtain ⟨hne, rfl⟩ := hr.hasQueue_iff.1 hids
  -- any order of the other level is listed, so it is one of this level
  obtain ⟨o, ho⟩ := List.exists_mem_of_ne_nil _ hne
  obtain ⟨s, hs, hcore⟩ := hr.filed.slot_of_mem ho
  have hloc := hr.filed.index_eq hcore (hr.filed.not_hidden hs)
  have hlisted : o.id ∈ b.idIndex.toList.map Prod.fst :=
    List.mem_map_of_mem (f := Prod.fst) (OrderedMap.mem_toList_iff.2 hloc)
  rw [hall] at hlisted
  obtain ⟨o', ho', hid⟩ := List.mem_map.1 hlisted
  obtain ⟨hmaker, hprice⟩ := mem_queue.1 ho
  obtain ⟨hmaker', hprice'⟩ := mem_queue.1 ho'
  have hlive := hr.wf.live?_eq_some.2 ⟨⟨side', hmaker⟩, rfl⟩
  have hlive' := hr.wf.live?_eq_some.2 ⟨⟨side, hmaker'⟩, hid⟩
  obtain rfl := Option.some.inj (hlive.symm.trans hlive')
  obtain ⟨-, hside, -⟩ := hr.wf.maker side' o hmaker
  obtain ⟨-, hside', -⟩ := hr.wf.maker side o hmaker'
  rw [hall, ← hprice, ← hprice', ← hside, ← hside']

theorem snapshot_recovers_sample : ∃ (b b' b₂' : OrderBook (VecSlab Order)) (snap : Snapshot)
    (dir : Dir), b.HasQueue .sell 100 [1, 2] ∧
      saveSnapshot b b.idIndex.toList 2 = .ok snap ∧ loadSnapshot snap = .ok (b', 2) ∧
      crossSession.run crc32 ∅ = some dir ∧ b₂'.depth 1 = ⟨[], [(100, 3)], some 100⟩ ∧
      ∃ fuel last, replay crc32 2 (recoverCommand parseCross fuel) dir (.ok (b', [])) =
        .ok (last, .ok (b₂', crossEvents)) := by
  have hok : ∃ r, applyAll 9 (OrderBook.new 1 1 : OrderBook (VecSlab Order))
        [restingSell 1, restingSell 2] = .ok r ∧
      ∃ r', applyAll 9 r.1 [marketBuy] = .ok r' ∧
      stepsHold 9 (fun _ cmd b' => cmd.cmd.StopFree && b'.liveQty < 2 ^ 64)
        (OrderBook.new 1 1 : OrderBook (VecSlab Order)) [restingSell 1, restingSell 2] = true ∧
      r.1.idIndex.toList.map Prod.fst = [1, 2] ∧
      r.1.level? .sell 100 = some ⟨some 0, some 1, 10, 2⟩ ∧
      (r.1.slot? 0).map (fun o => (o.id, o.prev, o.next)) = some (1, none, some 1) ∧
      (r.1.slot? 1).map (fun o => (o.id, o.prev, o.next)) = some (2, some 0, none) ∧
      r.2.map Prod.fst = [restingSell 1, restingSell 2] ∧
      r'.2 = [(marketBuy, crossEvents)] ∧ r'.1.depth 1 = ⟨[], [(100, 3)], some 100⟩ := by
    refine ⟨_, rfl, _, rfl, ?_⟩
    decide +kernel
  obtain ⟨⟨b, done⟩, hrun, ⟨b₁, rest⟩, hrun₁, htest, hids, hlevel, hfirst, hsecond, hdone, hrest,
    hdepth₁⟩ := hok
  have hwithin : ReachesWithin 1 1 done b := reachesWithin_of_stepsHold hrun htest
  have hreach : ReachesStopFree 1 1 done b := reachesStopFree_applyAll hrun (by decide)
  have hqueue : b.HasQueue .sell 100 [1, 2] :=
    hasQueue_pair (by decide) hlevel rfl rfl hfirst hsecond
  obtain rfl : rest = _ := hrest
  have happly : Run ApplyStep b _ b₁ :=
    (run_applyAll (P := fun _ => True) hrun₁ fun _ _ => trivial).mono fun _ _ _ h => h.2
  have hruns : ((crossSession.run crc32 ∅).any
      fun dir => (listSegments dir).length < 10 ^ 10) = true := by decide +kernel
  obtain ⟨dir, hsession, hcount⟩ := (Option.any_eq_true _ _).1 hruns
  have hbefore : ∀ e ∈ done, e.1.seq ≤ 2 := by
    intro e he
    have hmem := List.mem_map_of_mem (f := Prod.fst) he
    rw [hdone] at hmem
    rcases List.mem_pair.1 hmem with h | h <;> rw [h] <;> decide
  have hlength : done.length = 2 := by simpa using congrArg List.length hdone
  have happended : crossSession.appended =
      (done ++ [(marketBuy, crossEvents)]).map fun e => logRecord crossJson e.1 := by
    have hmap : (done.map fun e => logRecord crossJson e.1) =
        (done.map Prod.fst).map (logRecord crossJson) := by simp
    rw [List.map_append, hmap, hdone]
    rfl
  have hafter : ∀ e ∈ [(marketBuy, crossEvents)], 2 < e.1.seq :=
    List.forall_mem_singleton.2 (by decide)
  have hparse : ∀ e ∈ [(marketBuy, crossEvents)], parseCross (crossJson e.1) = some e.1 :=
    List.forall_mem_singleton.2 (by decide +kernel)
  obtain ⟨snap, b', k, hsave, hload, hdrop, b₂, b₂', hrun₂, hsame, n, hn⟩ :=
    snapshot_recovers hreach (List.Perm.refl _) (inQueueOrder_of_hasQueue hreach hqueue hids)
      hwithin.totalsExact happly hbefore hafter hparse happended (by decide +kernel)
      (by decide +kernel) hsession (of_decide_eq_true hcount)
  have hsurvivors : (crossSession.survivors crc32).length = 3 := by decide +kernel
  have hk : k ≠ 0 := by
    rintro rfl
    have hlen := congrArg List.length hdrop
    rw [List.length_drop, hsurvivors, hlength] at hlen
    cases hlen
  rw [List.take_of_length_le (by rw [List.length_singleton]; omega)] at hrun₂ hn
  obtain ⟨last, hlast⟩ := hn n le_rfl
  have hend : b₂ = b₁ := (applyStep_unique hrun₂ happly rfl).2
  refine ⟨b, b', b₂', snap, dir, hqueue, hsave, hload, hsession, ?_, n, last, hlast⟩
  rw [hsame.depth, hend, hdepth₁]

end Exchange
