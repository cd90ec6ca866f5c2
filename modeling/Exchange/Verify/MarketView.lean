import Exchange.MarketData.SnapshotBuilder
import Exchange.Verify.Live

/-!
# The market-data view of a book

A builder that processes the events of a book's run keeps the view it started
with: no event carries a level, and none is applied. So it shows what the book
shows exactly as long as there is nothing to show, that is until a limit order
opens the first level.
-/

namespace Exchange

open Links PriorityBook

variable {A : Type} [Slab A Order] {b b' : OrderBook A} {symbol : SymbolId} {tick : Price}
  {log : List Entry} {d : Nat}

/-! ## The builder over a log -/

namespace SnapshotBuilder

/-- Process events in order, the first numbered `seq + 1`. -/
def processAll (v : SnapshotBuilder) (seq : Seq) :
    List OutputEvent → SnapshotBuilder × List MarketEvent
  | [] => (v, [])
  | e :: es =>
    let r := v.process e (seq + 1)
    let rest := r.1.processAll (seq + 1) es
    (rest.1, r.2 ++ rest.2)

@[simp] theorem processAll_fst (v : SnapshotBuilder) (seq : Seq) (es : List OutputEvent) :
    (v.processAll seq es).1 = v := by
  induction es generalizing seq with
  | nil => rfl
  | cons e es ih => simp [processAll, ih]

/-- A snapshot shows the view. -/
theorem process_snapshot {v : SnapshotBuilder} {e : OutputEvent} {seq n : Seq} {name : String}
    {bids asks : List (Float × Float)} (h : .snapshot name n bids asks ∈ (v.process e seq).2) :
    bids = (v.view v.depth).1.map dollarLevel ∧ asks = (v.view v.depth).2.map dollarLevel := by
  have hpublished : MarketEvent.snapshot name n bids asks ∈ v.publishSnapshot seq →
      bids = (v.view v.depth).1.map dollarLevel ∧ asks = (v.view v.depth).2.map dollarLevel := by
    intro h
    cases List.mem_singleton.1 h
    exact ⟨rfl, rfl⟩
  cases e with
  | trade => cases List.mem_singleton.1 h
  | filled => exact hpublished h
  | partiallyFilled => exact hpublished h
  | cancelled => exact hpublished h
  | _ => cases h

end SnapshotBuilder

/-- The view of depth `d` that a builder shows after the events of `log` is the
book's, and so is every snapshot published on the last event of the log. -/
structure ShowsBook (name : String) (symbol : SymbolId) (d : Nat) (log : List Entry)
    (b : OrderBook A) : Prop where
  view : ((SnapshotBuilder.new symbol name d).processAll 0 (log.flatMap (·.2))).1.view d =
    ((b.depth d).bids, (b.depth d).asks)
  snapshot : ∀ es e, log.flatMap (·.2) = es ++ [e] → ∀ seq name' n bids asks,
    .snapshot name' n bids asks ∈
      (((SnapshotBuilder.new symbol name d).processAll 0 es).1.process e seq).2 →
    bids = (b.depth d).bids.map dollarLevel ∧ asks = (b.depth d).asks.map dollarLevel

omit [Slab A Order] in
/-- A builder shows a book exactly when there is nothing to show. -/
theorem showsBook_iff {name : String} :
    ShowsBook name symbol d log b ↔ (b.depth d).bids = [] ∧ (b.depth d).asks = [] := by
  constructor
  · intro h
    have hview := h.view
    rw [SnapshotBuilder.processAll_fst, SnapshotBuilder.view_new] at hview
    exact ⟨(Prod.mk.inj hview).1.symm, (Prod.mk.inj hview).2.symm⟩
  · rintro ⟨hbids, hasks⟩
    refine ⟨?_, fun es e _ seq name' n bids asks hs => ?_⟩
    · rw [SnapshotBuilder.processAll_fst, SnapshotBuilder.view_new, hbids, hasks]
    · rw [SnapshotBuilder.processAll_fst] at hs
      have hshown := SnapshotBuilder.process_snapshot hs
      rw [SnapshotBuilder.view_new] at hshown
      rw [hbids, hasks]
      exact hshown

/-! ## Books without levels -/

theorem Refines.depth_eq {σ : Queues Nat} {q : PriorityBook} (hr : Refines b σ none q)
    (d : Nat) :
    (b.depth d).bids = (q.ladder .buy).take d ∧ (b.depth d).asks = (q.ladder .sell).take d := by
  rw [← hr.levels_eq, ← hr.levels_eq, ← List.map_take, ← List.map_take]
  exact ⟨rfl, rfl⟩

/-- A command that opens a level in an empty book: a `New` limit order that passes
the validation. -/
def Command.OpensLevel : Command → Prop
  | .new no => no.kind = .limit ∧ no.qty ≠ 0 ∧ 0 < no.price
  | _ => False

namespace PriorityBook

/-- Nothing rests. -/
def Bare (q : PriorityBook) : Prop := ∀ side, q.makers side = []

variable {q : PriorityBook}

theorem Bare.live? (hq : q.Bare) (id : OrderId) : q.live? id = none := by
  simp [PriorityBook.live?, hq .buy, hq .sell]

theorem Bare.reject? (hq : q.Bare) (no : NewOrder) :
    q.reject? no = if no.qty = 0 then some .zeroQty
      else if no.kind.needsPrice && no.price ≤ 0 then some .badPrice else none := by
  simp [PriorityBook.reject?, hq.live? no.id]

/-- With nothing to match, an order is settled unfilled. -/
theorem Bare.execute (hq : q.Bare) (no : NewOrder) (seq : Seq) (ts : Ts) :
    q.execute no seq ts = q.settle no 0 seq ts := by
  unfold PriorityBook.execute
  rw [hq no.side.opposite]
  rfl

theorem Bare.enter (hq : q.Bare) {no : NewOrder} (hno : ¬(Command.new no).OpensLevel)
    (seq : Seq) (ts : Ts) : (q.enter no seq ts).1 = q := by
  unfold PriorityBook.enter
  cases hreject : q.reject? no with
  | some reason => rfl
  | none =>
    dsimp only
    split
    · rfl
    · rw [hq.execute no seq ts]
      rw [hq.reject? no] at hreject
      have hqty : no.qty ≠ 0 := fun h => by simp [h] at hreject
      rw [if_neg hqty] at hreject
      unfold PriorityBook.settle
      rw [if_neg (by simpa using hqty), if_neg]
      intro hkind
      refine hno ⟨hkind, hqty, ?_⟩
      rw [hkind] at hreject
      by_contra hprice
      have hle : no.price ≤ 0 := Int64.not_lt.1 hprice
      simp [OrderType.needsPrice, hle] at hreject

/-- A command that opens no level leaves a bare book bare. -/
theorem Bare.apply (hq : q.Bare) {cmd : Sequenced} (hcmd : ¬cmd.cmd.OpensLevel) :
    (q.apply cmd).1.Bare := by
  rcases q.apply_cases cmd with ⟨no, hno, h⟩ | ⟨id, reason, -, h⟩ | ⟨id, symbol, o, -, hlive, -⟩ |
    ⟨id, newPrice, newQty, symbol, o, -, -, hlive, -⟩
  · rw [h, hq.enter (hno ▸ hcmd)]
    exact hq
  · rw [h]
    exact hq
  · rw [hq.live? id] at hlive
    cases hlive
  · rw [hq.live? id] at hlive
    cases hlive

/-- A valid limit order opens a level in a bare book. -/
theorem Bare.opens (hq : q.Bare) {cmd : Sequenced} (hcmd : cmd.cmd.OpensLevel) :
    ∃ side, (q.apply cmd).1.ladder side ≠ [] := by
  obtain ⟨seq, ts, cmd⟩ := cmd
  cases cmd with
  | new no =>
    obtain ⟨hkind, hqty, hprice⟩ := hcmd
    have hreject : q.reject? no = none := by
      have hle : ¬no.price ≤ 0 := Int64.not_le.2 hprice
      rw [hq.reject? no, if_neg hqty, if_neg (by simp [hle])]
    have henter : (q.enter no seq ts).1 = (q.settle no 0 seq ts).1 := by
      unfold PriorityBook.enter
      have hfok : ¬(no.kind = .fok ∧ q.available no.side no.price < no.qty) := fun h =>
        nomatch hkind.symm.trans h.1
      rw [hreject]
      dsimp only
      rw [if_neg hfok, hq.execute no seq ts]
    have hsettle : (q.settle no 0 seq ts).1 =
        q.rest { no.toOrder seq ts with remaining := no.qty - 0 } := by
      unfold PriorityBook.settle
      rw [if_neg (by simpa using hqty), if_pos hkind]
    refine ⟨no.side, ?_⟩
    change (q.enter no seq ts).1.ladder no.side ≠ []
    rw [henter, hsettle]
    have hside : (no.toOrder seq ts).side = no.side := rfl
    simp [PriorityBook.ladder, PriorityBook.rest, PriorityBook.put, hside, hq no.side,
      Priority.enqueue]
  | cancel => exact hcmd.elim
  | replace => exact hcmd.elim

theorem Bare.ladder (hq : q.Bare) (side : Side) : q.ladder side = [] := by
  simp [PriorityBook.ladder, hq side]

end PriorityBook

/-- A run of which no command opens a level leaves the book bare. -/
theorem run_bare {q₀ q : PriorityBook} (hq₀ : q₀.Bare)
    (h : Transition.Run PriorityStep q₀ log q) (hlog : ∀ e ∈ log, ¬e.1.cmd.OpensLevel) :
    q.Bare := by
  refine Transition.Run.invariant
    (I := fun log q => (∀ e ∈ log, ¬Command.OpensLevel e.1.cmd) → q.Bare) (fun _ => hq₀) ?_ h hlog
  intro log q e q' _ ih hstep hlog
  have hbare := (ih fun x hx => hlog x (List.mem_append_left _ hx)).apply
    (hlog e (List.mem_append_right _ List.mem_cons_self))
  rwa [hstep.2] at hbare

/-! ## The view over a run -/

/-- After every command of the log so far, the builder shows the book. -/
def FollowsBook (A : Type) [Slab A Order] (name : String) (symbol : SymbolId) (tick : Price)
    (d : Nat) (log : List Entry) : Prop :=
  ∀ pre post (b : OrderBook A), log = pre ++ post → ReachesStopFree symbol tick pre b →
    ShowsBook name symbol d pre b

/-- **The market-data view.** In a stop-free run the builder's view follows the book
exactly when it has depth zero or no command submits a valid limit order. -/
theorem stopFree_marketView (name : String) (h : ReachesStopFree symbol tick log b) :
    FollowsBook A name symbol tick d log ↔ d = 0 ∨ ∀ e ∈ log, ¬e.1.cmd.OpensLevel := by
  constructor
  · intro hfollows
    refine (Nat.eq_zero_or_pos d).imp_right fun hd => ?_
    refine Transition.Run.invariant (I := fun log _ => FollowsBook A name symbol tick d log →
      ∀ e ∈ log, ¬Command.OpensLevel e.1.cmd) (fun _ e he => by cases he) ?_ h hfollows
    intro log b e b' hrun ih hstep hfollows
    have hlog := ih fun pre post b hpre => hfollows pre (post ++ [e]) b (by simp [hpre])
    intro x hx
    rcases List.mem_append.1 hx with hx | hx
    · exact hlog x hx
    · cases List.mem_singleton.1 hx
      intro hopens
      obtain ⟨q, hq, ⟨σ, hr⟩, hfree⟩ := reaches_refines hrun
      obtain ⟨b'', σ', happ, hr', -⟩ := apply_refines hr hfree hstep.1
      obtain ⟨rfl, -⟩ := Applies.unique hstep.2 happ
      obtain ⟨side, hside⟩ := (run_bare (fun _ => rfl) hq hlog).opens hopens
      obtain ⟨hbids, hasks⟩ := showsBook_iff.1
        (hfollows _ [] b' (List.append_nil _).symm (hrun.snoc hstep))
      obtain ⟨hbuy, hsell⟩ := hr'.depth_eq d
      have htake : ((q.apply e.1).1.ladder side).take d = [] := by
        cases side
        · rw [← hbuy, hbids]
        · rw [← hsell, hasks]
      rcases List.take_eq_nil_iff.1 htake with h0 | hnil
      · omega
      · exact hside hnil
  · intro hcond pre post b' hlog hrun
    obtain ⟨q, hq, ⟨σ, hr⟩, -⟩ := reaches_refines hrun
    obtain ⟨hbids, hasks⟩ := hr.depth_eq d
    rw [showsBook_iff, hbids, hasks]
    rcases hcond with rfl | hnone
    · exact ⟨List.take_zero, List.take_zero⟩
    · have hbare := run_bare (fun _ => rfl) hq fun e he =>
        hnone e (hlog ▸ List.mem_append_left _ he)
      rw [hbare.ladder, hbare.ladder]
      exact ⟨List.take_nil, List.take_nil⟩

/-- A market order that finds nothing, and a bid that a view of depth zero need not show. -/
theorem stopFree_marketView_sample : ∃ (b b' : OrderBook (VecSlab Order)) (log log' : List Entry),
    ReachesStopFree 0 1 log b ∧ log.map (·.2) = [[.accepted 1 1, .cancelled 1 1]] ∧
      FollowsBook (VecSlab Order) "AAPL" 0 1 20 log ∧
      ReachesStopFree 0 1 log' b' ∧ b'.depth 1 = ⟨[(100, 5)], [], none⟩ ∧
      FollowsBook (VecSlab Order) "AAPL" 0 1 0 log' := by
  have hok : ∃ r, applyAll 9 (OrderBook.new 0 1 : OrderBook (VecSlab Order))
      [⟨1, 0, .new ⟨1, 0, .buy, .market, .gtc, 0, 0, 5⟩⟩] = .ok r ∧
      r.2 = [(⟨1, 0, .new ⟨1, 0, .buy, .market, .gtc, 0, 0, 5⟩⟩,
        [.accepted 1 1, .cancelled 1 1])] := by
    refine ⟨_, rfl, ?_⟩
    decide +kernel
  have hok' : ∃ r, applyAll 9 (OrderBook.new 0 1 : OrderBook (VecSlab Order))
      [⟨1, 0, .new ⟨1, 0, .buy, .limit, .gtc, 100, 0, 5⟩⟩] = .ok r ∧
      r.1.depth 1 = ⟨[(100, 5)], [], none⟩ := by
    refine ⟨_, rfl, ?_⟩
    decide +kernel
  obtain ⟨⟨b, log⟩, hrun, hlog⟩ := hok
  obtain ⟨⟨b', log'⟩, hrun', hdepth⟩ := hok'
  obtain rfl : log = _ := hlog
  have hreach := reachesStopFree_applyAll hrun (by decide)
  have hreach' := reachesStopFree_applyAll hrun' (by decide)
  have hfollows := (stopFree_marketView (d := 20) "AAPL" hreach).2 (.inr fun e he => by
    cases List.mem_singleton.1 he
    rintro ⟨⟨⟩, -⟩)
  exact ⟨b, b', _, log', hreach, rfl, hfollows, hreach', hdepth,
    (stopFree_marketView "AAPL" hreach').2 (.inl rfl)⟩

/-- One bid rests and the view stays empty. -/
theorem bid_not_shown : ∃ (b : OrderBook (VecSlab Order)) (log : List Entry),
    ReachesStopFree 0 1 log b ∧
      log.map Prod.fst = [⟨1, 0, .new ⟨1, 0, .buy, .limit, .gtc, 100, 0, 5⟩⟩] ∧
      b.depth 1 = ⟨[(100, 5)], [], none⟩ ∧
      ((SnapshotBuilder.new 0 "AAPL" 1).processAll 0 (log.flatMap (·.2))).1.view 1 = ([], []) ∧
      ¬FollowsBook (VecSlab Order) "AAPL" 0 1 1 log := by
  have hok : ∃ r, applyAll 9 (OrderBook.new 0 1 : OrderBook (VecSlab Order))
      [⟨1, 0, .new ⟨1, 0, .buy, .limit, .gtc, 100, 0, 5⟩⟩] = .ok r ∧
      r.2.map Prod.fst = [⟨1, 0, .new ⟨1, 0, .buy, .limit, .gtc, 100, 0, 5⟩⟩] ∧
      r.1.depth 1 = ⟨[(100, 5)], [], none⟩ := by
    refine ⟨_, rfl, ?_⟩
    decide +kernel
  obtain ⟨⟨b, log⟩, hrun, hlog, hdepth⟩ := hok
  have hreach := reachesStopFree_applyAll hrun (by decide)
  refine ⟨b, log, hreach, hlog, hdepth, by simp, fun hfollows => ?_⟩
  have hshown := showsBook_iff.1 (hfollows log [] b (List.append_nil _).symm hreach)
  rw [hdepth] at hshown
  cases hshown.1

end Exchange
