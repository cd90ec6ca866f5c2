import Exchange.Gateway.Router
import Exchange.Verify.Live
import Exchange.Verify.Publication

/-!
# Symbols that share an id

A symbol is known to the engine by the 32-bit hash of its name, and nothing between the
gateway and a book compares names. A message for a symbol that is not configured reaches
a book exactly when its symbol has the id of one that is. Such a message then changes the
book in some state, unless it is one that every book refuses.
-/

namespace Exchange

open Transition PriorityBook

variable {A : Type} [Slab A Order]

/-! ## Some state is changed -/

/-- A command that a book refuses whatever its state: nothing to trade, or no price where
one is needed. -/
def Command.Refused : Command → Prop
  | .new no => no.qty = 0 ∨ no.kind.needsPrice = true ∧ no.price ≤ 0
  | .cancel _ _ => False
  | .replace _ _ newQty _ => newQty = 0

/-- A refused command leaves every book alone. -/
theorem Applies.of_refused {b b' : OrderBook A} {cmd : Sequenced} {events : List OutputEvent}
    (h : Applies b cmd b' events) (hrefused : cmd.cmd.Refused) : b' = b := by
  obtain ⟨fuel, h⟩ := h
  obtain ⟨seq, ts, cmd⟩ := cmd
  cases cmd with
  | new no =>
    have hinvalid : validate b no ≠ none := by
      unfold validate
      rcases hrefused with hqty | ⟨hneeds, hprice⟩
      · simp [hqty]
      · simp only [hneeds, hprice, decide_true, Bool.and_true, if_true]
        split
        · exact Option.some_ne_none _
        · split
          · exact Option.some_ne_none _
          · exact Option.some_ne_none _
    cases fuel with
    | zero => cases h
    | succ fuel =>
      have h : applyNew seq ts (fuel + 1) b no = .ok (b', events) := h
      cases applyNew_cases h with
      | refused _ => rfl
      | held hvalid _ => exact absurd hvalid hinvalid
      | killed hvalid _ _ => exact absurd hvalid hinvalid
      | untraded hvalid _ _ _ _ => exact absurd hvalid hinvalid
      | traded hvalid _ _ _ _ _ => exact absurd hvalid hinvalid
  | cancel id symbol => exact hrefused.elim
  | replace id newPrice newQty symbol =>
    have hzero : newQty = 0 := hrefused
    have h : applyReplace fuel b id newPrice newQty seq ts = .ok (b', events) := h
    simp only [applyReplace, hzero, if_true] at h
    cases h
    rfl

namespace PriorityBook

variable {q : PriorityBook} {no : NewOrder} {seq : Seq} {ts : Ts}

/-- A limit order that meets no maker comes to rest. -/
theorem enter_unmatched (hreject : q.reject? no = none) (hkind : no.kind = .limit)
    (hnone : q.makers no.side.opposite = []) :
    (q.enter no seq ts).1 = q.rest (no.toOrder seq ts) := by
  have hqty := qty_of_reject?_none hreject
  unfold PriorityBook.enter execute settle
  rw [hreject]
  simp only [hkind, hnone, fills, tradeAll_nil, taken_nil, UInt64.sub_zero, hqty, if_true, if_false,
    reduceCtorEq, false_and]
  rfl

/-- Trades leave a last price. -/
theorem lastTrade_tradeAll {side : Side} {fs : List (Order × Qty)} (h : fs ≠ []) :
    (q.tradeAll side fs).lastTrade ≠ none := by
  induction fs generalizing q with
  | nil => exact absurd rfl h
  | cons f fs ih =>
    rw [tradeAll_cons]
    cases fs with
    | nil =>
      rw [tradeAll_nil, trade]
      dsimp only
      split <;> exact Option.some_ne_none _
    | cons f' fs => exact ih (List.cons_ne_nil _ _)

theorem lastTrade_settle (filled : Qty) :
    (q.settle no filled seq ts).1.lastTrade = q.lastTrade := by
  unfold settle
  dsimp only
  split
  · rfl
  · split <;> rfl

/-- The book of a single order. -/
def single (symbol : SymbolId) (tick : Price) (o : Order) : PriorityBook :=
  (PriorityBook.new symbol tick).rest o

section Single

variable {symbol : SymbolId} {tick : Price} {o : Order}

theorem wf_single (hkind : o.kind = .limit) (hrem : o.remaining ≠ 0) :
    (single symbol tick o).WF :=
  (WF.new symbol tick).rest hkind hrem (fun _ hy => nomatch hy) fun _ _ hx => nomatch hx

theorem makers_single_self : (single symbol tick o).makers o.side = [o] := makers_put_self

theorem makers_single_opposite : (single symbol tick o).makers o.side.opposite = [] :=
  makers_put_of_ne (Side.opposite_ne o.side)

theorem tally_single : (single symbol tick o).tally o.side o.price = ⟨o.remaining, 1⟩ := by
  rw [single, tally_rest (WF.new symbol tick)]
  simp [PriorityBook.new, Tally.join, Tally.none]

theorem live?_single (id : OrderId) :
    (single symbol tick o).live? id = if o.id = id then some o else none := by
  have hself := @makers_single_self symbol tick o
  have hopposite := @makers_single_opposite symbol tick o
  have hmakers : (single symbol tick o).makers .buy ++ (single symbol tick o).makers .sell =
      [o] := by
    cases hside : o.side with
    | buy =>
      rw [hside] at hself hopposite
      rw [hself, show (single symbol tick o).makers .sell = [] from hopposite]
      rfl
    | sell =>
      rw [hside] at hself hopposite
      rw [hself, show (single symbol tick o).makers .buy = [] from hopposite]
      rfl
  rw [live?, hmakers, List.find?_singleton]
  simp

theorem available_single {side : Side} (hside : o.side = side.opposite) {limit : Price}
    (hlimit : side.withinLimit limit o.price = true) :
    (single symbol tick o).available side limit = (0 : Qty).satAdd o.remaining := by
  have hladder : (single symbol tick o).ladder side.opposite = [(o.price, o.remaining)] := by
    rw [ladder, ← hside, makers_single_self]
    simp [tally_single]
  rw [available, hladder]
  simp [hlimit]

/-- A taker that accepts the only maker trades. -/
theorem lastTrade_enter_single (hreject : (single symbol tick o).reject? no = none)
    (hside : o.side = no.side.opposite) (haccepts : no.accepts o.price = true)
    (hfok : no.kind = .fok →
      no.side.withinLimit no.price o.price = true ∧ no.qty ≤ (0 : Qty).satAdd o.remaining) :
    ((single symbol tick o).enter no seq ts).1.lastTrade ≠ none := by
  have hlive : ¬(no.kind = .fok ∧ (single symbol tick o).available no.side no.price < no.qty) := by
    rintro ⟨hkind, hlt⟩
    obtain ⟨hlimit, hle⟩ := hfok hkind
    rw [available_single hside hlimit] at hlt
    rw [UInt64.lt_iff_toNat_lt] at hlt
    rw [UInt64.le_iff_toNat_le] at hle
    omega
  unfold PriorityBook.enter execute
  rw [hreject]
  dsimp only
  rw [if_neg hlive]
  dsimp only
  rw [lastTrade_settle]
  refine lastTrade_tradeAll ?_
  rw [← hside, makers_single_self, fills_of_go (qty_of_reject?_none hreject) haccepts]
  exact List.cons_ne_nil _ _

end Single

end PriorityBook

section Changes

variable (symbol : SymbolId) (tick : Price)

/-- The first order of a book. -/
theorem refines_single {no : NewOrder} (hkind : no.kind = .limit) (hqty : no.qty ≠ 0)
    (hprice : 0 < no.price) :
    ∃ (b : OrderBook A) (σ : Queues Nat) (events : List OutputEvent),
      Applies (OrderBook.new symbol tick) ⟨1, 0, .new no⟩ b events ∧
        Refines b σ none (single symbol tick (no.toOrder 1 0)) ∧
        (single symbol tick (no.toOrder 1 0)).StopFree := by
  have hcmd : Command.StopFree (.new no) := by
    change no.kind.isStop = false
    rw [hkind]
    rfl
  have hreject : (PriorityBook.new symbol tick).reject? no = none := by
    simp [reject?, hqty, PriorityBook.new, live?, hprice]
  obtain ⟨b, σ, happ, hr, hfree⟩ := apply_refines (A := A) (Refines.new symbol tick)
    ⟨fun _ => rfl, rfl, rfl⟩ (show (⟨1, 0, .new no⟩ : Sequenced).cmd.StopFree from hcmd)
  have hq : ((PriorityBook.new symbol tick).apply ⟨1, 0, .new no⟩).1 =
      single symbol tick (no.toOrder 1 0) := enter_unmatched hreject hkind rfl
  rw [hq] at hr hfree
  exact ⟨b, σ, _, happ, hr, hfree⟩

/-- A price that every positive limit of the other side reaches. -/
def Side.reachablePrice : Side → Price
  | .buy => Int64.maxValue
  | .sell => 1

theorem reachablePrice_pos (side : Side) : 0 < side.reachablePrice := by
  cases side <;> decide

theorem withinLimit_reachablePrice (side : Side) {limit : Price} (h : 0 < limit) :
    side.withinLimit limit side.opposite.reachablePrice = true := by
  cases side with
  | buy =>
    change decide ((1 : Price) ≤ limit) = true
    rw [Int64.lt_iff_toInt_lt] at h
    rw [decide_eq_true_eq, Int64.le_iff_toInt_le]
    exact h
  | sell =>
    change decide (Int64.maxValue ≥ limit) = true
    rw [decide_eq_true_eq, ge_iff_le, Int64.le_iff_toInt_le]
    exact Int64.toInt_le limit

/-- The command changes the book that its symbol's first order makes. -/
def Command.Changes (A : Type) [Slab A Order] (symbol : SymbolId) (tick : Price) (cmd : Command) :
    Prop :=
  ∃ (first : NewOrder) (b b' : OrderBook A) (events events' : List OutputEvent),
    first.symbol = symbol ∧ Applies (OrderBook.new symbol tick) ⟨1, 0, .new first⟩ b events ∧
      Applies b ⟨2, 0, cmd⟩ b' events' ∧ b' ≠ b

theorem Refines.index_price {b : OrderBook A} {σ : Queues Nat} {q : PriorityBook}
    (hr : Refines b σ none q) (hfree : q.StopFree) (id : OrderId) :
    (b.idIndex[id]?).map (·.price) = (q.live? id).map (·.price) := by
  cases hlive : q.live? id with
  | none => rw [(hr.index_none_iff hfree.held).2 hlive]; rfl
  | some o =>
    obtain ⟨s, hidx, -⟩ := hr.locate hlive
    rw [hidx]
    rfl

variable {symbol tick}

/-- A change that the index or the last price shows. -/
theorem changes_of_single (first : NewOrder) {cmd : Command} (hkind : first.kind = .limit)
    (hqty : first.qty ≠ 0) (hprice : 0 < first.price) (hsymbol : first.symbol = symbol)
    (hcmd : cmd.StopFree) {q' : PriorityBook}
    (happly : ((single symbol tick (first.toOrder 1 0)).apply ⟨2, 0, cmd⟩).1 = q')
    (hchange : q'.lastTrade ≠ none ∨ ∃ id, (q'.live? id).map (·.price) ≠
      ((single symbol tick (first.toOrder 1 0)).live? id).map (·.price)) :
    cmd.Changes A symbol tick := by
  obtain ⟨b, σ, events, happ, hr, hfree⟩ :=
    refines_single (A := A) symbol tick hkind hqty hprice
  obtain ⟨b', σ', happ', hr', hfree'⟩ :=
    apply_refines hr hfree (show (⟨2, 0, cmd⟩ : Sequenced).cmd.StopFree from hcmd)
  rw [happly] at hr' hfree'
  refine ⟨first, b, b', events, _, hsymbol, happ, happ', ?_⟩
  rintro rfl
  rcases hchange with hlast | ⟨id, hid⟩
  · exact hlast (hr'.lastTrade.symm.trans hr.lastTrade)
  · exact hid ((hr'.index_price hfree' id).symm.trans (hr.index_price hfree id))

/-- A bid of one. -/
def bidOfOne (id : OrderId) (symbol : SymbolId) (price : Price) : NewOrder :=
  ⟨id, symbol, .buy, .limit, .gtc, price, 0, 1⟩

theorem changes_cancel (id : OrderId) (symbol' : SymbolId) :
    (Command.cancel id symbol').Changes A symbol tick := by
  refine changes_of_single (bidOfOne id symbol 1) rfl (by simp [bidOfOne])
    (show (0 : Price) < 1 by decide) rfl trivial rfl (.inr ⟨id, ?_⟩)
  have hwf : (single symbol tick ((bidOfOne id symbol 1).toOrder 1 0)).WF :=
    wf_single rfl (by simp [bidOfOne, NewOrder.toOrder, Order.new])
  have hlive : (single symbol tick ((bidOfOne id symbol 1).toOrder 1 0)).live? id =
      some ((bidOfOne id symbol 1).toOrder 1 0) := by
    rw [live?_single]
    exact if_pos rfl
  obtain ⟨⟨side, ho⟩, -⟩ := hwf.live?_eq_some.1 hlive
  have hgone : PriorityBook.live? _ id = none := live?_drop_self hwf ho
  simp only [PriorityBook.apply, hlive, hgone]
  simp

/-- A replacement takes the order from its price. -/
theorem changes_replace (id : OrderId) (newPrice : Price) {newQty : Qty} (hqty : newQty ≠ 0)
    (symbol' : SymbolId) :
    (Command.replace id newPrice newQty symbol').Changes A symbol tick := by
  obtain ⟨price, hpos, hne⟩ : ∃ price : Price, 0 < price ∧ price ≠ newPrice := by
    by_cases h : newPrice = 1
    · exact ⟨2, by decide, by rw [h]; decide⟩
    · exact ⟨1, by decide, Ne.symm h⟩
  refine changes_of_single (bidOfOne id symbol price) rfl (by simp [bidOfOne]) hpos rfl
    trivial rfl (.inr ⟨id, ?_⟩)
  generalize ho : (bidOfOne id symbol price).toOrder 1 0 = o
  have hid : o.id = id := by rw [← ho]; rfl
  have hprice : o.price = price := by rw [← ho]; rfl
  have hlimit : o.kind = .limit := by rw [← ho]; rfl
  have hwf : (single symbol tick o).WF :=
    wf_single hlimit (by simp [← ho, bidOfOne, NewOrder.toOrder, Order.new])
  have hlive : (single symbol tick o).live? id = some o := by rw [live?_single, if_pos hid]
  obtain ⟨⟨side, hmem⟩, -⟩ := hwf.live?_eq_some.1 hlive
  have hgone := live?_drop_self hwf hmem
  rw [hid] at hgone
  have hmakers : ((single symbol tick o).drop o).makers o.side.opposite = [] :=
    (makers_put_of_ne (Side.opposite_ne o.side)).trans makers_single_opposite
  simp only [PriorityBook.apply, hqty, if_false, hlive, Option.map_some]
  cases hreject : ((single symbol tick o).drop o).reject? (o.replacement id newPrice newQty) with
  | some reason =>
    rw [PriorityBook.enter, hreject]
    simp [hgone]
  | none =>
    have hwf' := (hwf.drop hmem).enter (o.replacement id newPrice newQty) 2 0
    rw [enter_unmatched hreject hlimit hmakers] at hwf' ⊢
    have hnew := live?_rest_self hwf'
    rw [show ((o.replacement id newPrice newQty).toOrder 2 0).id = id from rfl] at hnew
    rw [hnew, hprice, Option.map_some]
    exact fun h => hne (Option.some.inj h).symm

/-- An order that rests everything that another one may ask for. -/
def makerFor (no : NewOrder) (symbol : SymbolId) : NewOrder :=
  ⟨no.id + 1, symbol, no.side.opposite, .limit, .gtc, no.side.opposite.reachablePrice, 0,
    18446744073709551615⟩

theorem makerFor_id_ne (no : NewOrder) (symbol : SymbolId) : (makerFor no symbol).id ≠ no.id := by
  intro h
  have h : no.id + 1 = no.id := h
  have hnat := congrArg UInt64.toNat h
  have hlt := no.id.toNat_lt
  rw [UInt64.toNat_add, UInt64.toNat_one] at hnat
  omega

/-- An order that is not refused trades with its maker or is held. -/
theorem changes_new {no : NewOrder} (hrefused : ¬(Command.new no).Refused) :
    (Command.new no).Changes A symbol tick := by
  obtain ⟨hqty, hneeds⟩ := not_or.1 hrefused
  have hlive : (single symbol tick ((makerFor no symbol).toOrder 1 0)).live? no.id = none := by
    rw [live?_single]
    exact if_neg (makerFor_id_ne no symbol)
  have hreject : (single symbol tick ((makerFor no symbol).toOrder 1 0)).reject? no = none := by
    simp only [reject?, hqty, hlive, if_false]
    simpa using hneeds
  have hmaker : (makerFor no symbol).qty ≠ 0 := by
    change (18446744073709551615 : Qty) ≠ 0
    decide
  cases hstop : no.kind.isStop with
  | true =>
    obtain ⟨b, σ, events, happ, hr, hfree⟩ := refines_single (A := A) symbol tick
      (show (makerFor no symbol).kind = .limit from rfl) hmaker (reachablePrice_pos _)
    refine ⟨_, b, holdStop b no 2 0, events, [.accepted no.id 2], rfl, happ, ⟨1, ?_⟩, fun h => ?_⟩
    · have hvalid : validate b no = none := by rw [hr.validate_eq hfree.held, hreject]
      simp only [applyWithin, applyNew, hvalid, hstop, if_true]
      rfl
    · have hnone := (hr.index_none_iff hfree.held).2 hlive
      have hindex : (holdStop b no 2 0).idIndex =
          b.idIndex.insert no.id ⟨no.stopPrice, no.side, Slab.vacantKey b.arena⟩ := rfl
      rw [← h, hindex] at hnone
      simp at hnone
  | false =>
    have hwithin (h : no.kind.needsPrice = true) :
        no.side.withinLimit no.price no.side.opposite.reachablePrice = true :=
      withinLimit_reachablePrice no.side (Int64.not_le.1 fun hle => hneeds ⟨h, hle⟩)
    refine changes_of_single (makerFor no symbol) rfl hmaker (reachablePrice_pos _) rfl hstop rfl
      (.inl (lastTrade_enter_single hreject rfl ?_ fun hkind => ⟨?_, ?_⟩))
    · unfold NewOrder.accepts
      cases hkind : no.kind with
      | limit => exact Bool.or_eq_true_iff.2 (.inr (hwithin (by rw [hkind]; rfl)))
      | market | ioc | fok => rfl
      | stopMarket | stopLimit =>
        rw [hkind] at hstop
        cases hstop
    · exact hwithin (by rw [hkind]; rfl)
    · change no.qty ≤ (0 : Qty).satAdd 18446744073709551615
      rw [UInt64.le_iff_toNat_le, toNat_satAdd]
      have hlt := no.qty.toNat_lt
      simp
      omega

/-- A command that is not refused changes the book in some state. -/
theorem changes_of_not_refused (symbol : SymbolId) (tick : Price) {cmd : Command}
    (h : ¬cmd.Refused) : cmd.Changes A symbol tick := by
  cases cmd with
  | new no => exact changes_new h
  | cancel id symbol' => exact changes_cancel id symbol'
  | replace id newPrice newQty symbol' => exact changes_replace id newPrice h symbol'

end Changes

/-! ## Messages -/

/-- A message that every book refuses. -/
def JsonInbound.Refused : JsonInbound → Prop
  | .new no => no.qty = 0 ∨ no.toNewOrder.kind.needsPrice = true ∧ dollarsToTicks no.price ≤ 0
  | .cancel _ => False
  | .replace r => r.newQty = 0

/-- The command of a message is for the id of its symbol, and is refused with it. -/
theorem jsonToCommand_eq (msg : JsonInbound) : ∃ cmd, jsonToCommand msg = some cmd ∧
    cmd.symbol = symbolToId msg.symbol ∧ (cmd.Refused ↔ msg.Refused) := by
  cases msg with
  | new no => exact ⟨_, rfl, rfl, Iff.rfl⟩
  | cancel c => exact ⟨_, rfl, rfl, Iff.rfl⟩
  | replace r => exact ⟨_, rfl, rfl, Iff.rfl⟩

/-- Whatever the engine has done so far, handling the message changes no book. -/
def LeavesBooks (A : Type) [Slab A Order] (names : List String) (numShards : Nat)
    (msg : JsonInbound) : Prop :=
  ∀ (turns : List ShardTurn) (ss ss' : Shards A) (cmd : Command) (seq : Seq) (ts : Ts)
    (appended : Bool) (events : List OutputEvent),
    Run (ShardsStep numShards) (Shards.start (gatewaySymbols names) numShards) turns ss →
      jsonToCommand msg = some cmd →
        ShardsStep numShards ss ⟨⟨seq, ts, cmd⟩, appended, events⟩ ss' →
          ∀ (i : Nat) (symbol : SymbolId), (ss' i).books[symbol]? = (ss i).books[symbol]?

/-- The shard and the key of the book that a name's messages reach. -/
def bookOf (numShards : Nat) (name : String) : Nat × SymbolId :=
  (shardFor (symbolToId name) numShards, symbolToId name)

/-- Every configured name has a book, and no other one has the same. -/
def OwnBooks (A : Type) [Slab A Order] (names : List String) (numShards : Nat) : Prop :=
  (∀ name ∈ names, (((Shards.start (gatewaySymbols names) numShards : Shards A)
      (bookOf numShards name).1).books[(bookOf numShards name).2]?).isSome = true) ∧
    ∀ name ∈ names, ∀ name' ∈ names, name ≠ name' → bookOf numShards name ≠ bookOf numShards name'

section Engine

variable {names : List String} {numShards : Nat} {msg : JsonInbound}

theorem gatewaySymbols_ids : (gatewaySymbols names).map Prod.fst = names.map symbolToId := by
  rw [gatewaySymbols, List.map_map]
  rfl

/-- The book of a configured id when the engine starts. -/
theorem start_book {symbol : SymbolId} (h : symbol ∈ names.map symbolToId) :
    ((Shards.start (gatewaySymbols names) numShards : Shards A)
      (shardFor symbol numShards)).books[symbol]? = some (OrderBook.new symbol 1) := by
  have hmem : symbol ∈ (shardSymbols (gatewaySymbols names) numShards
      (shardFor symbol numShards)).map Prod.fst := by
    obtain ⟨name, hname, rfl⟩ := List.mem_map.1 h
    exact List.mem_map.2 ⟨(symbolToId name, 1), List.mem_filter.2
      ⟨List.mem_map_of_mem hname, decide_eq_true rfl⟩, rfl⟩
  obtain ⟨book, hbook⟩ := Option.isSome_iff_exists.1 ((isSome_startBooks (A := A)).2 hmem)
  obtain ⟨⟨symbol', tick⟩, he, heq⟩ := List.mem_map.1 (OrderedMap.mem_of_collect hbook)
  obtain ⟨rfl, rfl⟩ := Prod.mk.inj heq
  obtain ⟨name, -, hname⟩ := List.mem_map.1 (List.mem_filter.1 he).1
  obtain ⟨-, rfl⟩ := Prod.mk.inj hname
  exact hbook

/-- A turn of the shard of a symbol whose book the command changes. -/
theorem shardsStep_of_applies (numShards : Nat) {ss : Shards A} (cmd : Sequenced)
    {b b' : OrderBook A} {events : List OutputEvent}
    (hbook : (ss (shardFor cmd.cmd.symbol numShards)).books[cmd.cmd.symbol]? = some b)
    (happ : Applies b cmd b' events) : ∃ ss', ShardsStep numShards ss ⟨cmd, true, events⟩ ss' ∧
      (ss' (shardFor cmd.cmd.symbol numShards)).books[cmd.cmd.symbol]? = some b' := by
  refine ⟨_, ⟨⟨(ss (shardFor cmd.cmd.symbol numShards)).books.insert cmd.cmd.symbol b', _⟩,
    ⟨rfl, handles_iff.2 (.inr ⟨b, b', hbook, happ, rfl⟩)⟩, rfl⟩, ?_⟩
  rw [Function.update_self]
  exact (OrderedMap.getElem?_insert _ _ _ _).trans (if_pos rfl)

/-- A message of a configured id that is not refused changes a book in some state. -/
theorem not_leavesBooks (hid : symbolToId msg.symbol ∈ names.map symbolToId)
    (hrefused : ¬msg.Refused) : ¬LeavesBooks A names numShards msg := by
  intro hleaves
  obtain ⟨cmd, hcmd, hsymbol, hiff⟩ := jsonToCommand_eq msg
  obtain ⟨first, b, b', events, events', hfirst, happ, happ', hne⟩ :=
    changes_of_not_refused (A := A) cmd.symbol 1 fun h => hrefused (hiff.1 h)
  rw [← hsymbol] at hid
  obtain ⟨ss, hstep, hbook⟩ := shardsStep_of_applies numShards ⟨1, 0, .new first⟩
    (hfirst ▸ start_book hid) (hfirst ▸ happ)
  rw [show Command.symbol (.new first) = cmd.symbol from hfirst] at hbook
  obtain ⟨ss', hstep', hbook'⟩ := shardsStep_of_applies numShards ⟨2, 0, cmd⟩ hbook happ'
  have hsame := hleaves _ ss ss' cmd 2 0 true events' (Run.nil.snoc hstep) hcmd hstep'
    (shardFor cmd.symbol numShards) cmd.symbol
  exact hne (Option.some.inj (hbook'.symm.trans (hsame.trans hbook)))

/-- A message leaves all books alone exactly when its symbol's id is not configured, or
every book refuses it. -/
theorem leavesBooks_iff : LeavesBooks A names numShards msg ↔
    symbolToId msg.symbol ∉ names.map symbolToId ∨ msg.Refused := by
  constructor
  · intro h
    by_contra hneither
    obtain ⟨hid, hrefused⟩ := not_or.1 hneither
    exact not_leavesBooks (not_not.1 hid) hrefused h
  · intro h turns ss ss' cmd seq ts appended events hrun hcmd hstep i symbol
    obtain ⟨cmd', hcmd', hsymbol, hiff⟩ := jsonToCommand_eq msg
    cases hcmd.symm.trans hcmd'
    obtain ⟨s', ⟨-, hhandles⟩, rfl⟩ := hstep
    by_cases hi : i = shardFor cmd.symbol numShards
    · subst hi
      change ((Function.update ss (shardFor cmd.symbol numShards) s') _).books[symbol]? = _
      rw [Function.update_self]
      rcases handles_iff.1 hhandles with ⟨-, hbooks, -⟩ | ⟨b, b', hbook, happ, hbooks⟩
      · rw [hbooks]
      · rcases h with hid | hrefused
        · refine absurd ?_ hid
          rw [← hsymbol, ← gatewaySymbols_ids]
          exact (run_configured hrun).1 _ _ (by rw [hbook]; rfl)
        · have hsame : b' = b := happ.of_refused (hiff.2 hrefused)
          rw [hbooks, OrderedMap.getElem?_insert]
          split
          · next hs =>
            rw [hs, hsame]
            exact hbook.symm
          · rfl
    · exact congrArg (fun s : Shard A => s.books[symbol]?) (Function.update_of_ne hi _ _)

theorem ownBooks_iff : OwnBooks A names numShards ↔
    ∀ name ∈ names, ∀ name' ∈ names, symbolToId name = symbolToId name' → name = name' := by
  constructor
  · rintro ⟨-, hdiffer⟩ name hname name' hname' hid
    by_contra hne
    exact hdiffer name hname name' hname' hne (by rw [bookOf, bookOf, hid])
  · intro hinj
    refine ⟨fun name hname => ?_, fun name hname name' hname' hne hbook => ?_⟩
    · rw [bookOf, start_book (List.mem_map_of_mem hname)]
      rfl
    · exact hne (hinj name hname name' hname' (congrArg Prod.snd hbook))

/-- **Unknown symbols.** A message for a symbol that is not configured leaves all books
alone, and configured names have books of their own, exactly when no two names share an
id; unless every book refuses the message. -/
theorem unknown_symbol_iff (names : List String) (numShards : Nat) (msg : JsonInbound) :
    (msg.symbol ∉ names → LeavesBooks A names numShards msg) ∧ OwnBooks A names numShards ↔
      (msg.symbol ∈ names ∨ symbolToId msg.symbol ∉ names.map symbolToId ∨ msg.Refused) ∧
        ∀ name ∈ names, ∀ name' ∈ names, symbolToId name = symbolToId name' → name = name' := by
  rw [leavesBooks_iff, ownBooks_iff, ← or_iff_not_imp_left]

end Engine

/-- Two words of one id. -/
theorem costarring_reaches_liquid :
    "costarring" ∉ ["liquid"] ∧ symbolToId "costarring" = symbolToId "liquid" ∧
      ¬LeavesBooks (VecSlab Order) ["liquid"] 1 (.cancel ⟨1, "costarring"⟩) ∧
      ¬OwnBooks (VecSlab Order) ["liquid", "costarring"] 1 := by
  have hid : symbolToId "costarring" = symbolToId "liquid" := by decide +kernel
  refine ⟨by decide, hid, not_leavesBooks ?_ id, fun h => ?_⟩
  · exact List.mem_singleton.2 hid
  · exact absurd (ownBooks_iff.1 h "costarring" (by simp) "liquid" (by simp) hid) (by decide)

end Exchange
