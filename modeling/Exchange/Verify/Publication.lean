import Exchange.Verify.ShardLog
import Exchange.Gateway.EgressLoop

/-!
# Publishing trades

A trade event carries no symbol, and the egress loop passes it to the builder of
every symbol id. So each trade is published once for every configured id, under one of
the names of the id, and once under its own name exactly when there is no other name.
-/

namespace Exchange

open Transition

/-- A trade on the market bus. -/
def MarketEvent.isTrade : MarketEvent → Bool
  | .trade .. => true
  | _ => false

theorem mem_builderMap {names : List String} {symbol : SymbolId} {v : SnapshotBuilder}
    (h : (builderMap names)[symbol]? = some v) :
    ∃ name ∈ names, symbolToId name = symbol ∧ v = .new symbol name 20 := by
  obtain ⟨name, hname, he⟩ := List.mem_map.1 (OrderedMap.mem_of_collect h)
  obtain ⟨rfl, rfl⟩ := Prod.mk.inj he
  exact ⟨name, hname, rfl, rfl⟩

theorem isSome_builderMap {names : List String} {symbol : SymbolId} :
    ((builderMap names)[symbol]?).isSome = true ↔ ∃ name ∈ names, symbolToId name = symbol := by
  unfold builderMap
  rw [OrderedMap.isSome_collect]
  simp

/-! ## The loop -/

namespace EgressConsumer

variable {c : EgressConsumer} {names : List String}

@[simp] theorem consume_builders (c : EgressConsumer) (event : OutputEvent) :
    (c.consume event).1.builders = c.builders := by
  simp [consume, Function.comp_def]

/-- No event changes a builder. -/
@[simp] theorem consumeAll_builders (c : EgressConsumer) (events : List OutputEvent) :
    (c.consumeAll events).1.builders = c.builders := by
  induction events generalizing c with
  | nil => rfl
  | cons event events ih => simp [consumeAll, ih]

/-- Every builder publishes a trade under its own name. -/
theorem consume_trade (c : EgressConsumer) (seq : Seq) (taker maker : OrderId) (price : Price)
    (qty : Qty) (side : Side) (ts : Ts) :
    (c.consume (.trade seq taker maker price qty side ts)).2 =
      c.builders.map fun v =>
        .trade v.symStr (ticksToDollars price) qty side.label (c.seq + 1) ts := by
  simp only [consume, SnapshotBuilder.process, List.flatMap_map]
  exact List.map_eq_flatMap.symm

end EgressConsumer

/-- What the loop publishes for `event` after the events `before`. -/
def publishedFor (c : EgressConsumer) (before : List OutputEvent) (event : OutputEvent) :
    List MarketEvent :=
  ((c.consumeAll before).1.consume event).2

/-- The event is published as one trade, under the name `s`. -/
def PublishedAs (c : EgressConsumer) (before : List OutputEvent) (event : OutputEvent)
    (s : String) : Prop :=
  ∃ price qty side seq ts,
    (publishedFor c before event).filter (·.isTrade) = [.trade s price qty side seq ts]

/-- An event of the book of `symbol` is published as one trade, under the name of the
symbol: under the name of each configured symbol that has its orders in this book. -/
def PublishedOnce (names : List String) (c : EgressConsumer) (before : List OutputEvent)
    (symbol : SymbolId) (event : OutputEvent) : Prop :=
  ∀ s ∈ names, symbolToId s = symbol → PublishedAs c before event s

/-- The market bus carries one trade for every builder. -/
theorem publishedFor_trade {names : List String} {c : EgressConsumer} (hc : c.Starts names)
    (before : List OutputEvent) (seq : Seq) (taker maker : OrderId) (price : Price) (qty : Qty)
    (side : Side) (ts : Ts) : ∃ n,
    ((publishedFor c before (.trade seq taker maker price qty side ts)).filter (·.isTrade)).Perm
      ((builderMap names).toList.map fun e =>
        .trade e.2.symStr (ticksToDollars price) qty side.label n ts) := by
  refine ⟨(c.consumeAll before).1.seq + 1, ?_⟩
  unfold publishedFor
  rw [EgressConsumer.consume_trade, EgressConsumer.consumeAll_builders,
    List.filter_eq_self.2 (by simp [MarketEvent.isTrade])]
  have hperm := hc.1.map fun v =>
    MarketEvent.trade v.symStr (ticksToDollars price) qty side.label
      ((c.consumeAll before).1.seq + 1) ts
  rwa [List.map_map] at hperm

/-- A trade that is published once under the name `s` shows that there is one builder. -/
theorem PublishedAs.only {names : List String} {c : EgressConsumer} (hc : c.Starts names)
    {before : List OutputEvent} {seq : Seq} {taker maker : OrderId} {price : Price} {qty : Qty}
    {side : Side} {ts : Ts} {s : String}
    (h : PublishedAs c before (.trade seq taker maker price qty side ts) s) :
    ∃ id, ∀ name ∈ names, symbolToId name = id := by
  obtain ⟨n, hperm⟩ := publishedFor_trade hc before seq taker maker price qty side ts
  obtain ⟨price', qty', side', n', ts', hpub⟩ := h
  have hlength := hperm.length_eq
  rw [hpub, List.length_map] at hlength
  obtain ⟨e, he⟩ := List.length_eq_one_iff.1 hlength.symm
  refine ⟨e.1, fun name hname => ?_⟩
  obtain ⟨v, hv⟩ := Option.isSome_iff_exists.1 (isSome_builderMap.2 ⟨name, hname, rfl⟩)
  have hmem := OrderedMap.mem_toList_iff.2 hv
  rw [he] at hmem
  exact congrArg Prod.fst (List.mem_singleton.1 hmem)

/-- An event is published under one name only. -/
theorem PublishedAs.unique {c : EgressConsumer} {before : List OutputEvent} {event : OutputEvent}
    {s s' : String} (h : PublishedAs c before event s) (h' : PublishedAs c before event s') :
    s = s' := by
  obtain ⟨_, _, _, _, _, h⟩ := h
  obtain ⟨_, _, _, _, _, h'⟩ := h'
  have hsame := h.symm.trans h'
  simp only [List.cons.injEq, MarketEvent.trade.injEq] at hsame
  exact hsame.1.1

theorem publishedOnce_iff {names : List String} {c : EgressConsumer} (hc : c.Starts names)
    (before : List OutputEvent) {symbol : SymbolId}
    (hsymbol : ∃ name ∈ names, symbolToId name = symbol)
    (seq : Seq) (taker maker : OrderId) (price : Price) (qty : Qty) (side : Side) (ts : Ts) :
    PublishedOnce names c before symbol (.trade seq taker maker price qty side ts) ↔
      ∀ s ∈ names, ∀ s' ∈ names, s = s' := by
  constructor
  · intro honce
    obtain ⟨name, hname, hid⟩ := hsymbol
    obtain ⟨id, hall⟩ := (honce name hname hid).only hc
    -- all names have the traded id, so the trade is published under each of them
    have hown : ∀ s ∈ names, PublishedAs c before (.trade seq taker maker price qty side ts) s := by
      intro s hs
      refine honce s hs ?_
      rw [hall s hs, ← hall name hname, hid]
    exact fun s hs s' hs' => (hown s hs).unique (hown s' hs')
  · intro hsame s hs hid
    obtain ⟨n, hperm⟩ := publishedFor_trade hc before seq taker maker price qty side ts
    obtain ⟨v, hv⟩ := Option.isSome_iff_exists.1 (isSome_builderMap.2 ⟨s, hs, hid⟩)
    obtain ⟨name, hname, -, rfl⟩ := mem_builderMap hv
    obtain rfl := hsame name hname s hs
    have honly : (builderMap names).toList = [(symbol, .new symbol name 20)] := by
      refine OrderedMap.toList_eq_singleton hv fun symbol' v' hv' => ?_
      obtain ⟨name', hname', hid', -⟩ := mem_builderMap hv'
      rw [← hid', hsame name' hname' name hname, hid]
    rw [honly] at hperm
    exact ⟨_, _, _, _, _, List.perm_singleton.1 hperm⟩

/-! ## The shards' events -/

variable {A : Type} [Slab A Order]

/-- Only a command for a configured symbol sends events. -/
theorem run_configured {symbols : List (SymbolId × Price)} {numShards : Nat} {ps : List ShardTurn}
    {ss : Shards A} (h : Run (ShardsStep numShards) (Shards.start symbols numShards) ps ss) :
    (∀ i symbol, ((ss i).books[symbol]?).isSome = true → symbol ∈ symbols.map Prod.fst) ∧
      ∀ p ∈ ps, p.events ≠ [] → p.cmd.cmd.symbol ∈ symbols.map Prod.fst := by
  refine Run.invariant (I := fun ps ss =>
    (∀ i symbol, ((ss i).books[symbol]?).isSome = true → symbol ∈ symbols.map Prod.fst) ∧
      ∀ p ∈ ps, p.events ≠ [] → p.cmd.cmd.symbol ∈ symbols.map Prod.fst) ?_ ?_ h
  · refine ⟨fun i symbol hs => ?_, fun p hp => by cases hp⟩
    obtain ⟨e, he, rfl⟩ := List.mem_map.1 (isSome_startBooks.1 hs)
    exact List.mem_map_of_mem (List.mem_of_mem_filter he)
  · rintro ps ss p ss' - ⟨hbooks, hevents⟩ ⟨s', hstep, rfl⟩
    refine ⟨fun i symbol hs => ?_, fun p' hp' hne => ?_⟩
    · by_cases hi : i = shardFor p.cmd.cmd.symbol numShards
      · subst hi
        rw [Function.update_self, hstep.2.symbols] at hs
        exact hbooks _ symbol hs
      · rw [Function.update_of_ne hi] at hs
        exact hbooks i symbol hs
    · rcases List.mem_append.1 hp' with hp | hp
      · exact hevents p' hp hne
      · obtain rfl := List.mem_singleton.1 hp
        rcases hstep.effect with ⟨hsome, -⟩ | ⟨-, hnil, -⟩
        · exact hbooks _ _ hsome
        · exact absurd hnil hne

/-- **Trades are published once, under their own symbol,** exactly when there is one
configured name. Published before are the events of the commands handled before `p`, and
those of `p` before the trade. -/
theorem trades_published {names : List String} {numShards : Nat} {pre post : List ShardTurn}
    {p : ShardTurn} {ss : Shards A} {c : EgressConsumer}
    (h : Run (ShardsStep numShards) (Shards.start (gatewaySymbols names) numShards)
      (pre ++ p :: post) ss)
    (hc : c.Starts names) {es es' : List OutputEvent} {seq : Seq} {taker maker : OrderId}
    {price : Price} {qty : Qty} {side : Side} {ts : Ts}
    (htrade : p.events = es ++ .trade seq taker maker price qty side ts :: es') :
    PublishedOnce names c (pre.flatMap (·.events) ++ es) p.cmd.cmd.symbol
        (.trade seq taker maker price qty side ts) ↔
      ∀ s ∈ names, ∀ s' ∈ names, s = s' := by
  have hmem := (run_configured h).2 p (List.mem_append_right _ List.mem_cons_self)
    (by rw [htrade]; simp)
  obtain ⟨e, he, hid⟩ := List.mem_map.1 hmem
  obtain ⟨name, hname, rfl⟩ := List.mem_map.1 he
  exact publishedOnce_iff hc _ ⟨name, hname, hid⟩ seq taker maker price qty side ts

/-! ## Runs of one shard -/

/-- The steps of one shard are steps of the engine. -/
theorem Shards.lift {numShards i : Nat} {ss : Shards A} {ps : List ShardTurn} {s : Shard A}
    (h : Run ShardStep (ss i) ps s) (hi : ∀ p ∈ ps, shardFor p.cmd.cmd.symbol numShards = i) :
    Run (ShardsStep numShards) ss ps (Function.update ss i s) := by
  refine Run.invariant (I := fun ps s => (∀ p ∈ ps, shardFor p.cmd.cmd.symbol numShards = i) →
    Run (ShardsStep numShards) ss ps (Function.update ss i s)) (fun _ => ?_) ?_ h hi
  · rw [Function.update_eq_self]
    exact .nil
  · intro ps s p s' _ ih hstep hi
    have hp := hi p (List.mem_append_right _ List.mem_cons_self)
    refine (ih fun x hx => hi x (List.mem_append_left _ hx)).snoc ⟨s', ?_, ?_⟩
    · rw [hp, Function.update_self]
      exact hstep
    · rw [hp, Function.update_idem]

/-- Handle commands one after another, all of them logged. -/
def handleAll (fuel : Nat) : Books A → List Sequenced → Outcome (Books A × List ShardTurn)
  | books, [] => return (books, [])
  | books, cmd :: cmds => do
    let (books, events) ← handleWithin fuel books cmd
    let (books, ps) ← handleAll fuel books cmds
    return (books, ⟨cmd, true, events⟩ :: ps)

/-- Computed steps are steps. -/
theorem run_handleAll {fuel : Nat} {cmds : List Sequenced} {s : Shard A} {books : Books A}
    {ps : List ShardTurn} (h : handleAll fuel s.books cmds = .ok (books, ps)) :
    Run ShardStep s ps ⟨books, s.logged ++ cmds⟩ ∧ ps.map (·.cmd) = cmds := by
  induction cmds generalizing s books ps with
  | nil =>
    cases h
    exact ⟨by simpa using (Run.nil : Run ShardStep s [] s), rfl⟩
  | cons cmd cmds ih =>
    obtain ⟨⟨books₁, events⟩, h₁, h⟩ := Fuel.bind_eq_ok.1 h
    obtain ⟨⟨books₂, ps'⟩, h₂, h⟩ := Fuel.bind_eq_ok.1 h
    cases h
    obtain ⟨hrest, hcmds⟩ := ih (s := ⟨books₁, s.logged ++ [cmd]⟩) h₂
    have hfirst : Run ShardStep s ([] ++ [⟨cmd, true, events⟩]) ⟨books₁, s.logged ++ [cmd]⟩ :=
      Run.nil.snoc ⟨rfl, fuel, h₁⟩
    refine ⟨?_, by rw [List.map_cons, hcmds]⟩
    simpa using hfirst.append hrest

/-- An ask and a bid that takes it. -/
def crossing (symbol : SymbolId) : List Sequenced :=
  [⟨1, 0, .new ⟨1, symbol, .sell, .limit, .gtc, 100, 0, 5⟩⟩,
   ⟨2, 0, .new ⟨2, symbol, .buy, .limit, .gtc, 100, 0, 5⟩⟩]

/-- What the shard answers to `crossing`. -/
def crossed : List (List OutputEvent) :=
  [[.accepted 1 1], [.accepted 2 2, .trade 2 2 1 100 5 .buy 0, .filled 1 2, .filled 2 2]]

/-- A shard that answers `crossing` with `crossed` makes an engine's run of it. -/
theorem crossing_run (names : List String) (symbol : SymbolId)
    (hok : ((handleAll 9 (startBooks (shardSymbols (gatewaySymbols names) 2 (shardFor symbol 2)) :
      Books (VecSlab Order)) (crossing symbol)).toOption.map fun r => r.2.map (·.events)) =
        some crossed) :
    ∃ (ss : Shards (VecSlab Order)) (p p' : ShardTurn),
      Run (ShardsStep 2) (Shards.start (gatewaySymbols names) 2) ([p] ++ p' :: []) ss ∧
        p'.cmd.cmd.symbol = symbol ∧
        p'.events = [.accepted 2 2] ++ .trade 2 2 1 100 5 .buy 0 :: [.filled 1 2, .filled 2 2] := by
  obtain ⟨⟨books, ps⟩, hanswer, hevents⟩ := Option.map_eq_some_iff.1 hok
  have hanswer : handleAll 9 (startBooks (shardSymbols (gatewaySymbols names) 2
      (shardFor symbol 2)) : Books (VecSlab Order)) (crossing symbol) = .ok (books, ps) := by
    revert hanswer
    generalize handleAll 9 (startBooks (shardSymbols (gatewaySymbols names) 2
      (shardFor symbol 2)) : Books (VecSlab Order)) (crossing symbol) = x
    cases x with
    | error => exact nofun
    | ok r => exact fun h => congrArg Except.ok (Option.some.inj h)
  obtain ⟨hrun, hcmds⟩ := run_handleAll
    (s := Shards.start (gatewaySymbols names) 2 (shardFor symbol 2)) hanswer
  have hsymbols : ∀ p ∈ ps, p.cmd.cmd.symbol = symbol := by
    intro p hp
    have hmem : p.cmd ∈ crossing symbol := hcmds ▸ List.mem_map_of_mem hp
    rcases List.mem_cons.1 hmem with he | he
    · rw [he]
      rfl
    · rw [List.mem_singleton.1 he]
      rfl
  have hlift : Run (ShardsStep 2) (Shards.start (gatewaySymbols names) 2) ps _ :=
    Shards.lift hrun fun p hp => by rw [hsymbols p hp]
  unfold crossed at hevents
  cases ps with
  | nil => cases hevents
  | cons p rest =>
    obtain ⟨-, hrest⟩ := List.cons.inj hevents
    cases rest with
    | nil => cases hrest
    | cons p' rest =>
      obtain ⟨hp', hrest⟩ := List.cons.inj hrest
      obtain rfl := List.map_eq_nil_iff.1 hrest
      exact ⟨_, p, p', hlift, hsymbols p' (by simp), hp'⟩

/-- The builders of the gateway in some order. -/
theorem exists_starts (names : List String) : ∃ c : EgressConsumer, c.Starts names :=
  ⟨⟨_, 0⟩, .refl _, rfl⟩

theorem trades_published_sample : ∃ (ss : Shards (VecSlab Order)) (p p' : ShardTurn)
    (c : EgressConsumer), c.Starts ["AAPL"] ∧
    Run (ShardsStep 2) (Shards.start (gatewaySymbols ["AAPL"]) 2) ([p] ++ p' :: []) ss ∧
    PublishedAs c (p.events ++ [.accepted 2 2]) (.trade 2 2 1 100 5 .buy 0) "AAPL" := by
  obtain ⟨ss, p, p', hrun, hsymbol, hevents⟩ := crossing_run ["AAPL"]
    (symbolToId "AAPL") (by decide +kernel)
  obtain ⟨c, hc⟩ := exists_starts ["AAPL"]
  have hpublished := (trades_published hrun hc hevents).2 fun s hs s' hs' => by
    rw [List.mem_singleton.1 hs, List.mem_singleton.1 hs']
  exact ⟨ss, p, p', c, hc, hrun,
    by simpa using hpublished "AAPL" List.mem_cons_self hsymbol.symm⟩

/-- With a second symbol the trade is not published once under its own. -/
theorem trade_published_twice : ∃ (ss : Shards (VecSlab Order)) (p p' : ShardTurn)
    (c : EgressConsumer), c.Starts ["AAPL", "MSFT"] ∧
    Run (ShardsStep 2) (Shards.start (gatewaySymbols ["AAPL", "MSFT"]) 2) ([p] ++ p' :: []) ss ∧
    p'.cmd.cmd.symbol = symbolToId "AAPL" ∧
    p'.events = [.accepted 2 2] ++ .trade 2 2 1 100 5 .buy 0 :: [.filled 1 2, .filled 2 2] ∧
    ¬PublishedAs c (p.events ++ [.accepted 2 2]) (.trade 2 2 1 100 5 .buy 0) "AAPL" := by
  obtain ⟨ss, p, p', hrun, hsymbol, hevents⟩ := crossing_run ["AAPL", "MSFT"]
    (symbolToId "AAPL") (by decide +kernel)
  obtain ⟨c, hc⟩ := exists_starts ["AAPL", "MSFT"]
  refine ⟨ss, p, p', c, hc, hrun, hsymbol, hevents, fun hpublished => ?_⟩
  obtain ⟨id, hall⟩ := hpublished.only hc
  have hids : symbolToId "AAPL" = symbolToId "MSFT" := by
    rw [hall "AAPL" (by simp), hall "MSFT" (by simp)]
  exact absurd hids (by decide +kernel)

end Exchange
