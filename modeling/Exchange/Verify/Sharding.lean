import Exchange.Lib.Components
import Exchange.Verify.Step
import Exchange.Verify.Publication

/-!
# Sharding

The shards of an engine are independent, and so are the books within a shard. So every
book runs on its own over the commands for its symbol, wherever the other commands fall in
between, and how many shards the books are spread over cannot be told from the events.
-/

namespace Exchange

open Transition

def ShardTurn.symbol (p : ShardTurn) : SymbolId := p.cmd.cmd.symbol

def ShardTurn.shard (numShards : Nat) (p : ShardTurn) : Nat := shardFor p.cmd.cmd.symbol numShards

/-- A turn as the log of a book has it. -/
def ShardTurn.entry (p : ShardTurn) : Entry := (p.cmd, p.events)

variable {A : Type} [Slab A Order] {symbols : List (SymbolId × Price)} {numShards : Nat}
  {ps : List ShardTurn} {p : ShardTurn} {ss ss' : Shards A} {symbol : SymbolId}

/-- The commands for a symbol, with their events. -/
def symbolLog (symbol : SymbolId) (ps : List ShardTurn) : List Entry :=
  (routed ShardTurn.symbol symbol ps).map ShardTurn.entry

/-- The book of a symbol, in the shard that owns the symbol. -/
def Shards.book (numShards : Nat) (ss : Shards A) (symbol : SymbolId) : Option (OrderBook A) :=
  (ss (shardFor symbol numShards)).books[symbol]?

/-- The shard after a turn that leaves `books`. -/
def Shard.after (s : Shard A) (p : ShardTurn) (books : Books A) : Shard A :=
  ⟨books, if p.appended then s.logged ++ [p.cmd] else s.logged⟩

/-- A turn as the book of its symbol sees it; without a book nothing happens. -/
def BookStep (x : Option (OrderBook A)) (p : ShardTurn) (x' : Option (OrderBook A)) : Prop :=
  (x = none ∧ x' = none ∧ p.events = []) ∨
    ∃ b b', x = some b ∧ Applies b p.cmd b' p.events ∧ x' = some b'

/-! ## Steps of single books -/

omit [Slab A Order] in
theorem Shards.book_update (ss : Shards A) (symbol : SymbolId) (s : Shard A) :
    Shards.book numShards (Function.update ss (shardFor symbol numShards) s) =
      fun symbol' => if shardFor symbol' numShards = shardFor symbol numShards
        then s.books[symbol']? else ss.book numShards symbol' := by
  funext symbol'
  unfold Shards.book
  by_cases h : shardFor symbol' numShards = shardFor symbol numShards
  · rw [if_pos h, h, Function.update_self]
  · rw [if_neg h, Function.update_of_ne h]

omit [Slab A Order] in
theorem book_insert {s : Shard A} {b' : OrderBook A}
    (hs : s.books = (ss (shardFor symbol numShards)).books.insert symbol b') :
    Shards.book numShards (Function.update ss (shardFor symbol numShards) s) =
      Function.update (ss.book numShards) symbol (some b') := by
  rw [Shards.book_update, hs]
  funext symbol'
  rw [OrderedMap.getElem?_insert, Function.update_apply]
  by_cases hsymbol : symbol' = symbol
  · simp [hsymbol]
  · by_cases hshard : shardFor symbol' numShards = shardFor symbol numShards
    · simp [hsymbol, hshard, Shards.book]
    · simp [hsymbol, hshard]

omit [Slab A Order] in
theorem book_same {s : Shard A} (hs : s.books = (ss (shardFor symbol numShards)).books) :
    Shards.book numShards (Function.update ss (shardFor symbol numShards) s) =
      ss.book numShards := by
  rw [Shards.book_update]
  funext symbol'
  split
  · next h => rw [hs, Shards.book, h]
  · rfl

/-- A step of the shards is a step of the book of the command's symbol. -/
theorem ShardsStep.bookStep (h : ShardsStep numShards ss p ss') :
    Components ShardTurn.symbol BookStep (ss.book numShards) p (ss'.book numShards) := by
  obtain ⟨s', ⟨-, hhandles⟩, rfl⟩ := h
  rcases handles_iff.1 hhandles with ⟨hnone, hbooks, hevents⟩ | ⟨b, b', hb, happ, hbooks⟩
  · refine ⟨none, .inl ⟨hnone, rfl, hevents⟩, (book_same hbooks).trans ?_⟩
    exact (Function.update_eq_self_iff.2 hnone.symm).symm
  · exact ⟨some b', .inr ⟨b, b', hb, happ, rfl⟩, book_insert hbooks⟩

/-- A step of one book is a step of any shards that hold the book. -/
theorem exists_shardsStep {xs' : SymbolId → Option (OrderBook A)}
    (h : Components ShardTurn.symbol BookStep (ss.book numShards) p xs') :
    ∃ ss', ShardsStep numShards ss p ss' ∧ ss'.book numShards = xs' := by
  obtain ⟨x', hx, rfl⟩ := h
  rcases hx with ⟨hnone, rfl, hevents⟩ | ⟨b, b', hb, happ, rfl⟩
  · refine ⟨_, ⟨(ss (shardFor p.symbol numShards)).after p _,
      ⟨rfl, handles_iff.2 (.inl ⟨hnone, rfl, hevents⟩)⟩, rfl⟩, ?_⟩
    exact (book_same (s := Shard.after _ p _) rfl).trans
      (Function.update_eq_self_iff.2 hnone.symm).symm
  · exact ⟨_, ⟨(ss (shardFor p.symbol numShards)).after p _,
      ⟨rfl, handles_iff.2 (.inr ⟨b, b', hb, happ, rfl⟩)⟩, rfl⟩, book_insert rfl⟩

theorem run_books (h : Run (ShardsStep numShards) ss ps ss') :
    Run (Components ShardTurn.symbol BookStep) (ss.book numShards) ps (ss'.book numShards) := by
  obtain ⟨xs, hrun, rfl⟩ := h.simulate (R := fun ss xs => xs = ss.book numShards) rfl
    fun ss _ p ss' hxs hstep => ⟨_, hxs ▸ hstep.bookStep, rfl⟩
  exact hrun

/-! ## Runs of single books -/

theorem run_bookStep_none {x : Option (OrderBook A)} (h : Run BookStep none ps x) :
    x = none ∧ ∀ p ∈ ps, p.events = [] := by
  refine h.invariant (I := fun ps x => x = none ∧ ∀ p ∈ ps, p.events = []) (by simp) ?_
  rintro ps x p x' - ⟨rfl, hps⟩ (⟨-, rfl, hp⟩ | ⟨b, b', hb, -⟩)
  · exact ⟨rfl, fun p' hp' => (List.mem_append.1 hp').elim (hps p')
      fun he => List.mem_singleton.1 he ▸ hp⟩
  · cases hb

theorem run_bookStep_some {b : OrderBook A} {x : Option (OrderBook A)}
    (h : Run BookStep (some b) ps x) :
    ∃ b', x = some b' ∧ Run ApplyStep b (ps.map ShardTurn.entry) b' := by
  refine h.invariant
    (I := fun ps x => ∃ b', x = some b' ∧ Run ApplyStep b (ps.map ShardTurn.entry) b')
    ⟨b, rfl, .nil⟩ ?_
  rintro ps x p x' - ⟨b₁, rfl, hrun⟩ (⟨hb, -⟩ | ⟨b₂, b', hb, happ, rfl⟩)
  · cases hb
  · cases hb
    refine ⟨b', rfl, ?_⟩
    rw [List.map_append]
    exact hrun.snoc happ

/-- At the start the number of shards does not matter to a book. -/
theorem book_start (symbols : List (SymbolId × Price)) (numShards : Nat) :
    (Shards.start symbols numShards : Shards A).book numShards =
      fun symbol => (startBooks symbols)[symbol]? := by
  funext symbol
  change (startBooks (shardSymbols symbols numShards (shardFor symbol numShards)))[symbol]? = _
  have hkey : ∀ e : SymbolId × OrderBook A, e.1 = symbol →
      decide (shardFor e.1 numShards = shardFor symbol numShards) = true := by
    rintro e rfl
    exact decide_eq_true rfl
  unfold startBooks shardSymbols
  rw [← OrderedMap.getElem?_collect_filter hkey (l := symbols.map _), List.filter_map]
  rfl

theorem book_startBooks (h : symbol ∈ symbols.map Prod.fst) :
    ∃ tick, (symbol, tick) ∈ symbols ∧
      (startBooks symbols : Books A)[symbol]? = some (OrderBook.new symbol tick) := by
  obtain ⟨b, hb⟩ := Option.isSome_iff_exists.1 ((isSome_startBooks (A := A)).2 h)
  obtain ⟨⟨symbol', tick⟩, he, heq⟩ := List.mem_map.1 (OrderedMap.mem_of_collect hb)
  obtain ⟨rfl, rfl⟩ := Prod.mk.inj heq
  exact ⟨tick, he, hb⟩

/-- The turns of a symbol, as steps of its book. -/
theorem run_bookStep (h : Run (ShardsStep numShards) (Shards.start symbols numShards) ps ss)
    (symbol : SymbolId) :
    Run BookStep (startBooks symbols)[symbol]? (routed ShardTurn.symbol symbol ps)
      (ss.book numShards symbol) := by
  have hrun := run_components_iff.1 (run_books h) symbol
  rwa [book_start] at hrun

theorem run_symbolLog (h : Run (ShardsStep numShards) (Shards.start symbols numShards) ps ss)
    (hsymbol : symbol ∈ symbols.map Prod.fst) :
    ∃ tick b, (symbol, tick) ∈ symbols ∧ ss.book numShards symbol = some b ∧
      Reaches symbol tick (symbolLog symbol ps) b := by
  obtain ⟨tick, htick, hstart⟩ := book_startBooks (A := A) hsymbol
  have hrun := run_bookStep h symbol
  rw [hstart] at hrun
  obtain ⟨b, hb, hreaches⟩ := run_bookStep_some hrun
  exact ⟨tick, b, htick, hb, hreaches⟩

/-- **Every book runs on its own.** Whatever the shards do, the book of a configured symbol
is in the shard of the symbol and no other, and it is where the commands for the symbol, in
the order of their turns and with the events of those turns, lead an empty book; a command
for any other symbol sends nothing. -/
theorem shards_books (h : Run (ShardsStep numShards) (Shards.start symbols numShards) ps ss) :
    (∀ symbol ∈ symbols.map Prod.fst, ∃ tick b, (symbol, tick) ∈ symbols ∧
      ss.book numShards symbol = some b ∧ Reaches symbol tick (symbolLog symbol ps) b) ∧
      (∀ i symbol, ((ss i).books[symbol]?).isSome = true ↔
        symbol ∈ symbols.map Prod.fst ∧ i = shardFor symbol numShards) ∧
      ∀ p ∈ ps, p.symbol ∉ symbols.map Prod.fst → p.events = [] := by
  refine ⟨fun symbol hsymbol => run_symbolLog h hsymbol, fun i symbol => ?_, fun p hp hsymbol => ?_⟩
  · have hshard : Run ShardStep (Shard.start (shardSymbols symbols numShards i)) _ (ss i) :=
      run_components_iff.1 h i
    rw [run_symbols hshard]
    constructor
    · intro hmem
      obtain ⟨e, he, rfl⟩ := List.mem_map.1 hmem
      obtain ⟨he, hi⟩ := List.mem_filter.1 he
      exact ⟨List.mem_map_of_mem he, (of_decide_eq_true hi).symm⟩
    · rintro ⟨hmem, rfl⟩
      obtain ⟨e, he, rfl⟩ := List.mem_map.1 hmem
      exact List.mem_map_of_mem (List.mem_filter.2 ⟨he, decide_eq_true rfl⟩)
  · have hrun := run_bookStep h p.symbol
    have hnone : (startBooks symbols : Books A)[p.symbol]? = none := by
      rw [← Option.not_isSome_iff_eq_none, isSome_startBooks]
      exact hsymbol
    rw [hnone] at hrun
    exact (run_bookStep_none hrun).2 p (List.mem_filter.2 ⟨hp, decide_eq_true rfl⟩)

theorem shards_books_sample : ∃ (ss : Shards (VecSlab Order)) (ps : List ShardTurn) (tick : Price)
    (b : OrderBook (VecSlab Order)), ps.length = 2 ∧
      ss.book 2 (symbolToId "AAPL") = some b ∧
      Reaches (symbolToId "AAPL") tick (symbolLog (symbolToId "AAPL") ps) b := by
  obtain ⟨ss, p, p', hrun, -⟩ := crossing_run ["AAPL"] (symbolToId "AAPL") (by decide +kernel)
  obtain ⟨tick, b, -, hbook, hreaches⟩ :=
    (shards_books hrun).1 (symbolToId "AAPL") List.mem_cons_self
  exact ⟨ss, [p] ++ [p'], tick, b, rfl, hbook, hreaches⟩

/-- **The number of shards cannot be told.** What happens with some number of shards, turn
by turn and event by event, can happen with any other but none, each turn being one of a
shard that there is, and leaves every symbol with the same book. -/
theorem shards_number (h : Run (ShardsStep numShards) (Shards.start symbols numShards) ps ss)
    {numShards' : Nat} (hpos : 0 < numShards') :
    ∃ ss' : Shards A, Run (ShardsStep numShards') (Shards.start symbols numShards') ps ss' ∧
      (∀ p ∈ ps, p.shard numShards' < numShards') ∧ ss'.book numShards' = ss.book numShards := by
  have hrun := run_books h
  rw [book_start, ← book_start symbols numShards'] at hrun
  obtain ⟨ss', hrun', hbook⟩ := hrun.simulate (R := fun xs ss' => Shards.book numShards' ss' = xs)
    rfl fun xs ss' p xs' hxs hstep => exists_shardsStep (hxs ▸ hstep)
  exact ⟨ss', hrun', fun p _ => Nat.mod_lt _ hpos, hbook⟩

theorem shards_number_sample : ∃ (ss ss' : Shards (VecSlab Order)) (p p' : ShardTurn),
    Run (ShardsStep 5) (Shards.start (gatewaySymbols ["AAPL"]) 5) ([p] ++ [p']) ss' ∧
      p'.events = [.accepted 2 2] ++ .trade 2 2 1 100 5 .buy 0 :: [.filled 1 2, .filled 2 2] ∧
      ss'.book 5 = ss.book 2 := by
  obtain ⟨ss, p, p', hrun, -, hevents⟩ :=
    crossing_run ["AAPL"] (symbolToId "AAPL") (by decide +kernel)
  obtain ⟨ss', hrun', -, hbook⟩ := shards_number hrun (show 0 < 5 by decide)
  exact ⟨ss, ss', p, p', hrun', hevents, hbook⟩

end Exchange
