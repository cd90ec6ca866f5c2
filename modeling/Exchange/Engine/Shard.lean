import Exchange.Core.Matcher

/-!
# The shard

`shard.rs` of the `engine` crate: the loop of `run_shard`, one popped command at a
time. Metrics and latency records are left out. What the write-ahead log does with
a record is the log's own affair; here an append is a result, `Ok` or not, and the
log is the list of commands whose append returned `Ok`.
-/

namespace Exchange

open Std

/-- The symbol a command is for. -/
def Command.symbol : Command → SymbolId
  | .new no => no.symbol
  | .cancel _ symbol => symbol
  | .replace _ _ _ symbol => symbol

/-- `shard_for`. An engine has a shard: with none the remainder panics. -/
def shardFor (symbol : SymbolId) (numShards : Nat) : Nat := symbol.toNat % numShards

/-- The books of a shard by symbol. -/
abbrev Books (A : Type) := ExtTreeMap SymbolId (OrderBook A)

/-- A turn of `run_shard`: the popped command, the result of its append, and the events sent to the
egress bus. -/
structure ShardTurn where
  cmd : Sequenced
  appended : Bool
  events : List OutputEvent
  deriving DecidableEq, Repr

/-- A running shard. -/
structure Shard (A : Type) where
  books : Books A
  logged : List Sequenced

variable {A : Type} [Slab A Order]

/-- The books a shard starts with. -/
def startBooks (symbols : List (SymbolId × Price)) : Books A :=
  OrderedMap.collect (symbols.map fun e => (e.1, OrderBook.new e.1 e.2))

/-- Apply a command to the book of its symbol, if there is one. -/
def handleWithin (fuel : Nat) (books : Books A) (cmd : Sequenced) :
    Outcome (Books A × List OutputEvent) :=
  match books[cmd.cmd.symbol]? with
  | some book => do
    let (book, events) ← applyWithin fuel book cmd
    return (books.insert cmd.cmd.symbol book, events)
  | none => return (books, [])

/-- The shard handles `cmd`: `books'` are its books afterwards and `events` go to the
egress bus. -/
def Handles (books : Books A) (cmd : Sequenced) (books' : Books A) (events : List OutputEvent) :
    Prop :=
  Fuel.Converges (fun fuel => handleWithin fuel books cmd) (books', events)

def Shard.start (symbols : List (SymbolId × Price)) : Shard A := ⟨startBooks symbols, []⟩

/-- One iteration of `run_shard`: append, whose result is dropped, and apply. -/
def ShardStep (s : Shard A) (p : ShardTurn) (s' : Shard A) : Prop :=
  s'.logged = (if p.appended then s.logged ++ [p.cmd] else s.logged) ∧
    Handles s.books p.cmd s'.books p.events

/-- The step of a turn, if `fuel` is enough for it and the events are those it states. -/
def Shard.step? (fuel : Nat) (s : Shard A) (p : ShardTurn) : Option (Shard A) :=
  match handleWithin fuel s.books p.cmd with
  | .ok (books, events) =>
    if events = p.events then
      some ⟨books, if p.appended then s.logged ++ [p.cmd] else s.logged⟩
    else none
  | .error _ => none

theorem Shard.step?_sound {fuel : Nat} {s s' : Shard A} {p : ShardTurn}
    (h : s.step? fuel p = some s') : ShardStep s p s' := by
  unfold step? at h
  split at h
  · next books events hhandle =>
    split at h
    · next hevents =>
      cases h
      exact ⟨rfl, fuel, hevents ▸ hhandle⟩
    · cases h
  · cases h

/-- The symbols `Engine::start` gives to shard `i`. -/
def shardSymbols (symbols : List (SymbolId × Price)) (numShards i : Nat) :
    List (SymbolId × Price) :=
  symbols.filter fun e => shardFor e.1 numShards = i

/-- The shards of an engine. -/
abbrev Shards (A : Type) := Nat → Shard A

def Shards.start (symbols : List (SymbolId × Price)) (numShards : Nat) : Shards A :=
  fun i => Shard.start (shardSymbols symbols numShards i)

/-- The shard of its symbol handles a command, and its events leave as one batch. The
books of different shards are disjoint, so the shards' steps are ordered by their batches. -/
def ShardsStep (numShards : Nat) (ss : Shards A) (p : ShardTurn) (ss' : Shards A) : Prop :=
  ∃ s', ShardStep (ss (shardFor p.cmd.cmd.symbol numShards)) p s' ∧
    ss' = Function.update ss (shardFor p.cmd.cmd.symbol numShards) s'

/-! ## What handling a command does -/

variable {books books' : Books A} {cmd : Sequenced} {events : List OutputEvent}

theorem handles_iff :
    Handles books cmd books' events ↔
      (books[cmd.cmd.symbol]? = none ∧ books' = books ∧ events = []) ∨
      ∃ book book', books[cmd.cmd.symbol]? = some book ∧ Applies book cmd book' events ∧
        books' = books.insert cmd.cmd.symbol book' := by
  unfold Handles handleWithin
  cases hbook : books[cmd.cmd.symbol]? with
  | none =>
    constructor
    · rintro ⟨n, hn⟩
      cases hn
      exact .inl ⟨rfl, rfl, rfl⟩
    · rintro (⟨-, rfl, rfl⟩ | ⟨book, book', h, -⟩)
      · exact ⟨0, rfl⟩
      · cases h
  | some book =>
    constructor
    · rintro ⟨n, hn⟩
      obtain ⟨⟨book', events'⟩, happ, hn⟩ := Fuel.bind_eq_ok.1 hn
      cases hn
      exact .inr ⟨book, book', rfl, ⟨n, happ⟩, rfl⟩
    · rintro (⟨h, -⟩ | ⟨book₀, book', h, ⟨n, happ⟩, rfl⟩)
      · cases h
      · cases h
        exact ⟨n, Fuel.bind_eq_ok.2 ⟨(book', events), happ, rfl⟩⟩

/-- Handling a command keeps the set of symbols. -/
theorem Handles.symbols (h : Handles books cmd books' events) (symbol : SymbolId) :
    (books'[symbol]?).isSome = (books[symbol]?).isSome := by
  rcases handles_iff.1 h with ⟨-, rfl, -⟩ | ⟨book, book', hbook, -, rfl⟩
  · rfl
  · rw [OrderedMap.getElem?_insert]
    split
    · next hs => rw [hs, hbook]; rfl
    · rfl

theorem isSome_startBooks {symbols : List (SymbolId × Price)} {symbol : SymbolId} :
    ((startBooks symbols : Books A)[symbol]?).isSome = true ↔ symbol ∈ symbols.map Prod.fst := by
  unfold startBooks
  rw [OrderedMap.isSome_collect, List.map_map]
  rfl

end Exchange
