import Exchange.Engine.Shard
import Exchange.MarketData.SnapshotBuilder

/-!
# The egress consumer of the gateway

`main.rs` of the `gateway` crate: one builder per symbol, and a loop that passes
every engine event to every builder. The builders live in a `HashMap`, which the
loop visits in an order of its own.
-/

namespace Exchange

/-- The symbols the gateway configures the engine with: tick 1 each. -/
def gatewaySymbols (names : List String) : List (SymbolId × Price) :=
  names.map fun name => (symbolToId name, 1)

/-- The builders, by symbol id. -/
def builderMap (names : List String) : Std.ExtTreeMap SymbolId SnapshotBuilder :=
  OrderedMap.collect
    (names.map fun name => (symbolToId name, SnapshotBuilder.new (symbolToId name) name 20))

/-- The consumer between two events: the builders in the order in which
`values_mut` yields them, and the number of the last event. -/
structure EgressConsumer where
  builders : List SnapshotBuilder
  seq : Seq

namespace EgressConsumer

/-- The consumer of these symbols before the first event. -/
def Starts (names : List String) (c : EgressConsumer) : Prop :=
  c.builders.Perm ((builderMap names).toList.map Prod.snd) ∧ c.seq = 0

/-- One turn of the loop. The test for a trade changes nothing: every builder gets
every event. -/
def consume (c : EgressConsumer) (event : OutputEvent) : EgressConsumer × List MarketEvent :=
  let seq := c.seq + 1
  let rs := c.builders.map fun v => v.process event seq
  (⟨rs.map Prod.fst, seq⟩, rs.flatMap Prod.snd)

/-- The loop over received events: what is published on the market bus. -/
def consumeAll (c : EgressConsumer) : List OutputEvent → EgressConsumer × List MarketEvent
  | [] => (c, [])
  | event :: events =>
    let r := c.consume event
    let rest := r.1.consumeAll events
    (rest.1, r.2 ++ rest.2)

end EgressConsumer

end Exchange
