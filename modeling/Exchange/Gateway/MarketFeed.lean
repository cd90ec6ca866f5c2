import Exchange.Gateway.EgressLoop
import Exchange.Lib.Broadcast

/-!
# The market-data feed

`bus.rs` and `publisher.rs` of the `marketdata` crate, as `main.rs` puts them together:
the egress consumer publishes on the market bus, a `tokio` broadcast channel, and every
client of the publisher has a receiver of its own. `MarketReceiver::recv` goes round its
loop when the receiver lags, so a client does not see that it missed anything.

The channel may keep more messages than the capacity `market_bus` asks for: `tokio` rounds
it up to a power of two. So what it `kept` is a parameter.
-/

namespace Exchange

abbrev MarketBus := Broadcast.Channel MarketEvent

/-- `market_bus`: the channel comes with a first receiver. -/
def marketBus : MarketBus := ⟨[], [⟨0, 0, [], true⟩]⟩

/-- The consumer, what it has still to publish for the event it is at, and the bus. -/
structure MarketFeed where
  consumer : EgressConsumer
  outbox : List MarketEvent
  bus : MarketBus

inductive FeedAction
  /-- The consumer receives an event from the egress bus. -/
  | event (e : OutputEvent)
  /-- It publishes the next message for it. -/
  | publish
  /-- A client connects, is told that it lags, receives or disconnects. -/
  | client (a : Broadcast.Action MarketEvent)

def MarketFeed.start (c : EgressConsumer) : MarketFeed := ⟨c, [], marketBus⟩

/-- What clients do. The first receiver is `main`'s, which keeps it. -/
def ClientAction : Broadcast.Action MarketEvent → Prop
  | .send _ => False
  | .close r => r ≠ 0
  | _ => True

instance (a : Broadcast.Action MarketEvent) : Decidable (ClientAction a) :=
  match a with
  | .send _ => inferInstanceAs (Decidable False)
  | .close r => inferInstanceAs (Decidable (r ≠ 0))
  | .subscribe | .lag _ | .recv _ => inferInstanceAs (Decidable True)

inductive FeedStep (kept : Nat) : MarketFeed → FeedAction → MarketFeed → Prop
  | event {s : MarketFeed} {e : OutputEvent} (hdone : s.outbox = []) :
      FeedStep kept s (.event e)
        { s with consumer := (s.consumer.consume e).1, outbox := (s.consumer.consume e).2 }
  | publish {s : MarketFeed} {m : MarketEvent} {ms : List MarketEvent} {bus : MarketBus}
      (hout : s.outbox = m :: ms) (hstep : Broadcast.Step kept s.bus (.send m) bus) :
      FeedStep kept s .publish { s with outbox := ms, bus }
  | client {s : MarketFeed} {a : Broadcast.Action MarketEvent} {bus : MarketBus}
      (ha : ClientAction a) (hstep : Broadcast.Step kept s.bus a bus) :
      FeedStep kept s (.client a) { s with bus }

/-- The step an action makes, if it can be made. -/
def MarketFeed.step? (kept : Nat) (s : MarketFeed) : FeedAction → Option MarketFeed
  | .event e =>
    if s.outbox.isEmpty then
      some { s with consumer := (s.consumer.consume e).1, outbox := (s.consumer.consume e).2 }
    else none
  | .publish =>
    match s.outbox with
    | [] => none
    | m :: ms => (s.bus.step? kept (.send m)).map fun bus => { s with outbox := ms, bus }
  | .client a =>
    if ClientAction a then (s.bus.step? kept a).map fun bus => { s with bus } else none

theorem MarketFeed.step?_sound {kept : Nat} {s s' : MarketFeed} {a : FeedAction}
    (h : s.step? kept a = some s') : FeedStep kept s a s' := by
  cases a with
  | event e =>
    dsimp only [MarketFeed.step?] at h
    split at h
    · next hdone =>
      cases h
      exact .event (List.isEmpty_iff.1 hdone)
    · cases h
  | publish =>
    dsimp only [MarketFeed.step?] at h
    split at h
    · cases h
    · next m ms hout =>
      obtain ⟨bus, hbus, rfl⟩ := Option.map_eq_some_iff.1 h
      exact .publish hout (Broadcast.Channel.step?_sound hbus)
  | client a =>
    dsimp only [MarketFeed.step?] at h
    split at h
    · next ha =>
      obtain ⟨bus, hbus, rfl⟩ := Option.map_eq_some_iff.1 h
      exact .client ha (Broadcast.Channel.step?_sound hbus)
    · cases h

/-- A computed run is a run. -/
theorem MarketFeed.run_of_foldlM {kept : Nat} {s s' : MarketFeed} {as : List FeedAction}
    (h : as.foldlM (MarketFeed.step? kept) s = some s') :
    Transition.Run (FeedStep kept) s as s' :=
  (Transition.Run.of_foldlM h).mono fun _ _ _ => MarketFeed.step?_sound

end Exchange
