import Exchange.Lib.Transition
import Exchange.Engine.Shard

/-!
# The egress bus

`egress.rs` of the `engine` crate, and the shards around it. The senders of the
subscribers sit behind a mutex. `send_batch` holds it while `retain` goes through the
senders and sends one event after the other; receivers take no lock, so they read and go
away in between. `send` is `send_batch` of one event.
-/

namespace Exchange

/-- The channel of a subscriber: `crossbeam`'s unbounded one, first in first out, which
refuses an event only when the receiver is gone. -/
structure EgressChannel where
  /-- What the receiver has got out of it. -/
  taken : List OutputEvent
  queued : List OutputEvent
  alive : Bool

def EgressChannel.new : EgressChannel := ⟨[], [], true⟩

/-- A `send_batch` inside `retain`: the senders it has kept and those it is not done with,
and what the first of these has still to be sent. -/
structure Sending where
  events : List OutputEvent
  kept : List Nat
  rest : List Nat
  owed : List OutputEvent

/-- `EgressBus`, with the channels made so far; a sender is the number of its channel. -/
structure EgressBus where
  channels : List EgressChannel
  subs : List Nat
  /-- The call that holds the lock. -/
  sending : Option Sending

/-- The bus of `egress_bus` before it subscribes its own receiver. -/
def EgressBus.new : EgressBus := ⟨[], [], none⟩

inductive EgressAction
  | subscribe
  /-- `send_batch` takes the lock. -/
  | acquire (events : List OutputEvent)
  /-- The call that holds the lock goes on. -/
  | send
  | release
  /-- `recv`, or one turn of `drain`. -/
  | recv (r : Nat)
  /-- The receiver is dropped. -/
  | close (r : Nat)

inductive EgressStep : EgressBus → EgressAction → EgressBus → Prop
  | subscribe {s : EgressBus} (hfree : s.sending = none) :
      EgressStep s .subscribe
        { s with
          channels := s.channels ++ [.new]
          subs := s.subs ++ [s.channels.length] }
  | acquire {s : EgressBus} {events : List OutputEvent} (hfree : s.sending = none)
      (hne : events ≠ []) :
      EgressStep s (.acquire events) { s with sending := some ⟨events, [], s.subs, events⟩ }
  | send {s : EgressBus} {events owed : List OutputEvent} {kept rest : List Nat} {r : Nat}
      {e : OutputEvent} {c : EgressChannel}
      (hsending : s.sending = some ⟨events, kept, r :: rest, e :: owed⟩)
      (hc : s.channels[r]? = some c) (halive : c.alive = true) :
      EgressStep s .send
        { s with
          channels := s.channels.set r { c with queued := c.queued ++ [e] }
          sending := some ⟨events, kept, r :: rest, owed⟩ }
  | drop {s : EgressBus} {events owed : List OutputEvent} {kept rest : List Nat} {r : Nat}
      {e : OutputEvent} {c : EgressChannel}
      (hsending : s.sending = some ⟨events, kept, r :: rest, e :: owed⟩)
      (hc : s.channels[r]? = some c) (hdead : c.alive = false) :
      EgressStep s .send { s with sending := some ⟨events, kept, rest, events⟩ }
  | keep {s : EgressBus} {events : List OutputEvent} {kept rest : List Nat} {r : Nat}
      (hsending : s.sending = some ⟨events, kept, r :: rest, []⟩) :
      EgressStep s .send { s with sending := some ⟨events, kept ++ [r], rest, events⟩ }
  | release {s : EgressBus} {events owed : List OutputEvent} {kept : List Nat}
      (hsending : s.sending = some ⟨events, kept, [], owed⟩) :
      EgressStep s .release { s with subs := kept, sending := none }
  | recv {s : EgressBus} {r : Nat} {c : EgressChannel} {e : OutputEvent}
      {queued : List OutputEvent} (hc : s.channels[r]? = some c) (halive : c.alive = true)
      (hqueued : c.queued = e :: queued) :
      EgressStep s (.recv r)
        { s with channels := s.channels.set r { c with taken := c.taken ++ [e], queued } }
  | close {s : EgressBus} {r : Nat} {c : EgressChannel} (hc : s.channels[r]? = some c)
      (halive : c.alive = true) :
      EgressStep s (.close r) { s with channels := s.channels.set r { c with alive := false } }

/-- The step an action makes, if it can be made. -/
def EgressBus.step? (s : EgressBus) : EgressAction → Option EgressBus
  | .subscribe =>
    if s.sending.isNone then
      some { s with
        channels := s.channels ++ [.new]
        subs := s.subs ++ [s.channels.length] }
    else none
  | .acquire events =>
    if s.sending.isNone ∧ events.isEmpty = false then
      some { s with sending := some ⟨events, [], s.subs, events⟩ }
    else none
  | .send =>
    match s.sending with
    | some ⟨events, kept, r :: rest, []⟩ =>
      some { s with sending := some ⟨events, kept ++ [r], rest, events⟩ }
    | some ⟨events, kept, r :: rest, e :: owed⟩ =>
      s.channels[r]?.map fun c =>
        if c.alive then
          { s with
            channels := s.channels.set r { c with queued := c.queued ++ [e] }
            sending := some ⟨events, kept, r :: rest, owed⟩ }
        else { s with sending := some ⟨events, kept, rest, events⟩ }
    | _ => none
  | .release =>
    match s.sending with
    | some ⟨_, kept, [], _⟩ => some { s with subs := kept, sending := none }
    | _ => none
  | .recv r =>
    s.channels[r]?.bind fun c =>
      match c.alive, c.queued with
      | true, e :: queued =>
        some { s with channels := s.channels.set r { c with taken := c.taken ++ [e], queued } }
      | _, _ => none
  | .close r =>
    s.channels[r]?.bind fun c =>
      if c.alive then some { s with channels := s.channels.set r { c with alive := false } }
      else none

theorem EgressBus.step?_sound {s s' : EgressBus} {a : EgressAction} (h : s.step? a = some s') :
    EgressStep s a s' := by
  cases a with
  | subscribe =>
    dsimp only [step?] at h
    split at h
    · next hfree =>
      cases h
      exact .subscribe (Option.isNone_iff_eq_none.1 hfree)
    · cases h
  | acquire events =>
    dsimp only [step?] at h
    split at h
    · next hfree =>
      cases h
      exact .acquire (Option.isNone_iff_eq_none.1 hfree.1) (by simpa using hfree.2)
    · cases h
  | send =>
    dsimp only [step?] at h
    split at h
    · next hsending =>
      cases h
      exact .keep hsending
    · next hsending =>
      obtain ⟨c, hc, rfl⟩ := Option.map_eq_some_iff.1 h
      split
      · next halive => exact .send hsending hc halive
      · next hdead => exact .drop hsending hc (by simpa using hdead)
    · cases h
  | release =>
    dsimp only [step?] at h
    split at h
    · next hsending =>
      cases h
      exact .release hsending
    · cases h
  | recv r =>
    obtain ⟨c, hc, h⟩ := Option.bind_eq_some_iff.1 h
    split at h
    · next halive hqueued =>
      cases h
      exact .recv hc halive hqueued
    · cases h
  | close r =>
    obtain ⟨c, hc, h⟩ := Option.bind_eq_some_iff.1 h
    split at h
    · next halive =>
      cases h
      exact .close hc halive
    · cases h

/-- A computed run is a run. -/
theorem EgressBus.run_of_foldlM {s s' : EgressBus} {as : List EgressAction}
    (h : as.foldlM step? s = some s') : Transition.Run EgressStep s as s' :=
  (Transition.Run.of_foldlM h).mono fun _ _ _ => step?_sound

/-! ## The shards on the bus -/

/-- Where a shard is in its loop. -/
inductive ShardPhase
  | popping
  /-- It has applied a command and is about to call `send_batch`. -/
  | applied (p : ShardTurn)
  | sending

/-- The shards of an engine and the bus they share. -/
structure ShardPlane (A : Type) where
  shards : Shards A
  phase : Nat → ShardPhase
  bus : EgressBus

inductive PlaneAction
  /-- A shard pops, appends and applies a command. -/
  | turn (i : Nat) (p : ShardTurn)
  /-- Its `send_batch` takes the lock. -/
  | publish (i : Nat) (p : ShardTurn)
  /-- Its `send_batch` returns. -/
  | release (i : Nat)
  /-- What else happens on the bus. -/
  | bus (a : EgressAction)

/-- The actions on the bus that no shard begins or ends a batch with. -/
def EgressAction.IsQuiet : EgressAction → Prop
  | .acquire _ | .release => False
  | _ => True

section

variable {A : Type} [Slab A Order] (numShards : Nat)

def ShardPlane.start (symbols : List (SymbolId × Price)) : ShardPlane A where
  shards := Shards.start symbols numShards
  phase := fun _ => .popping
  bus := .new

/-- `send_batch` returns at once when there are no events. -/
inductive PlaneStep : ShardPlane A → PlaneAction → ShardPlane A → Prop
  | turn {s : ShardPlane A} {p : ShardTurn} {s' : Shard A}
      (hphase : s.phase (shardFor p.cmd.cmd.symbol numShards) = .popping)
      (hstep : ShardStep (s.shards (shardFor p.cmd.cmd.symbol numShards)) p s') :
      PlaneStep s (.turn (shardFor p.cmd.cmd.symbol numShards) p)
        { s with
          shards := Function.update s.shards (shardFor p.cmd.cmd.symbol numShards) s'
          phase := Function.update s.phase (shardFor p.cmd.cmd.symbol numShards)
            (if p.events = [] then .popping else .applied p) }
  | publish {s : ShardPlane A} {i : Nat} {p : ShardTurn} {bus : EgressBus}
      (hphase : s.phase i = .applied p) (hstep : EgressStep s.bus (.acquire p.events) bus) :
      PlaneStep s (.publish i p) { s with phase := Function.update s.phase i .sending, bus }
  | release {s : ShardPlane A} {i : Nat} {bus : EgressBus} (hphase : s.phase i = .sending)
      (hstep : EgressStep s.bus .release bus) :
      PlaneStep s (.release i) { s with phase := Function.update s.phase i .popping, bus }
  | bus {s : ShardPlane A} {a : EgressAction} {bus : EgressBus} (hquiet : a.IsQuiet)
      (hstep : EgressStep s.bus a bus) : PlaneStep s (.bus a) { s with bus }

/-- The step an action makes, if it is one that `fuel` is enough for. -/
def ShardPlane.step? (fuel : Nat) (s : ShardPlane A) : PlaneAction → Option (ShardPlane A)
  | .turn i p =>
    match s.phase i with
    | .popping =>
      if i = shardFor p.cmd.cmd.symbol numShards then
        ((s.shards i).step? fuel p).map fun s' =>
          { s with
            shards := Function.update s.shards i s'
            phase := Function.update s.phase i (if p.events = [] then .popping else .applied p) }
      else none
    | _ => none
  | .publish i p =>
    match s.phase i with
    | .applied q =>
      if q = p then
        (s.bus.step? (.acquire p.events)).map fun bus =>
          { s with phase := Function.update s.phase i .sending, bus }
      else none
    | _ => none
  | .release i =>
    match s.phase i with
    | .sending =>
      (s.bus.step? .release).map fun bus =>
        { s with phase := Function.update s.phase i .popping, bus }
    | _ => none
  | .bus a =>
    match a with
    | .acquire _ | .release => none
    | a => (s.bus.step? a).map fun bus => { s with bus }

variable {numShards}

theorem ShardPlane.step?_sound {fuel : Nat} {s s' : ShardPlane A} {a : PlaneAction}
    (h : s.step? numShards fuel a = some s') : PlaneStep numShards s a s' := by
  cases a with
  | turn i p =>
    dsimp only [step?] at h
    split at h
    · next hphase =>
      split at h
      · next hi =>
        obtain ⟨x, hstep, rfl⟩ := Option.map_eq_some_iff.1 h
        subst hi
        exact .turn hphase (Shard.step?_sound hstep)
      · cases h
    · cases h
  | publish i p =>
    dsimp only [step?] at h
    split at h
    · next hphase =>
      split at h
      · next hp =>
        obtain ⟨bus, hstep, rfl⟩ := Option.map_eq_some_iff.1 h
        exact .publish (hp ▸ hphase) (EgressBus.step?_sound hstep)
      · cases h
    · cases h
  | release i =>
    dsimp only [step?] at h
    split at h
    · next hphase =>
      obtain ⟨bus, hstep, rfl⟩ := Option.map_eq_some_iff.1 h
      exact .release hphase (EgressBus.step?_sound hstep)
    · cases h
  | bus a =>
    cases a with
    | acquire events => cases h
    | release => cases h
    | _ =>
      obtain ⟨bus, hstep, rfl⟩ := Option.map_eq_some_iff.1 h
      exact .bus trivial (EgressBus.step?_sound hstep)

/-- A computed run is a run. -/
theorem ShardPlane.run_of_foldlM {fuel : Nat} {s s' : ShardPlane A} {as : List PlaneAction}
    (h : as.foldlM (step? numShards fuel) s = some s') :
    Transition.Run (PlaneStep numShards) s as s' :=
  (Transition.Run.of_foldlM h).mono fun _ _ _ => step?_sound

end

end Exchange
