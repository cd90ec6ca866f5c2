import Exchange.Gateway.MarketFeed
import Exchange.Verify.Publication

/-!
# What a market-data client sees

The bus never waits for a client, so a client that is slow misses messages and is not told.
What it does see comes in the order of publication, belongs to the events it is numbered
with, and is complete from the last `capacity` messages on, as many as the bus was asked to
keep; a client that keeps up misses nothing.
-/

namespace Exchange

open Transition

def MarketEvent.symbol : MarketEvent → String
  | .trade symbol .. | .snapshot symbol .. | .delta symbol .. => symbol

def MarketEvent.seq : MarketEvent → Seq
  | .trade _ _ _ _ seq _ | .snapshot _ seq _ _ | .delta _ seq _ _ => seq

/-! ## What the consumer publishes -/

/-- A builder publishes at most one message for an event. -/
theorem SnapshotBuilder.process_length (v : SnapshotBuilder) (e : OutputEvent) (n : Seq) :
    (v.process e n).2.length ≤ 1 := by
  cases e <;> simp [SnapshotBuilder.process, SnapshotBuilder.publishSnapshot]

theorem SnapshotBuilder.process_named {v : SnapshotBuilder} {e : OutputEvent} {n : Seq}
    {m : MarketEvent} (h : m ∈ (v.process e n).2) : m.symbol = v.symStr ∧ m.seq = n := by
  cases e with
  | trade =>
    cases List.mem_singleton.1 h
    exact ⟨rfl, rfl⟩
  | filled =>
    cases List.mem_singleton.1 h
    exact ⟨rfl, rfl⟩
  | partiallyFilled =>
    cases List.mem_singleton.1 h
    exact ⟨rfl, rfl⟩
  | cancelled =>
    cases List.mem_singleton.1 h
    exact ⟨rfl, rfl⟩
  | _ => cases h

/-- The order of messages on the bus: by event, and one for each symbol. -/
def InFeedOrder (m m' : MarketEvent) : Prop :=
  m.seq ≤ m'.seq ∧ (m.symbol = m'.symbol → m.seq < m'.seq)

/-- The message is one that the builder of a name publishes for the event that its number
stands for. -/
def Shows (builders : List SnapshotBuilder) (base : Nat) (events : List OutputEvent)
    (m : MarketEvent) : Prop :=
  ∃ n e v, m.seq.toNat = base + n + 1 ∧ events[n]? = some e ∧ v ∈ builders ∧
    m ∈ (v.process e m.seq).2

namespace EgressConsumer

variable {c : EgressConsumer}

theorem consumeAll_append (c : EgressConsumer) (events events' : List OutputEvent) :
    c.consumeAll (events ++ events') =
      (((c.consumeAll events).1.consumeAll events').1,
        (c.consumeAll events).2 ++ ((c.consumeAll events).1.consumeAll events').2) := by
  induction events generalizing c with
  | nil => rfl
  | cons e es ih => simp [consumeAll, ih]

theorem consumeAll_singleton (c : EgressConsumer) (e : OutputEvent) :
    c.consumeAll [e] = c.consume e := by
  simp [consumeAll]

/-- The messages for one event carry its number and different names. -/
theorem consume_ordered (hnames : (c.builders.map (·.symStr)).Nodup) (e : OutputEvent) :
    (c.consume e).2.Pairwise InFeedOrder ∧
      ∀ m ∈ (c.consume e).2, m.seq = c.seq + 1 ∧
        ∃ v ∈ c.builders, m ∈ (v.process e m.seq).2 := by
  have hmessages : (c.consume e).2 = c.builders.flatMap fun v => (v.process e (c.seq + 1)).2 := by
    simp [consume, List.flatMap_map]
  rw [hmessages]
  constructor
  · refine List.pairwise_flatMap.2 ⟨fun v _ => ?_, ?_⟩
    · -- one message at most
      have hlength := v.process_length e (c.seq + 1)
      generalize (v.process e (c.seq + 1)).2 = ms at hlength
      cases ms with
      | nil => exact .nil
      | cons m ms =>
        obtain rfl : ms = [] := by simpa using hlength
        exact List.pairwise_singleton _ _
    · refine (List.pairwise_map.1 hnames).imp fun hne m hm m' hm' => ?_
      obtain ⟨hsymbol, hseq⟩ := SnapshotBuilder.process_named hm
      obtain ⟨hsymbol', hseq'⟩ := SnapshotBuilder.process_named hm'
      refine ⟨hseq ▸ hseq' ▸ UInt64.le_refl _, fun hsame => ?_⟩
      exact absurd (hsymbol.symm.trans (hsame.trans hsymbol')) hne
  · intro m hm
    obtain ⟨v, hv, hm⟩ := List.mem_flatMap.1 hm
    obtain ⟨-, hseq⟩ := SnapshotBuilder.process_named hm
    exact ⟨hseq, v, hv, hseq.symm ▸ hm⟩

/-- **The published stream.** As long as the counter does not wrap, messages come in the
order of their events, at most one of an event under each name. -/
theorem consumeAll_ordered (events : List OutputEvent)
    (hnames : (c.builders.map (·.symStr)).Nodup)
    (hcount : c.seq.toNat + events.length < 2 ^ 64) :
    (c.consumeAll events).2.Pairwise InFeedOrder ∧
      ∀ m ∈ (c.consumeAll events).2, Shows c.builders c.seq.toNat events m := by
  induction events generalizing c with
  | nil => exact ⟨.nil, nofun⟩
  | cons e es ih =>
    obtain ⟨hfirst, hshown⟩ := consume_ordered hnames e
    have hseq : (c.consume e).1.seq.toNat = c.seq.toNat + 1 := by
      rw [List.length_cons] at hcount
      change (c.seq + 1).toNat = _
      rw [UInt64.toNat_add]
      exact Nat.mod_eq_of_lt (by simp; omega)
    have hone : (c.seq + 1).toNat = c.seq.toNat + 1 := hseq
    obtain ⟨hrest, hlater⟩ := ih (c := (c.consume e).1) (by simpa using hnames) (by
      rw [List.length_cons] at hcount
      omega)
    rw [hseq, consume_builders] at hlater
    constructor
    · refine List.pairwise_append.2 ⟨hfirst, hrest, fun m hm m' hm' => ?_⟩
      have hm := (hshown m hm).1
      obtain ⟨n, -, -, hm', -⟩ := hlater m' hm'
      have hlt : m.seq < m'.seq := by
        rw [UInt64.lt_iff_toNat_lt, hm, hone, hm']
        omega
      exact ⟨UInt64.le_of_lt hlt, fun _ => hlt⟩
    · intro m hm
      rcases List.mem_append.1 hm with hm | hm
      · obtain ⟨hnumber, v, hv, hprocess⟩ := hshown m hm
        exact ⟨0, e, v, by rw [hnumber, hone], rfl, hv, hprocess⟩
      · obtain ⟨n, e', v, hnumber, he', hv, hprocess⟩ := hlater m hm
        exact ⟨n + 1, e', v, by omega, he', hv, hprocess⟩

end EgressConsumer

/-- The builders of the gateway have different names, and those that it configures. -/
theorem builders_named {names : List String} {c : EgressConsumer} (hc : c.Starts names) :
    (c.builders.map (·.symStr)).Nodup ∧
      ∀ v ∈ c.builders, ∃ name ∈ names, v = .new (symbolToId name) name 20 := by
  have hentry : ∀ x ∈ (builderMap names).toList,
      ∃ name ∈ names, symbolToId name = x.1 ∧ x.2 = .new x.1 name 20 := by
    intro x hx
    exact mem_builderMap (OrderedMap.mem_toList_iff.1 hx)
  constructor
  · have hmap := hc.1.map (·.symStr)
    rw [List.map_map] at hmap
    refine hmap.nodup_iff.2 ?_
    have hkeys := OrderedMap.nodup_keys (builderMap names)
    rw [← Std.ExtTreeMap.map_fst_toList_eq_keys] at hkeys
    refine List.pairwise_map.2 ((List.pairwise_map.1 hkeys).imp_of_mem fun {x y} hx hy hne => ?_)
    obtain ⟨name, -, hid, hv⟩ := hentry x hx
    obtain ⟨name', -, hid', hv'⟩ := hentry y hy
    intro hsame
    refine hne ?_
    have hname : name = name' := by simpa [hv, hv', SnapshotBuilder.new] using hsame
    rw [← hid, ← hid', hname]
  · intro v hv
    obtain ⟨x, hx, rfl⟩ := List.mem_map.1 (hc.1.mem_iff.1 hv)
    obtain ⟨name, hname, hid, hv⟩ := hentry x hx
    exact ⟨name, hname, hid ▸ hv⟩

/-! ## The feed -/

def FeedAction.event? : FeedAction → List OutputEvent
  | .event e => [e]
  | _ => []

/-- The events that the consumer received. -/
def eventsOf (as : List FeedAction) : List OutputEvent := as.flatMap FeedAction.event?

@[simp] theorem eventsOf_append (as as' : List FeedAction) :
    eventsOf (as ++ as') = eventsOf as ++ eventsOf as' := by
  simp [eventsOf]

variable {kept : Nat} {c : EgressConsumer} {s s' s₁ s₂ : MarketFeed} {a : FeedAction}
  {as pre post : List FeedAction}

/-- What is stored on the bus and what is still to be published are all the messages for
the events so far; the receiver that `main` keeps is there. -/
structure Feeding (kept : Nat) (c : EgressConsumer) (events : List OutputEvent)
    (s : MarketFeed) : Prop where
  consumer : s.consumer = (c.consumeAll events).1
  published : s.bus.log ++ s.outbox = (c.consumeAll events).2
  first : ∃ x, s.bus.receivers[0]? = some x ∧ x.alive = true
  follows : ∀ (r : Nat) x, s.bus.receivers[r]? = some x → Broadcast.Follows kept s.bus.log x

theorem Feeding.start : Feeding kept c [] (.start c) := by
  refine ⟨rfl, rfl, ⟨_, rfl, rfl⟩, fun r x hx => ?_⟩
  rw [List.mem_singleton.1 (List.mem_of_getElem? hx)]
  exact .new []

/-- Nobody but its owner drops a receiver. -/
theorem first_alive {b : Broadcast.Action MarketEvent} {bus bus' : MarketBus}
    (hfirst : ∃ x, bus.receivers[0]? = some x ∧ x.alive = true)
    (hstep : Broadcast.Step kept bus b bus') (hb : b ≠ .close 0) :
    ∃ x, bus'.receivers[0]? = some x ∧ x.alive = true := by
  obtain ⟨x, hx, halive⟩ := hfirst
  have hlt := (List.getElem?_eq_some_iff.1 hx).1
  obtain ⟨x', hx'⟩ : ∃ x', bus'.receivers[0]? = some x' :=
    ⟨_, List.getElem?_eq_getElem (hlt.trans_le hstep.length_le)⟩
  refine ⟨x', hx', ?_⟩
  rcases hstep.receiver hx' with hsame | ⟨-, hzero, -⟩ | ⟨y, -, hlive, -, hmoved⟩
  · cases hx.symm.trans hsame
    exact halive
  · omega
  · rcases hmoved with ⟨-, -, rfl⟩ | ⟨m, -, -, -, rfl⟩ | ⟨hclose, -⟩
    · exact hlive
    · exact hlive
    · exact absurd hclose hb

/-- With a receiver there, a message that is sent is stored. -/
theorem send_stored {m : MarketEvent} {bus bus' : MarketBus}
    (hfirst : ∃ x, bus.receivers[0]? = some x ∧ x.alive = true)
    (hstep : Broadcast.Step kept bus (.send m) bus') : bus'.log = bus.log ++ [m] := by
  cases hstep with
  | send => rfl
  | refuse hnone =>
    obtain ⟨x, hx, halive⟩ := hfirst
    rw [hnone x (List.mem_of_getElem? hx)] at halive
    cases halive

theorem ClientAction.log_eq {b : Broadcast.Action MarketEvent} {bus bus' : MarketBus}
    (hb : ClientAction b) (hstep : Broadcast.Step kept bus b bus') : bus'.log = bus.log := by
  cases hstep with
  | send => exact hb.elim
  | _ => rfl

theorem ClientAction.ne_close {b : Broadcast.Action MarketEvent} (hb : ClientAction b) :
    b ≠ .close 0 := by
  rintro rfl
  exact hb rfl

theorem Feeding.step {events : List OutputEvent} (h : Feeding kept c events s)
    (hstep : FeedStep kept s a s') : Feeding kept c (events ++ a.event?) s' := by
  obtain ⟨hconsumer, hpublished, hfirst, hfollows⟩ := h
  cases hstep with
  | @event e hdone =>
    rw [hdone, List.append_nil] at hpublished
    have happend : c.consumeAll (events ++ [e]) =
        ((s.consumer.consume e).1, s.bus.log ++ (s.consumer.consume e).2) := by
      rw [EgressConsumer.consumeAll_append, EgressConsumer.consumeAll_singleton, ← hconsumer,
        ← hpublished]
    exact ⟨by simp [FeedAction.event?, happend], by simp [FeedAction.event?, happend],
      hfirst, hfollows⟩
  | @publish m ms bus hout hstep =>
    rw [show FeedAction.event? .publish = [] from rfl, List.append_nil]
    refine ⟨hconsumer, ?_, first_alive hfirst hstep nofun, hstep.follows_all hfollows⟩
    rw [← hpublished, hout, send_stored hfirst hstep, List.append_assoc]
    rfl
  | @client b bus hb hstep =>
    rw [show FeedAction.event? (.client b) = [] from rfl, List.append_nil]
    refine ⟨hconsumer, ?_, first_alive hfirst hstep hb.ne_close, hstep.follows_all hfollows⟩
    rw [← hpublished, hb.log_eq hstep]

theorem feeding_run (h : Run (FeedStep kept) (.start c) as s) :
    Feeding kept c (eventsOf as) s := by
  refine h.invariant (I := fun as s => Feeding kept c (eventsOf as) s) .start ?_
  intro as s a s' _ ih hstep
  have hnext := ih.step hstep
  rw [eventsOf_append]
  simpa [eventsOf] using hnext

/-- The bus by itself. -/
theorem feed_bus (h : Run (FeedStep kept) s as s') :
    ∃ bs, Run (Broadcast.Step kept) s.bus bs s'.bus ∧
      ∀ r, .lag r ∈ bs → .client (.lag r) ∈ as := by
  induction h with
  | nil => exact ⟨[], .nil, nofun⟩
  | @snoc as s s' a _ hstep ih =>
    obtain ⟨bs, hrun, hlags⟩ := ih
    have hkeep : ∀ r, .lag r ∈ bs → FeedAction.client (.lag r) ∈ as ++ [a] := fun r hr =>
      List.mem_append_left _ (hlags r hr)
    cases hstep with
    | event => exact ⟨bs, hrun, hkeep⟩
    | @publish m ms bus hout hstep =>
      refine ⟨bs ++ [.send m], hrun.snoc hstep, fun r hr => ?_⟩
      rcases List.mem_append.1 hr with hr | hr
      · exact hkeep r hr
      · cases List.mem_singleton.1 hr
    | @client b bus hb hstep =>
      refine ⟨bs ++ [b], hrun.snoc hstep, fun r hr => ?_⟩
      rcases List.mem_append.1 hr with hr | hr
      · exact hkeep r hr
      · rw [← List.mem_singleton.1 hr]
        exact List.mem_append_right _ List.mem_cons_self

/-- The consumer of two names. -/
def twoNames : EgressConsumer := ⟨(builderMap ["AAPL", "MSFT"]).toList.map Prod.snd, 0⟩

theorem twoNames_starts : twoNames.Starts ["AAPL", "MSFT"] := ⟨.refl _, rfl⟩

/-- Three events with two messages each, and a client that reads the first message and then
lags behind a bus that keeps four. -/
def laggingClient : List FeedAction :=
  [.event (.cancelled 7 1), .publish, .publish, .client (.recv 1),
    .event (.trade 2 2 1 100 5 .buy 0), .publish, .publish, .event (.filled 1 2), .publish,
    .publish, .client (.lag 1), .client (.recv 1), .client (.recv 1), .client (.recv 1),
    .client (.recv 1)]

/-- A message as a client tells it from others. -/
def MarketEvent.tag (m : MarketEvent) : String × Seq := (m.symbol, m.seq)

/-- It misses the message of the second name for the first event. -/
theorem laggingClient_sees : ∃ (s₂ s : MarketFeed) (x : Broadcast.Receiver MarketEvent),
    FeedStep 4 (.start twoNames) (.client .subscribe) s₂ ∧ Run (FeedStep 4) s₂ laggingClient s ∧
      s.bus.receivers[1]? = some x ∧ s.bus.log.length = 6 ∧ x.next = 6 ∧
      x.got.map MarketEvent.tag =
        [("AAPL", 1), ("AAPL", 2), ("MSFT", 2), ("AAPL", 3), ("MSFT", 3)] := by
  have hok : (((MarketFeed.start twoNames).step? 4 (.client .subscribe)).bind fun s₂ =>
      (laggingClient.foldlM (MarketFeed.step? 4) s₂).map fun s => (s.bus.log.length,
        s.bus.receivers[1]?.map fun x => (x.next, x.got.map MarketEvent.tag))) =
      some (6, some (6, [("AAPL", 1), ("AAPL", 2), ("MSFT", 2), ("AAPL", 3), ("MSFT", 3)])) := by
    decide +kernel
  obtain ⟨s₂, hconnect, hok⟩ := Option.bind_eq_some_iff.1 hok
  obtain ⟨s, hrun, hok⟩ := Option.map_eq_some_iff.1 hok
  obtain ⟨hlog, hok⟩ := Prod.mk.inj hok
  obtain ⟨x, hx, hok⟩ := Option.map_eq_some_iff.1 hok
  obtain ⟨hnext, hgot⟩ := Prod.mk.inj hok
  exact ⟨s₂, s, x, MarketFeed.step?_sound hconnect, MarketFeed.run_of_foldlM hrun, hx, hlog,
    hnext, hgot⟩

/-- **What a client misses.** Everything published for the events so far is on the bus or
about to be. Of the messages `since` it connected, of which it has passed over the first
`n`, a client has got a selection in order with every one of them that is among the last
`capacity`, and all of them if it never lagged. -/
theorem feed_delivers {capacity : Nat} (hkept : Broadcast.Retains capacity kept)
    (hpre : Run (FeedStep kept) (.start c) pre s₁)
    (hconnect : FeedStep kept s₁ (.client .subscribe) s₂) (hpost : Run (FeedStep kept) s₂ post s) :
    ∃ x since n, s.bus.receivers[s₁.bus.receivers.length]? = some x ∧
      s₁.bus.log ++ since ++ s.outbox = (c.consumeAll (eventsOf pre ++ eventsOf post)).2 ∧
      n ≤ since.length ∧ x.next = s₁.bus.log.length + n ∧
      x.got.Sublist (since.take n) ∧
      (since.take n).drop (since.length - capacity) <:+ x.got ∧
      (.client (.lag s₁.bus.receivers.length) ∉ post → x.got = since.take n) := by
  obtain ⟨hsub⟩ : Nonempty (Broadcast.Step kept s₁.bus .subscribe s₂.bus) := by
    cases hconnect with
    | client _ hstep => exact ⟨hstep⟩
  obtain ⟨bs, hrun, hlags⟩ := feed_bus hpost
  obtain ⟨x, hx, hstart, ⟨since, hsince⟩, hfollows, hwhole⟩ := Broadcast.run_follows hsub hrun
  have hrecent := hfollows.retained hkept
  obtain ⟨hle, hnext, hsublist, -⟩ := hfollows
  have hlength : s.bus.log.length = s₁.bus.log.length + since.length := by
    rw [hsince, List.length_append]
  obtain ⟨n, hn⟩ : ∃ n, x.next = s₁.bus.log.length + n := by
    rw [hstart] at hle
    exact ⟨_, (Nat.add_sub_of_le hle).symm⟩
  -- positions counted from where the client subscribed
  have hpart : ∀ i, Broadcast.between s.bus.log (s₁.bus.log.length + i) x.next =
      (since.take n).drop i := by
    intro i
    rw [hsince, hn]
    exact Broadcast.between_length_append _ _ _
  have hall : Broadcast.between s.bus.log x.start x.next = since.take n := by
    rw [hstart]
    exact hpart 0
  have hlast : max x.start (s.bus.log.length - capacity) =
      s₁.bus.log.length + (since.length - capacity) := by omega
  refine ⟨x, since, n, hx, ?_, by omega, hn, hall ▸ hsublist, ?_, fun hnone => ?_⟩
  · have hfeeding := feeding_run ((hpre.snoc hconnect).append hpost)
    rw [← hsince, hfeeding.published]
    simp [eventsOf, FeedAction.event?]
  · rwa [hlast, hpart] at hrecent
  · rw [← hall]
    exact hwhole fun hlag => hnone (hlags _ hlag)

/-- The bus was asked for three messages and keeps four, a power of two. -/
theorem feed_delivers_sample : ∃ (s : MarketFeed) (x : Broadcast.Receiver MarketEvent)
    (since : List MarketEvent), s.bus.receivers[1]? = some x ∧ since.length = 6 ∧
      x.got.map MarketEvent.tag =
        [("AAPL", 1), ("AAPL", 2), ("MSFT", 2), ("AAPL", 3), ("MSFT", 3)] ∧
      since ++ s.outbox = (twoNames.consumeAll (eventsOf laggingClient)).2 ∧
      x.got.Sublist since ∧ since.drop 3 <:+ x.got := by
  obtain ⟨s₂, s, x, hconnect, hpost, hx, hlog, hnext, hgot⟩ := laggingClient_sees
  have hkept : Broadcast.Retains 3 4 := ⟨by omega, by omega⟩
  obtain ⟨x', since, n, hx', hstream, hn, hnext', hsublist, hrecent, -⟩ :=
    feed_delivers hkept .nil hconnect hpost
  obtain rfl : x' = x := Option.some.inj (hx'.symm.trans hx)
  have hstored := (feeding_run ((Run.nil.snoc hconnect).append hpost)).published
  have hsince : s.bus.log = since := List.append_cancel_right (hstored.trans hstream.symm)
  have hlength : since.length = 6 := hsince ▸ hlog
  have hall : since.take n = since := List.take_of_length_le (by
    have hsix : n = 6 := by simpa [MarketFeed.start, marketBus, hnext] using hnext'.symm
    omega)
  rw [hall] at hsublist hrecent
  rw [hlength] at hrecent
  exact ⟨s, x', since, hx, hlength, hgot, hstream, hsublist, hrecent⟩

/-- **What a client sees.** Until the event counter wraps, every client sees messages in the
order of their events, at most one of an event under each name, and each is what the
builder of a configured name publishes for the event with that number. -/
theorem feed_ordered {names : List String} (hc : c.Starts names)
    (h : Run (FeedStep kept) (.start c) as s) (hcount : (eventsOf as).length < 2 ^ 64) :
    ∀ x ∈ s.bus.receivers, x.got.Pairwise InFeedOrder ∧
      ∀ m ∈ x.got, ∃ n e, ∃ name ∈ names, m.seq.toNat = n + 1 ∧ (eventsOf as)[n]? = some e ∧
        m ∈ ((SnapshotBuilder.new (symbolToId name) name 20).process e m.seq).2 := by
  intro x hx
  obtain ⟨r, hr⟩ := List.getElem?_of_mem hx
  have hfeeding := feeding_run h
  obtain ⟨hnames, hconfigured⟩ := builders_named hc
  obtain ⟨hordered, hshows⟩ := c.consumeAll_ordered (eventsOf as) hnames (by
    rwa [hc.2, UInt64.toNat_zero, Nat.zero_add])
  have hsublist : x.got.Sublist (c.consumeAll (eventsOf as)).2 := by
    rw [← hfeeding.published]
    refine (hfeeding.follows r x hr).sublist.trans ?_
    refine ((List.drop_sublist _ _).trans (List.take_sublist _ _)).trans ?_
    exact List.sublist_append_left _ _
  refine ⟨hordered.sublist hsublist, fun m hm => ?_⟩
  obtain ⟨n, e, v, hnumber, he, hv, hprocess⟩ := hshows m (hsublist.subset hm)
  obtain ⟨name, hname, rfl⟩ := hconfigured v hv
  exact ⟨n, e, name, hname, by simpa [hc.2] using hnumber, he, hprocess⟩

theorem feed_ordered_sample : ∃ (s : MarketFeed) (x : Broadcast.Receiver MarketEvent),
    s.bus.receivers[1]? = some x ∧
      x.got.map MarketEvent.tag =
        [("AAPL", 1), ("AAPL", 2), ("MSFT", 2), ("AAPL", 3), ("MSFT", 3)] ∧
      x.got.Pairwise InFeedOrder := by
  obtain ⟨s₂, s, x, hconnect, hpost, hx, -, -, hgot⟩ := laggingClient_sees
  have hall := feed_ordered twoNames_starts ((Run.nil.snoc hconnect).append hpost)
    (by simp [eventsOf, FeedAction.event?, laggingClient])
  exact ⟨s, x, hx, hgot, (hall x (List.mem_of_getElem? hx)).1⟩

end Exchange
