import Exchange.Engine.EgressBus
import Exchange.Verify.Sharding

/-!
# Delivery on the egress bus

Whatever the shards and the receivers do in between, the channel of a subscriber takes
up the batches sent since it subscribed, whole and in the order of the lock. So a
subscriber sees the shards as if they handled one command at a time.
-/

namespace Exchange

open Transition

variable {s s' : EgressBus} {a : EgressAction} {r : Nat} {sent : List OutputEvent}

def EgressAction.batch : EgressAction → List OutputEvent
  | .acquire events => events
  | _ => []

theorem EgressAction.batch_of_quiet (h : a.IsQuiet) : a.batch = [] := by
  cases a with
  | acquire events => cases h
  | _ => rfl

/-- The batches begun, in the order of the lock. -/
def batches (as : List EgressAction) : List OutputEvent := as.flatMap EgressAction.batch

/-- The channels made. -/
def channelsMade (as : List EgressAction) : Nat :=
  as.countP fun a => match a with
    | .subscribe => true
    | _ => false

/-- What the batch under way has still to send to a subscriber. -/
def Sending.owedTo (x : Sending) (r : Nat) : List OutputEvent :=
  if x.rest.head? = some r then x.owed else if r ∈ x.rest then x.events else []

namespace EgressBus

/-- The senders the bus has, also while `retain` goes through them. -/
def senders (s : EgressBus) : List Nat :=
  match s.sending with
  | none => s.subs
  | some x => x.kept ++ x.rest

def owedTo (s : EgressBus) (r : Nat) : List OutputEvent :=
  match s.sending with
  | none => []
  | some x => x.owedTo r

theorem senders_of_sending {x : Sending} (h : s.sending = some x) :
    s.senders = x.kept ++ x.rest := by
  simp [senders, h]

theorem senders_of_free (h : s.sending = none) : s.senders = s.subs := by
  simp [senders, h]

theorem owedTo_of_sending {x : Sending} (h : s.sending = some x) : s.owedTo r = x.owedTo r := by
  simp [owedTo, h]

theorem owedTo_of_free (h : s.sending = none) : s.owedTo r = [] := by
  simp [owedTo, h]

end EgressBus

/-- A sender that is not at the head does not notice the head. -/
theorem Sending.owedTo_cons_of_ne {events owed : List OutputEvent} {kept rest : List Nat}
    {r₀ : Nat} (h : r ≠ r₀) :
    Sending.owedTo ⟨events, kept, r₀ :: rest, owed⟩ r =
      Sending.owedTo ⟨events, [], rest, events⟩ r := by
  have hhead : (r₀ :: rest).head? ≠ some r := by simpa using Ne.symm h
  unfold Sending.owedTo
  dsimp only
  rw [if_neg hhead]
  by_cases hr : r ∈ rest
  · simp [h, hr]
  · have hrest : rest.head? ≠ some r := fun hrest => hr (List.mem_of_mem_head? hrest)
    simp [h, hr, hrest]

/-- The sender at the head is owed what the batch has left. -/
@[simp] theorem Sending.owedTo_head {events owed : List OutputEvent} {kept rest : List Nat} :
    Sending.owedTo ⟨events, kept, r :: rest, owed⟩ r = owed := by
  simp [Sending.owedTo]

/-- A batch that begins is owed to every sender whole. -/
theorem Sending.owedTo_start {events : List OutputEvent} {subs : List Nat} (h : r ∈ subs) :
    Sending.owedTo ⟨events, [], subs, events⟩ r = events := by
  simp [Sending.owedTo, h]

/-- A sender that `retain` is done with is owed nothing. -/
theorem Sending.owedTo_of_notMem {x : Sending} (h : r ∉ x.rest) : x.owedTo r = [] := by
  have hhead : x.rest.head? ≠ some r := fun hhead => h (List.mem_of_mem_head? hhead)
  simp [Sending.owedTo, h, hhead]

/-! ## The subscribers of a bus -/

/-- The senders are different ones, and those of all live receivers are there. -/
structure BusSound (s : EgressBus) : Prop where
  nodup : s.senders.Nodup
  bound : ∀ r ∈ s.senders, r < s.channels.length
  known : ∀ r c, s.channels[r]? = some c → c.alive = true → r ∈ s.senders

theorem BusSound.new : BusSound .new := by
  constructor
  · exact List.nodup_nil
  · intro r hr
    cases hr
  · intro r c hc
    cases hc

/-- A channel after one of them is replaced. -/
theorem getElem?_set_channel {l : List EgressChannel} {r₀ : Nat} {c c₀ c' : EgressChannel}
    (hc₀ : l[r₀]? = some c₀) (hc : (l.set r₀ c')[r]? = some c) :
    r = r₀ ∧ c = c' ∨ r ≠ r₀ ∧ l[r]? = some c := by
  by_cases hr : r = r₀
  · subst hr
    rw [List.getElem?_set_self (List.getElem?_eq_some_iff.1 hc₀).1] at hc
    exact .inl ⟨rfl, (Option.some.inj hc).symm⟩
  · rw [List.getElem?_set_ne (Ne.symm hr)] at hc
    exact .inr ⟨hr, hc⟩

/-- Nothing changes but who has been visited. -/
theorem BusSound.visit {sending : Option Sending} {subs : List Nat} (h : BusSound s)
    (hsenders : EgressBus.senders { s with subs, sending } = s.senders) :
    BusSound { s with subs, sending } := by
  refine ⟨hsenders ▸ h.nodup, fun r hr => ?_, fun r c hc hlive => ?_⟩
  · rw [hsenders] at hr
    exact h.bound r hr
  · rw [hsenders]
    exact h.known r c hc hlive

/-- Replacing a channel keeps the bus in order, unless a dead receiver comes to life. -/
theorem BusSound.set {c c' : EgressChannel} {sending : Option Sending} (h : BusSound s)
    (hc : s.channels[r]? = some c) (halive : c'.alive = true → c.alive = true)
    (hsenders : EgressBus.senders { s with sending } = s.senders) :
    BusSound { s with channels := s.channels.set r c', sending } := by
  have hsame : EgressBus.senders { s with channels := s.channels.set r c', sending } =
      s.senders := hsenders
  constructor
  · rw [hsame]
    exact h.nodup
  · intro r' hr'
    rw [hsame] at hr'
    simpa using h.bound r' hr'
  · intro r' d hd hlive
    rw [hsame]
    rcases getElem?_set_channel hc hd with ⟨rfl, rfl⟩ | ⟨-, hd⟩
    · exact h.known r' c hc (halive hlive)
    · exact h.known r' d hd hlive

/-- A new sender is behind those there are, and its channel is the last one. -/
theorem BusSound.subscribe (h : BusSound s) (hfree : s.sending = none) :
    BusSound
      { s with channels := s.channels ++ [.new], subs := s.subs ++ [s.channels.length] } := by
  have hsenders := EgressBus.senders_of_free hfree
  obtain ⟨hnodup, hbound, hknown⟩ := h
  rw [hsenders] at hnodup hbound
  have hsenders' : EgressBus.senders
      { s with channels := s.channels ++ [.new], subs := s.subs ++ [s.channels.length] } =
        s.subs ++ [s.channels.length] := EgressBus.senders_of_free hfree
  constructor
  · rw [hsenders']
    refine List.nodup_append.2 ⟨hnodup, List.nodup_singleton _, fun r hr r' hr' => ?_⟩
    rw [List.mem_singleton.1 hr']
    exact Nat.ne_of_lt (hbound r hr)
  · intro r hr
    rw [hsenders'] at hr
    rw [List.length_append, List.length_singleton]
    rcases List.mem_append.1 hr with hr | hr
    · exact Nat.lt_succ_of_lt (hbound r hr)
    · exact List.mem_singleton.1 hr ▸ Nat.lt_succ_self _
  · intro r c hc hlive
    rw [hsenders', List.mem_append, List.mem_singleton]
    by_cases hr : r < s.channels.length
    · rw [List.getElem?_append_left hr] at hc
      exact .inl (hsenders ▸ hknown r c hc hlive)
    · have hlt := (List.getElem?_eq_some_iff.1 hc).1
      rw [List.length_append, List.length_singleton] at hlt
      exact .inr (by omega)

/-- The sender left out is one of a receiver that is gone. -/
theorem BusSound.drop {events owed : List OutputEvent} {kept rest : List Nat} {r₀ : Nat}
    {c₀ : EgressChannel} (h : BusSound s)
    (hsending : s.sending = some ⟨events, kept, r₀ :: rest, owed⟩)
    (hc₀ : s.channels[r₀]? = some c₀) (hdead : c₀.alive = false) :
    BusSound { s with sending := some ⟨events, kept, rest, events⟩ } := by
  have hsenders := EgressBus.senders_of_sending hsending
  obtain ⟨hnodup, hbound, hknown⟩ := h
  rw [hsenders] at hnodup hbound
  have hsub : (kept ++ rest).Sublist (kept ++ r₀ :: rest) :=
    (List.sublist_cons_self _ _).append_left _
  refine ⟨hnodup.sublist hsub, fun r hr => hbound r (hsub.subset hr), fun r d hd hlive => ?_⟩
  have hmem := hknown r d hd hlive
  rw [hsenders] at hmem
  have hne : r ≠ r₀ := by
    rintro rfl
    rw [hc₀] at hd
    cases hd
    rw [hdead] at hlive
    cases hlive
  rcases List.mem_append.1 hmem with hr | hr
  · exact List.mem_append_left _ hr
  · exact List.mem_append_right _ ((List.mem_cons.1 hr).resolve_left hne)

theorem BusSound.step (h : BusSound s) (hstep : EgressStep s a s') : BusSound s' := by
  cases hstep with
  | subscribe hfree => exact h.subscribe hfree
  | acquire hfree => exact h.visit (EgressBus.senders_of_free hfree).symm
  | send hsending hc halive =>
    exact h.set hc (fun _ => halive) (EgressBus.senders_of_sending hsending).symm
  | drop hsending hc hdead => exact h.drop hsending hc hdead
  | keep hsending =>
    refine h.visit ?_
    rw [EgressBus.senders_of_sending hsending]
    exact (List.append_cons ..).symm
  | release hsending =>
    refine h.visit ?_
    rw [EgressBus.senders_of_sending hsending]
    exact (List.append_nil _).symm
  | recv hc halive => exact h.set hc (fun _ => halive) rfl
  | close hc => exact h.set hc nofun rfl

theorem run_busSound {as : List EgressAction} (h : Run EgressStep .new as s) : BusSound s :=
  h.invariant (I := fun _ s => BusSound s) .new fun _ _ _ _ _ ih hstep => ih.step hstep

/-! ## What a subscriber gets -/

/-- The channel has taken up no more than the events sent, in their order, and all of them
but for what the batch under way still owes it as long as its receiver is there. -/
def Gets (s : EgressBus) (r : Nat) (sent : List OutputEvent) : Prop :=
  ∃ c, s.channels[r]? = some c ∧ c.taken ++ c.queued <+: sent ∧
    (c.alive = true → c.taken ++ c.queued ++ s.owedTo r = sent)

/-- Another channel is replaced. -/
theorem Gets.other {r₀ : Nat} {c' : EgressChannel} {sending : Option Sending}
    (h : Gets s r sent) (hr : r ≠ r₀)
    (howed : EgressBus.owedTo { s with sending } r = s.owedTo r) :
    Gets { s with channels := s.channels.set r₀ c', sending } r sent := by
  obtain ⟨c, hc, hpre, hall⟩ := h
  refine ⟨c, ?_, hpre, fun hlive => ?_⟩
  · rw [List.getElem?_set_ne (Ne.symm hr)]
    exact hc
  · rw [← hall hlive]
    exact congrArg _ howed

/-- Its own channel is replaced. -/
theorem Gets.own {c c' : EgressChannel} {sending : Option Sending}
    (hc : s.channels[r]? = some c) (hpre : c'.taken ++ c'.queued <+: sent)
    (hall : c'.alive = true →
      c'.taken ++ c'.queued ++ EgressBus.owedTo { s with sending } r = sent) :
    Gets { s with channels := s.channels.set r c', sending } r sent :=
  ⟨c', List.getElem?_set_self (List.getElem?_eq_some_iff.1 hc).1, hpre, hall⟩

/-- No channel changes, and the batch under way owes a live receiver what it owed. -/
theorem Gets.visit {sending : Option Sending} {subs : List Nat} (h : Gets s r sent)
    (howed : ∀ c, s.channels[r]? = some c → c.alive = true →
      EgressBus.owedTo { s with subs, sending } r = s.owedTo r) :
    Gets { s with subs, sending } r sent := by
  obtain ⟨c, hc, hpre, hall⟩ := h
  refine ⟨c, hc, hpre, fun hlive => ?_⟩
  rw [howed c hc hlive]
  exact hall hlive

/-- A new channel leaves the others as they are. -/
theorem Gets.subscribe (h : Gets s r sent) (hfree : s.sending = none) (c₀ : EgressChannel)
    (subs : List Nat) : Gets { s with channels := s.channels ++ [c₀], subs } r sent := by
  obtain ⟨c, hc, hpre, hall⟩ := h
  refine ⟨c, ?_, hpre, fun hlive => ?_⟩
  · rw [List.getElem?_append_left (List.getElem?_eq_some_iff.1 hc).1]
    exact hc
  · have hsame := hall hlive
    rw [EgressBus.owedTo_of_free hfree] at hsame
    rwa [EgressBus.owedTo_of_free (by exact hfree)]

/-- The batch that begins is the last one sent. -/
theorem Gets.acquire (hs : BusSound s) (h : Gets s r sent) (hfree : s.sending = none)
    (events : List OutputEvent) :
    Gets { s with sending := some ⟨events, [], s.subs, events⟩ } r (sent ++ events) := by
  obtain ⟨c, hc, hpre, hall⟩ := h
  refine ⟨c, hc, hpre.trans (List.prefix_append _ _), fun hlive => ?_⟩
  have hsame := hall hlive
  rw [EgressBus.owedTo_of_free hfree, List.append_nil] at hsame
  have hmem := hs.known r c hc hlive
  rw [EgressBus.senders_of_free hfree] at hmem
  rw [EgressBus.owedTo_of_sending rfl, Sending.owedTo_start hmem, hsame]

/-- One event moves from the batch under way into the channel at the head. -/
theorem Gets.send {events owed : List OutputEvent} {kept rest : List Nat} {r₀ : Nat}
    {e : OutputEvent} {c₀ : EgressChannel} (h : Gets s r sent)
    (hsending : s.sending = some ⟨events, kept, r₀ :: rest, e :: owed⟩)
    (hc₀ : s.channels[r₀]? = some c₀) (halive : c₀.alive = true) :
    Gets { s with
      channels := s.channels.set r₀ { c₀ with queued := c₀.queued ++ [e] }
      sending := some ⟨events, kept, r₀ :: rest, owed⟩ } r sent := by
  by_cases hr : r = r₀
  · subst hr
    obtain ⟨c, hc, -, hall⟩ := h
    obtain rfl : c = c₀ := Option.some.inj (hc.symm.trans hc₀)
    have hsame := hall halive
    rw [EgressBus.owedTo_of_sending hsending, Sending.owedTo_head] at hsame
    have hmoved : c.taken ++ (c.queued ++ [e]) ++ owed = sent := by
      simpa using hsame
    refine Gets.own hc ⟨owed, hmoved⟩ fun _ => ?_
    rw [EgressBus.owedTo_of_sending rfl, Sending.owedTo_head]
    exact hmoved
  · refine h.other hr ?_
    rw [EgressBus.owedTo_of_sending hsending, EgressBus.owedTo_of_sending rfl,
      Sending.owedTo_cons_of_ne hr, Sending.owedTo_cons_of_ne hr]

/-- `retain` is done with a sender: it is owed nothing more, and it comes up once only. -/
theorem Gets.keep {events : List OutputEvent} {kept rest : List Nat} {r₀ : Nat}
    (hs : BusSound s) (h : Gets s r sent)
    (hsending : s.sending = some ⟨events, kept, r₀ :: rest, []⟩) :
    Gets { s with sending := some ⟨events, kept ++ [r₀], rest, events⟩ } r sent := by
  refine h.visit fun c hc hlive => ?_
  rw [EgressBus.owedTo_of_sending rfl, EgressBus.owedTo_of_sending hsending]
  by_cases hr : r = r₀
  · subst hr
    have hnodup := hs.nodup
    rw [EgressBus.senders_of_sending hsending] at hnodup
    have hnot : r ∉ rest := (List.nodup_cons.1 (List.nodup_append.1 hnodup).2.1).1
    rw [Sending.owedTo_head, Sending.owedTo_of_notMem hnot]
  · rw [Sending.owedTo_cons_of_ne hr]
    rfl

/-- The sender left out is one of a receiver that is gone. -/
theorem Gets.drop {events owed : List OutputEvent} {kept rest : List Nat} {r₀ : Nat}
    {c₀ : EgressChannel} (h : Gets s r sent)
    (hsending : s.sending = some ⟨events, kept, r₀ :: rest, owed⟩)
    (hc₀ : s.channels[r₀]? = some c₀) (hdead : c₀.alive = false) :
    Gets { s with sending := some ⟨events, kept, rest, events⟩ } r sent := by
  refine h.visit fun c hc hlive => ?_
  have hr : r ≠ r₀ := by
    rintro rfl
    rw [hc] at hc₀
    cases hc₀
    rw [hdead] at hlive
    cases hlive
  rw [EgressBus.owedTo_of_sending rfl, EgressBus.owedTo_of_sending hsending,
    Sending.owedTo_cons_of_ne hr]
  rfl

/-- The event received moves from what is queued to what is taken. -/
theorem Gets.recv {r₀ : Nat} {c₀ : EgressChannel} {e : OutputEvent}
    {queued : List OutputEvent} (h : Gets s r sent) (hc₀ : s.channels[r₀]? = some c₀)
    (hqueued : c₀.queued = e :: queued) :
    Gets { s with
      channels := s.channels.set r₀ { c₀ with taken := c₀.taken ++ [e], queued } }
      r sent := by
  by_cases hr : r = r₀
  · subst hr
    obtain ⟨c, hc, hpre, hall⟩ := h
    obtain rfl : c = c₀ := Option.some.inj (hc.symm.trans hc₀)
    have hmoved : c.taken ++ [e] ++ queued = c.taken ++ c.queued := by
      simp [hqueued]
    refine Gets.own hc (hmoved ▸ hpre) fun hlive => ?_
    rw [hmoved]
    exact hall hlive
  · exact h.other hr rfl

/-- A receiver that goes away keeps what its channel has taken up. -/
theorem Gets.close {r₀ : Nat} {c₀ : EgressChannel} (h : Gets s r sent)
    (hc₀ : s.channels[r₀]? = some c₀) :
    Gets { s with channels := s.channels.set r₀ { c₀ with alive := false } } r sent := by
  by_cases hr : r = r₀
  · subst hr
    obtain ⟨c, hc, hpre, -⟩ := h
    obtain rfl : c = c₀ := Option.some.inj (hc.symm.trans hc₀)
    exact Gets.own hc hpre nofun
  · exact h.other hr rfl

theorem Gets.step (hs : BusSound s) (h : Gets s r sent) (hstep : EgressStep s a s') :
    Gets s' r (sent ++ a.batch) := by
  cases hstep with
  | acquire hfree => exact h.acquire hs hfree _
  | subscribe hfree =>
    rw [EgressAction.batch_of_quiet (a := .subscribe) trivial, List.append_nil]
    exact h.subscribe hfree _ _
  | send hsending hc halive =>
    rw [EgressAction.batch_of_quiet (a := .send) trivial, List.append_nil]
    exact h.send hsending hc halive
  | drop hsending hc hdead =>
    rw [EgressAction.batch_of_quiet (a := .send) trivial, List.append_nil]
    exact h.drop hsending hc hdead
  | keep hsending =>
    rw [EgressAction.batch_of_quiet (a := .send) trivial, List.append_nil]
    exact h.keep hs hsending
  | release hsending =>
    rw [show EgressAction.batch .release = [] from rfl, List.append_nil]
    refine h.visit fun _ _ _ => ?_
    rw [EgressBus.owedTo_of_sending hsending]
    rfl
  | recv hc halive hqueued =>
    rw [EgressAction.batch_of_quiet (a := .recv _) trivial, List.append_nil]
    exact h.recv hc hqueued
  | close hc =>
    rw [EgressAction.batch_of_quiet (a := .close _) trivial, List.append_nil]
    exact h.close hc

theorem Gets.run {as : List EgressAction} (hs : BusSound s) (h : Gets s r sent)
    (hrun : Run EgressStep s as s') : BusSound s' ∧ Gets s' r (sent ++ batches as) := by
  induction hrun with
  | nil => exact ⟨hs, by simpa [batches] using h⟩
  | snoc _ hstep ih =>
    refine ⟨ih.1.step hstep, ?_⟩
    have hnext := ih.2.step ih.1 hstep
    rw [List.append_assoc] at hnext
    simpa [batches] using hnext

theorem length_channels {as : List EgressAction} (h : Run EgressStep .new as s) :
    s.channels.length = channelsMade as := by
  refine h.invariant (I := fun as s => s.channels.length = channelsMade as) rfl ?_
  intro as s a s' _ ih hstep
  unfold channelsMade at ih ⊢
  rw [List.countP_append, ← ih]
  cases hstep <;> simp

/-- A subscriber starts with an empty channel of its own. -/
theorem Gets.subscribed {pre : List EgressAction} (hpre : Run EgressStep .new pre s)
    (hstep : EgressStep s .subscribe s') : BusSound s' ∧ Gets s' (channelsMade pre) [] := by
  refine ⟨(run_busSound hpre).step hstep, ?_⟩
  cases hstep with
  | subscribe hfree =>
    refine ⟨.new, ?_, List.nil_prefix, fun _ => ?_⟩
    · rw [← length_channels hpre]
      simp
    · rw [EgressBus.owedTo_of_free (by exact hfree)]
      rfl

/-- **Delivery.** From the moment it subscribes, a receiver that stays gets every event of
every batch once, in the order in which the batches took the lock and no other event in
between; one that goes away has got a beginning of them. -/
theorem egress_delivers {pre post : List EgressAction}
    (h : Run EgressStep .new (pre ++ .subscribe :: post) s) :
    Gets s (channelsMade pre) (batches post) := by
  obtain ⟨s₁, hpre, hrest⟩ := h.split
  obtain ⟨s₂, hstep, hpost⟩ := hrest.of_cons
  obtain ⟨hsound, hempty⟩ := Gets.subscribed hpre hstep
  simpa using (hempty.run hsound hpost).2

/-- Two subscribers and two batches of two events: the second subscriber goes away after
the first batch, and the second batch still owes an event to the first. -/
def twoBatches : List EgressAction :=
  [.acquire [.cancelled 7 1, .cancelled 8 2], .send, .send, .send, .send, .send, .send, .release,
    .recv 0, .recv 0, .recv 1, .close 1, .acquire [.cancelled 9 3, .cancelled 4 4], .send]

theorem egress_delivers_sample : ∃ s : EgressBus,
    s.channels.map (·.taken) = [[.cancelled 7 1, .cancelled 8 2], [.cancelled 7 1]] ∧
      s.channels.map (·.queued) = [[.cancelled 9 3], [.cancelled 8 2]] ∧
      s.channels.map (·.alive) = [true, false] ∧ s.owedTo 0 = [.cancelled 4 4] ∧
      Gets s 0 (batches (.subscribe :: twoBatches)) ∧ Gets s 1 (batches twoBatches) := by
  have hok : ∃ s : EgressBus, List.foldlM EgressBus.step? .new
        (.subscribe :: .subscribe :: twoBatches) = some s ∧
      s.channels.map (·.taken) = [[.cancelled 7 1, .cancelled 8 2], [.cancelled 7 1]] ∧
      s.channels.map (·.queued) = [[.cancelled 9 3], [.cancelled 8 2]] ∧
      s.channels.map (·.alive) = [true, false] ∧ s.owedTo 0 = [.cancelled 4 4] :=
    ⟨_, rfl, rfl, rfl, rfl, rfl⟩
  obtain ⟨s, hrun, htaken, hqueued, halive, howed⟩ := hok
  have hrun := EgressBus.run_of_foldlM hrun
  have hfirst : Run EgressStep .new ([] ++ .subscribe :: .subscribe :: twoBatches) s := hrun
  have hsecond : Run EgressStep .new ([.subscribe] ++ .subscribe :: twoBatches) s := hrun
  exact ⟨s, htaken, hqueued, halive, howed, egress_delivers hfirst, egress_delivers hsecond⟩

/-! ## Receivers that are gone -/

/-- The receiver of the channel is gone. -/
def Gone (s : EgressBus) (r : Nat) : Prop := ∃ c, s.channels[r]? = some c ∧ c.alive = false

theorem Gone.lt (h : Gone s r) : r < s.channels.length := by
  obtain ⟨c, hc, -⟩ := h
  exact (List.getElem?_eq_some_iff.1 hc).1

theorem Gone.step (h : Gone s r) (hstep : EgressStep s a s') : Gone s' r := by
  have hset : ∀ {r₀ : Nat} {c₀ c' : EgressChannel}, s.channels[r₀]? = some c₀ →
      (c₀.alive = false → c'.alive = false) →
        ∃ c, (s.channels.set r₀ c')[r]? = some c ∧ c.alive = false := by
    intro r₀ c₀ c' hc₀ hdead
    obtain ⟨c, hc, hgone⟩ := h
    by_cases hr : r = r₀
    · subst hr
      obtain rfl : c = c₀ := Option.some.inj (hc.symm.trans hc₀)
      exact ⟨c', List.getElem?_set_self (List.getElem?_eq_some_iff.1 hc).1, hdead hgone⟩
    · exact ⟨c, by rw [List.getElem?_set_ne (Ne.symm hr)]; exact hc, hgone⟩
  cases hstep with
  | subscribe =>
    obtain ⟨c, hc, hgone⟩ := h
    refine ⟨c, ?_, hgone⟩
    rw [List.getElem?_append_left (List.getElem?_eq_some_iff.1 hc).1]
    exact hc
  | send _ hc => exact hset hc id
  | recv hc => exact hset hc id
  | close hc => exact hset hc fun _ => rfl
  | _ => exact h

/-- The batch under way has not kept the sender, and will not. -/
def Rejects (s : EgressBus) (r : Nat) : Prop :=
  ∃ x, s.sending = some x ∧ x.events ≠ [] ∧ r ∉ x.kept ∧ (x.rest.head? = some r → x.owed ≠ [])

/-- A step adds no sender but that of a new channel. -/
theorem EgressStep.mem_senders (hstep : EgressStep s a s') (h : r ∈ s'.senders) :
    r ∈ s.senders ∨ r = s.channels.length := by
  cases hstep with
  | subscribe hfree =>
    rw [EgressBus.senders_of_free (by exact hfree)] at h
    rw [EgressBus.senders_of_free hfree]
    simpa using h
  | acquire hfree =>
    rw [EgressBus.senders_of_free hfree]
    exact .inl h
  | send hsending =>
    rw [EgressBus.senders_of_sending hsending]
    exact .inl h
  | @drop events owed kept rest r₀ e c hsending =>
    rw [EgressBus.senders_of_sending hsending]
    have hsub : (kept ++ rest).Sublist (kept ++ r₀ :: rest) :=
      (List.sublist_cons_self _ _).append_left _
    exact .inl (hsub.subset h)
  | keep hsending =>
    rw [EgressBus.senders_of_sending hsending, List.append_cons]
    exact .inl h
  | release hsending =>
    rw [EgressBus.senders_of_sending hsending, List.append_nil]
    exact .inl h
  | recv => exact .inl h
  | close => exact .inl h

theorem forgotten_step (hgone : Gone s r) (h : r ∉ s.senders) (hstep : EgressStep s a s') :
    r ∉ s'.senders := by
  intro hmem
  rcases hstep.mem_senders hmem with hr | hr
  · exact h hr
  · exact absurd hgone.lt (hr ▸ Nat.lt_irrefl _)

theorem Rejects.step (hgone : Gone s r) (h : Rejects s r) (hstep : EgressStep s a s') :
    r ∉ s'.senders ∨ Rejects s' r := by
  obtain ⟨x, hx, hne, hkept, howed⟩ := h
  cases hstep with
  | subscribe hfree =>
    rw [hfree] at hx
    cases hx
  | acquire hfree =>
    rw [hfree] at hx
    cases hx
  | @send events owed kept rest r₀ e c hsending hc halive =>
    obtain rfl := Option.some.inj (hsending.symm.trans hx)
    refine .inr ⟨_, rfl, hne, hkept, fun hhead => ?_⟩
    -- a send succeeds only to a receiver that is there
    obtain ⟨c', hc', hdead⟩ := hgone
    obtain rfl : r₀ = r := by simpa using hhead
    rw [hc] at hc'
    cases hc'
    rw [halive] at hdead
    cases hdead
  | drop hsending =>
    obtain rfl := Option.some.inj (hsending.symm.trans hx)
    exact .inr ⟨_, rfl, hne, hkept, fun _ => hne⟩
  | keep hsending =>
    obtain rfl := Option.some.inj (hsending.symm.trans hx)
    refine .inr ⟨_, rfl, hne, fun hmem => ?_, fun _ => hne⟩
    rcases List.mem_append.1 hmem with hmem | hmem
    · exact hkept hmem
    · exact howed (by rw [List.mem_singleton.1 hmem]; rfl) rfl
  | release hsending =>
    obtain rfl := Option.some.inj (hsending.symm.trans hx)
    exact .inl hkept
  | recv => exact .inr ⟨x, hx, hne, hkept, howed⟩
  | close => exact .inr ⟨x, hx, hne, hkept, howed⟩

/-- From the moment a batch takes the lock, a receiver that is gone is on its way out. -/
theorem rejects_run {as : List EgressAction} (hgone : Gone s r) (h : r ∉ s.senders ∨ Rejects s r)
    (hrun : Run EgressStep s as s') : Gone s' r ∧ (r ∉ s'.senders ∨ Rejects s' r) := by
  induction hrun with
  | nil => exact ⟨hgone, h⟩
  | snoc _ hstep ih =>
    refine ⟨ih.1.step hstep, ?_⟩
    rcases ih.2 with hout | hrejects
    · exact .inl (forgotten_step ih.1 hout hstep)
    · exact hrejects.step ih.1 hstep

theorem Gone.run {as : List EgressAction} (h : Gone s r) (hrun : Run EgressStep s as s') :
    Gone s' r :=
  hrun.invariant (I := fun _ s => Gone s r) h fun _ _ _ _ _ ih hstep => ih.step hstep

/-- **Dead receivers are dropped.** When a batch that took the lock after a receiver went
away lets go of it, the bus has lost the receiver's sender, and it stays lost. -/
theorem egress_forgets {pre mid during post : List EgressAction} {events : List OutputEvent}
    (h : Run EgressStep .new
      (pre ++ .close r :: mid ++ .acquire events :: during ++ .release :: post) s) :
    r ∉ s.senders := by
  obtain ⟨s₄, hacquired, hreleased⟩ := h.split
  obtain ⟨s₂, hclosed, hacquired⟩ := hacquired.split
  obtain ⟨s₀, -, hclosed⟩ := hclosed.split
  obtain ⟨s₁, hclose, hmid⟩ := hclosed.of_cons
  obtain ⟨s₃, hacquire, hduring⟩ := hacquired.of_cons
  obtain ⟨s₅, hrelease, hpost⟩ := hreleased.of_cons
  have hgone : Gone s₁ r := by
    cases hclose with
    | close hc => exact ⟨_, List.getElem?_set_self (List.getElem?_eq_some_iff.1 hc).1, rfl⟩
  have hgone₂ := hgone.run hmid
  have hrejects : Rejects s₃ r := by
    cases hacquire with
    | acquire hfree hne => exact ⟨_, rfl, hne, nofun, fun _ => hne⟩
  obtain ⟨hgone₄, hout⟩ := rejects_run (hgone₂.step hacquire) (.inr hrejects) hduring
  have hout₅ : r ∉ s₅.senders := by
    rcases hout with hout | hout
    · exact forgotten_step hgone₄ hout hrelease
    · -- with the lock free there is no batch that could still do it
      rcases hout.step hgone₄ hrelease with hout | ⟨x, hx, -⟩
      · exact hout
      · cases hrelease
        cases hx
  exact (hpost.invariant (I := fun _ s => Gone s r ∧ r ∉ s.senders)
    ⟨hgone₄.step hrelease, hout₅⟩
    fun _ _ _ _ _ ih hstep => ⟨ih.1.step hstep, forgotten_step ih.1 ih.2 hstep⟩).2

/-- The only receiver goes away, and the next batch empties the list of senders. -/
theorem egress_forgets_sample : ∃ s : EgressBus, s.channels.length = 1 ∧ 0 ∉ s.senders := by
  have h₁ : EgressStep .new .subscribe ⟨[.new], [0], none⟩ := .subscribe rfl
  have h₂ : EgressStep ⟨[.new], [0], none⟩ (.close 0) ⟨[⟨[], [], false⟩], [0], none⟩ :=
    .close (c := .new) rfl rfl
  have h₃ : EgressStep ⟨[⟨[], [], false⟩], [0], none⟩ (.acquire [.cancelled 7 1])
      ⟨[⟨[], [], false⟩], [0], some ⟨[.cancelled 7 1], [], [0], [.cancelled 7 1]⟩⟩ :=
    .acquire rfl nofun
  have h₄ : EgressStep ⟨[⟨[], [], false⟩], [0],
      some ⟨[.cancelled 7 1], [], [0], [.cancelled 7 1]⟩⟩ .send ⟨[⟨[], [], false⟩], [0],
        some ⟨[.cancelled 7 1], [], [], [.cancelled 7 1]⟩⟩ := .drop rfl rfl rfl
  have h₅ : EgressStep ⟨[⟨[], [], false⟩], [0],
      some ⟨[.cancelled 7 1], [], [], [.cancelled 7 1]⟩⟩ .release
        ⟨[⟨[], [], false⟩], [], none⟩ := .release rfl
  have hrun : Run EgressStep .new ([.subscribe] ++ .close 0 :: [] ++
      .acquire [.cancelled 7 1] :: [.send] ++ .release :: []) _ :=
    ((((Run.nil.snoc h₁).snoc h₂).snoc h₃).snoc h₄).snoc h₅
  exact ⟨_, rfl, egress_forgets hrun⟩

end Exchange
