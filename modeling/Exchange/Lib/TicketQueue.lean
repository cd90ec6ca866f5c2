import Mathlib.Data.List.Nodup
import Exchange.Lib.Transition

/-!
# Queues with tickets

Any number of clients draw a ticket from one counter and then, in a step of its
own, offer it with a payload to the queue the payload is routed to, which accepts
or rejects it; every queue is emptied at its head. Nothing is lost or duplicated
whatever the interleaving, and every queue is in ticket order as long as no accepted
offer overtakes an earlier ticket on its way to the same queue.
-/

namespace TicketQueue

open Transition

variable {κ ι α : Type}

/-- A ticket with what it was drawn for. -/
structure Item (α : Type) where
  ticket : Nat
  payload : α

/-- An offer that has been answered. -/
structure Offer (κ α : Type) where
  client : κ
  item : Item α
  accepted : Bool

structure State (κ ι α : Type) where
  /-- The next ticket. -/
  next : Nat
  /-- The ticket a client has drawn and not offered yet. -/
  held : κ → Option (Item α)
  waiting : ι → List (Item α)
  taken : ι → List (Item α)
  /-- The answered offers, first to last. -/
  offers : List (Offer κ α)

/-- Nothing drawn yet. -/
def State.start : State κ ι α := ⟨0, fun _ => none, fun _ => [], fun _ => [], []⟩

inductive Op (κ ι α : Type)
  | draw (k : κ) (a : α)
  | offer (k : κ) (accepted : Bool)
  | take (i : ι)

section Steps

variable [DecidableEq κ] [DecidableEq ι] (route : α → ι)

/-- One step of one party. -/
inductive Step : State κ ι α → Op κ ι α → State κ ι α → Prop
  | draw {s : State κ ι α} {k : κ} {a : α} (hk : s.held k = none) :
      Step s (.draw k a)
        { s with next := s.next + 1, held := Function.update s.held k (some ⟨s.next, a⟩) }
  | accept {s : State κ ι α} {k : κ} {x : Item α} (hk : s.held k = some x) :
      Step s (.offer k true)
        { s with
          held := Function.update s.held k none
          waiting := Function.update s.waiting (route x.payload)
            (s.waiting (route x.payload) ++ [x])
          offers := s.offers ++ [⟨k, x, true⟩] }
  | reject {s : State κ ι α} {k : κ} {x : Item α} (hk : s.held k = some x) :
      Step s (.offer k false)
        { s with
          held := Function.update s.held k none
          offers := s.offers ++ [⟨k, x, false⟩] }
  | take {s : State κ ι α} {i : ι} {x : Item α} {rest : List (Item α)}
      (hi : s.waiting i = x :: rest) :
      Step s (.take i)
        { s with
          waiting := Function.update s.waiting i rest
          taken := Function.update s.taken i (s.taken i ++ [x]) }

/-- The items a queue has accepted, first to last. -/
def acceptedBy (offers : List (Offer κ α)) (i : ι) : List (Item α) :=
  (offers.filter fun v => v.accepted && route v.item.payload = i).map (·.item)

end Steps

/-- The tickets of a state are drawn from the counter, once each, and every client
offers them in the order in which it draws them. -/
structure Tickets (next : Nat) (held : κ → Option (Item α)) (offers : List (Offer κ α)) :
    Prop where
  nodup : (offers.map (·.item.ticket)).Nodup
  offered_lt : ∀ v ∈ offers, v.item.ticket < next
  held_lt : ∀ k x, held k = some x → x.ticket < next
  held_fresh : ∀ k x, held k = some x → ∀ v ∈ offers, v.item.ticket ≠ x.ticket
  held_inj : ∀ k k' x x', held k = some x → held k' = some x' → x.ticket = x'.ticket → k = k'
  client_order : offers.Pairwise fun v w => v.client = w.client → v.item.ticket < w.item.ticket
  client_held : ∀ k x, held k = some x → ∀ v ∈ offers, v.client = k → v.item.ticket < x.ticket

namespace Tickets

variable [DecidableEq κ] {next : Nat} {held : κ → Option (Item α)} {offers : List (Offer κ α)}
  {k : κ} {x : Item α}

omit [DecidableEq κ] in
theorem start : Tickets 0 (fun _ : κ => (none : Option (Item α))) [] where
  nodup := List.nodup_nil
  offered_lt := fun v hv => by cases hv
  held_lt := fun k x hx => by cases hx
  held_fresh := fun k x hx => by cases hx
  held_inj := fun k k' x x' hx => by cases hx
  client_order := .nil
  client_held := fun k x hx => by cases hx

/-- Drawing the next ticket. -/
theorem draw (h : Tickets next held offers) (a : α) :
    Tickets (next + 1) (Function.update held k (some ⟨next, a⟩)) offers := by
  have hheld : ∀ k' x, Function.update held k (some ⟨next, a⟩) k' = some x →
      k' = k ∧ x.ticket = next ∨ k' ≠ k ∧ held k' = some x := by
    intro k' x hx
    by_cases hk : k' = k
    · subst hk
      rw [Function.update_self] at hx
      cases hx
      exact .inl ⟨rfl, rfl⟩
    · rw [Function.update_of_ne hk] at hx
      exact .inr ⟨hk, hx⟩
  refine ⟨h.nodup, fun v hv => Nat.lt_succ_of_lt (h.offered_lt v hv), fun k' x hx => ?_,
    fun k' x hx v hv => ?_, fun k₁ k₂ x₁ x₂ h₁ h₂ heq => ?_, h.client_order,
    fun k' x hx v hv hclient => ?_⟩
  · rcases hheld k' x hx with ⟨-, ht⟩ | ⟨-, hx⟩
    · omega
    · have := h.held_lt k' x hx
      omega
  · have := h.offered_lt v hv
    rcases hheld k' x hx with ⟨-, ht⟩ | ⟨-, hx⟩
    · omega
    · exact h.held_fresh k' x hx v hv
  · rcases hheld k₁ x₁ h₁ with ⟨hk₁, ht₁⟩ | ⟨-, h₁⟩
    · rcases hheld k₂ x₂ h₂ with ⟨hk₂, -⟩ | ⟨-, h₂⟩
      · rw [hk₁, hk₂]
      · have := h.held_lt k₂ x₂ h₂
        omega
    · rcases hheld k₂ x₂ h₂ with ⟨-, ht₂⟩ | ⟨-, h₂⟩
      · have := h.held_lt k₁ x₁ h₁
        omega
      · exact h.held_inj k₁ k₂ x₁ x₂ h₁ h₂ heq
  · rcases hheld k' x hx with ⟨-, ht⟩ | ⟨-, hx⟩
    · rw [ht]
      exact h.offered_lt v hv
    · exact h.client_held k' x hx v hv hclient

/-- An offer, accepted or not. -/
theorem offer (h : Tickets next held offers) (hx : held k = some x) (accepted : Bool) :
    Tickets next (Function.update held k none) (offers ++ [⟨k, x, accepted⟩]) := by
  have hheld : ∀ k' x', Function.update held k none k' = some x' → k' ≠ k ∧ held k' = some x' := by
    intro k' x' hx'
    by_cases hk : k' = k
    · subst hk
      rw [Function.update_self] at hx'
      cases hx'
    · rw [Function.update_of_ne hk] at hx'
      exact ⟨hk, hx'⟩
  have hmem : ∀ v ∈ offers ++ [⟨k, x, accepted⟩], v ∈ offers ∨ v = ⟨k, x, accepted⟩ := by
    intro v hv
    simpa using hv
  refine ⟨?_, fun v hv => ?_, fun k' x' hx' => h.held_lt k' x' (hheld k' x' hx').2,
    fun k' x' hx' v hv => ?_,
    fun k₁ k₂ x₁ x₂ h₁ h₂ => h.held_inj k₁ k₂ x₁ x₂ (hheld k₁ x₁ h₁).2 (hheld k₂ x₂ h₂).2, ?_,
    fun k' x' hx' v hv hclient => ?_⟩
  · rw [List.map_append]
    refine h.nodup.append (List.nodup_singleton _) ?_
    refine List.disjoint_singleton.2 fun hmem => ?_
    obtain ⟨v, hv, ht⟩ := List.mem_map.1 hmem
    exact h.held_fresh k x hx v hv ht
  · rcases hmem v hv with hv | rfl
    · exact h.offered_lt v hv
    · exact h.held_lt k x hx
  · obtain ⟨hk, hx'⟩ := hheld k' x' hx'
    rcases hmem v hv with hv | rfl
    · exact h.held_fresh k' x' hx' v hv
    · exact fun ht => hk (h.held_inj k' k x' x hx' hx ht.symm)
  · refine List.pairwise_append.2 ⟨h.client_order, List.pairwise_singleton _ _, fun v hv w hw => ?_⟩
    obtain rfl := List.mem_singleton.1 hw
    exact h.client_held k x hx v hv
  · obtain ⟨hk, hx'⟩ := hheld k' x' hx'
    rcases hmem v hv with hv | rfl
    · exact h.client_held k' x' hx' v hv hclient
    · exact absurd hclient.symm hk

end Tickets

section Proofs

variable [DecidableEq κ] [DecidableEq ι] {route : α → ι} {s s' : State κ ι α} {op : Op κ ι α}
  {ops : List (Op κ ι α)} {k : κ} {x : Item α} {offers : List (Offer κ α)}

omit [DecidableEq κ] in
theorem acceptedBy_true (i : ι) :
    acceptedBy route (offers ++ [⟨k, x, true⟩]) i =
      acceptedBy route offers i ++ if route x.payload = i then [x] else [] := by
  unfold acceptedBy
  by_cases h : route x.payload = i <;> simp [h]

omit [DecidableEq κ] in
theorem acceptedBy_false (i : ι) :
    acceptedBy route (offers ++ [⟨k, x, false⟩]) i = acceptedBy route offers i := by
  simp [acceptedBy]

/-! ## Nothing is lost or duplicated -/

/-- What no interleaving breaks. -/
structure Sound (route : α → ι) (s : State κ ι α) : Prop where
  tickets : Tickets s.next s.held s.offers
  conserved : ∀ i, s.taken i ++ s.waiting i = acceptedBy route s.offers i

omit [DecidableEq κ] in
theorem Sound.start : Sound route (State.start : State κ ι α) := ⟨.start, fun _ => rfl⟩

theorem Sound.step (h : Sound route s) (hstep : Step route s op s') : Sound route s' := by
  cases hstep with
  | draw hk => exact ⟨h.tickets.draw _, h.conserved⟩
  | @accept k x hk =>
    refine ⟨h.tickets.offer hk true, fun i => ?_⟩
    rw [acceptedBy_true, ← h.conserved i]
    by_cases hi : i = route x.payload
    · subst hi
      simp
    · simp [Function.update_of_ne hi, Ne.symm hi]
  | reject hk =>
    refine ⟨h.tickets.offer hk false, fun i => ?_⟩
    rw [acceptedBy_false]
    exact h.conserved i
  | @take i x rest hi =>
    refine ⟨h.tickets, fun j => ?_⟩
    rw [← h.conserved j]
    by_cases hj : j = i
    · subst hj
      simp [hi]
    · simp [Function.update_of_ne hj]

/-! ## Ticket order -/

/-- When an offer is accepted, no earlier ticket is on its way to the same queue. -/
def NotOvertaking (route : α → ι) (s : State κ ι α) : Op κ ι α → Prop
  | .offer k true => ∀ x, s.held k = some x → ∀ k' x', s.held k' = some x' →
      route x'.payload = route x.payload → x.ticket ≤ x'.ticket
  | _ => True

/-- The queues are in ticket order, and every ticket on its way comes after those of
its queue. -/
structure Ordered (route : α → ι) (s : State κ ι α) : Prop where
  queue : ∀ i, (acceptedBy route s.offers i).Pairwise (·.ticket < ·.ticket)
  held : ∀ k x, s.held k = some x → ∀ y ∈ acceptedBy route s.offers (route x.payload),
    y.ticket < x.ticket

omit [DecidableEq κ] in
theorem Ordered.start : Ordered route (State.start : State κ ι α) :=
  ⟨fun _ => .nil, fun _ _ h => by cases h⟩

theorem Ordered.step (h : Ordered route s) (hs : Sound route s) (hop : NotOvertaking route s op)
    (hstep : Step route s op s') : Ordered route s' := by
  cases hstep with
  | @draw k a hk =>
    refine ⟨h.queue, fun k' x hx y hy => ?_⟩
    dsimp only at hx hy
    by_cases hk' : k' = k
    · subst hk'
      rw [Function.update_self] at hx
      cases hx
      obtain ⟨v, hv, rfl⟩ := List.mem_map.1 hy
      exact hs.tickets.offered_lt v (List.mem_of_mem_filter hv)
    · rw [Function.update_of_ne hk'] at hx
      exact h.held k' x hx y hy
  | @accept k x hk =>
    refine ⟨fun i => ?_, fun k' x' hx' y hy => ?_⟩ <;> dsimp only at *
    · rw [acceptedBy_true]
      by_cases hi : route x.payload = i
      · subst hi
        rw [if_pos rfl]
        refine List.pairwise_append.2 ⟨h.queue _, List.pairwise_singleton _ _, fun y hy z hz => ?_⟩
        obtain rfl := List.mem_singleton.1 hz
        exact h.held k z hk y hy
      · rw [if_neg hi, List.append_nil]
        exact h.queue i
    · by_cases hk' : k' = k
      · subst hk'
        rw [Function.update_self] at hx'
        cases hx'
      · rw [Function.update_of_ne hk'] at hx'
        rw [acceptedBy_true] at hy
        rcases List.mem_append.1 hy with hy | hy
        · exact h.held k' x' hx' y hy
        · by_cases hroute : route x.payload = route x'.payload
          · rw [if_pos hroute] at hy
            obtain rfl := List.mem_singleton.1 hy
            have hle := hop y hk k' x' hx' hroute.symm
            have hne : y.ticket ≠ x'.ticket := fun he =>
              hk' (hs.tickets.held_inj k' k x' y hx' hk he.symm)
            omega
          · rw [if_neg hroute] at hy
            cases hy
  | @reject k x hk =>
    refine ⟨fun i => ?_, fun k' x' hx' y hy => ?_⟩ <;> dsimp only at *
    · rw [acceptedBy_false]
      exact h.queue i
    · by_cases hk' : k' = k
      · subst hk'
        rw [Function.update_self] at hx'
        cases hx'
      · rw [Function.update_of_ne hk'] at hx'
        rw [acceptedBy_false] at hy
        exact h.held k' x' hx' y hy
  | take hi => exact ⟨h.queue, h.held⟩

end Proofs

end TicketQueue
