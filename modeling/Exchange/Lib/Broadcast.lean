import Mathlib.Data.List.Infix
import Exchange.Lib.Transition

/-!
# Broadcast with lagging receivers

A channel with many receivers that never holds its sender back. It keeps the last `kept`
messages; every receiver reads them at its own pace from where it subscribed, and one that
falls further behind is moved on to the oldest message kept. How many messages are kept is
a parameter: a channel may keep more than the capacity it was asked for.
-/

namespace Broadcast

variable {α : Type}

/-! ## Parts of a log -/

/-- The messages of a log from position `i` up to position `j`. -/
def between (log : List α) (i j : Nat) : List α := (log.take j).drop i

section Between

variable {log : List α} {i i' j j' : Nat}

theorem between_of_le (h : j ≤ i) : between log i j = [] :=
  List.drop_eq_nil_of_le ((List.length_take_le _ _).trans h)

theorem between_append (h : j ≤ log.length) (ms : List α) :
    between (log ++ ms) i j = between log i j := by
  rw [between, between, List.take_append_of_le_length h]

theorem between_succ {m : α} (h : i ≤ j) (hm : log[j]? = some m) :
    between log i (j + 1) = between log i j ++ [m] := by
  have hj : j < log.length := (List.getElem?_eq_some_iff.1 hm).1
  have hlength : i ≤ (log.take j).length := by simp; omega
  rw [between, between, List.take_add_one, hm, Option.toList_some,
    List.drop_append_of_le_length hlength]

theorem between_suffix (h : i ≤ i') : between log i' j <:+ between log i j := by
  have hdrop : between log i' j = (between log i j).drop (i' - i) := by
    rw [between, between, List.drop_drop, Nat.add_sub_cancel' h]
  rw [hdrop]
  exact List.drop_suffix _ _

theorem between_leading (h : j ≤ j') : between log i j <+: between log i j' := by
  have htake : log.take j <+: log.take j' := List.take_prefix_take_left h
  exact htake.drop i

theorem between_length_append (log ms : List α) (n : Nat) :
    between (log ++ ms) (log.length + i) (log.length + n) = between ms i n := by
  rw [between, List.take_length_add_append, List.drop_length_add_append, between]

end Between

/-! ## The channel -/

/-- A receiver: where it subscribed, what it reads next, and what it has read. -/
structure Receiver (α : Type) where
  start : Nat
  next : Nat
  got : List α
  alive : Bool

/-- A channel with all that was stored in it, of which it keeps the last part. -/
structure Channel (α : Type) where
  log : List α
  receivers : List (Receiver α)

inductive Action (α : Type)
  | send (m : α)
  | subscribe
  /-- A receiver learns that it lags behind. -/
  | lag (r : Nat)
  | recv (r : Nat)
  | close (r : Nat)

/-- How many messages a channel of a given capacity keeps: at least as many as it was asked
for, which is at least one. -/
structure Retains (capacity kept : Nat) : Prop where
  pos : 0 < capacity
  le : capacity ≤ kept

/-- A message is stored only when there is somebody to receive it. -/
inductive Step (kept : Nat) : Channel α → Action α → Channel α → Prop
  | send {c : Channel α} {m : α} (h : ∃ x ∈ c.receivers, x.alive = true) :
      Step kept c (.send m) { c with log := c.log ++ [m] }
  | refuse {c : Channel α} {m : α} (h : ∀ x ∈ c.receivers, x.alive = false) :
      Step kept c (.send m) c
  | subscribe {c : Channel α} :
      Step kept c .subscribe
        { c with receivers := c.receivers ++ [⟨c.log.length, c.log.length, [], true⟩] }
  | lag {c : Channel α} {r : Nat} {x : Receiver α} (hx : c.receivers[r]? = some x)
      (halive : x.alive = true) (h : x.next < c.log.length - kept) :
      Step kept c (.lag r)
        { c with receivers := c.receivers.set r { x with next := c.log.length - kept } }
  | recv {c : Channel α} {r : Nat} {x : Receiver α} {m : α} (hx : c.receivers[r]? = some x)
      (halive : x.alive = true) (h : c.log.length - kept ≤ x.next)
      (hm : c.log[x.next]? = some m) :
      Step kept c (.recv r)
        { c with receivers := c.receivers.set r { x with next := x.next + 1, got := x.got ++ [m] } }
  | close {c : Channel α} {r : Nat} {x : Receiver α} (hx : c.receivers[r]? = some x)
      (halive : x.alive = true) :
      Step kept c (.close r) { c with receivers := c.receivers.set r { x with alive := false } }

/-- The step an action makes, if it can be made. -/
def Channel.step? (kept : Nat) (c : Channel α) : Action α → Option (Channel α)
  | .send m =>
    if ∃ x ∈ c.receivers, x.alive = true then some { c with log := c.log ++ [m] } else some c
  | .subscribe =>
    some { c with receivers := c.receivers ++ [⟨c.log.length, c.log.length, [], true⟩] }
  | .lag r =>
    c.receivers[r]?.bind fun x =>
      if x.alive = true ∧ x.next < c.log.length - kept then
        some { c with receivers := c.receivers.set r { x with next := c.log.length - kept } }
      else none
  | .recv r =>
    c.receivers[r]?.bind fun x =>
      if x.alive = true ∧ c.log.length - kept ≤ x.next then
        c.log[x.next]?.map fun m =>
          { c with
            receivers := c.receivers.set r { x with next := x.next + 1, got := x.got ++ [m] } }
      else none
  | .close r =>
    c.receivers[r]?.bind fun x =>
      if x.alive = true then
        some { c with receivers := c.receivers.set r { x with alive := false } }
      else none

theorem Channel.step?_sound {kept : Nat} {c c' : Channel α} {a : Action α}
    (h : c.step? kept a = some c') : Step kept c a c' := by
  cases a with
  | send m =>
    dsimp only [Channel.step?] at h
    split at h
    · next hsome =>
      cases h
      exact .send hsome
    · next hnone =>
      cases h
      exact .refuse (by simpa using hnone)
  | subscribe =>
    cases h
    exact .subscribe
  | lag r =>
    obtain ⟨x, hx, h⟩ := Option.bind_eq_some_iff.1 h
    split at h
    · next hlag =>
      cases h
      exact .lag hx hlag.1 hlag.2
    · cases h
  | recv r =>
    obtain ⟨x, hx, h⟩ := Option.bind_eq_some_iff.1 h
    split at h
    · next hkept =>
      obtain ⟨m, hm, rfl⟩ := Option.map_eq_some_iff.1 h
      exact .recv hx hkept.1 hkept.2 hm
    · cases h
  | close r =>
    obtain ⟨x, hx, h⟩ := Option.bind_eq_some_iff.1 h
    split at h
    · next halive =>
      cases h
      exact .close hx halive
    · cases h

/-! ## What a receiver gets -/

section Follows

variable {kept : Nat} {log : List α} {x : Receiver α}

/-- What a receiver has read is a selection, in order, of what it has passed over since it
subscribed, and leaves out nothing of that which the channel still keeps. -/
structure Follows (kept : Nat) (log : List α) (x : Receiver α) : Prop where
  start_le : x.start ≤ x.next
  next_le : x.next ≤ log.length
  sublist : x.got.Sublist (between log x.start x.next)
  recent : between log (max x.start (log.length - kept)) x.next <:+ x.got

theorem Follows.new (log : List α) : Follows kept log ⟨log.length, log.length, [], true⟩ := by
  refine ⟨le_rfl, le_rfl, List.nil_sublist _, ?_⟩
  rw [between_of_le (le_max_left _ _)]

theorem Follows.append (h : Follows kept log x) (ms : List α) : Follows kept (log ++ ms) x := by
  obtain ⟨hstart, hnext, hsublist, hrecent⟩ := h
  have hlength : log.length ≤ (log ++ ms).length := by simp
  refine ⟨hstart, hnext.trans hlength, ?_, ?_⟩
  · rwa [between_append hnext]
  · rw [between_append hnext]
    refine List.IsSuffix.trans (between_suffix ?_) hrecent
    omega

theorem Follows.lag (h : Follows kept log x) (hlag : x.next < log.length - kept) :
    Follows kept log { x with next := log.length - kept } := by
  obtain ⟨hstart, hnext, hsublist, hrecent⟩ := h
  refine ⟨by simp; omega, Nat.sub_le _ _, ?_, ?_⟩
  · exact hsublist.trans (between_leading (Nat.le_of_lt hlag)).sublist
  · rw [between_of_le (le_max_right _ _)]
    exact List.nil_suffix

theorem Follows.recv {m : α} (h : Follows kept log x) (hkept : log.length - kept ≤ x.next)
    (hm : log[x.next]? = some m) :
    Follows kept log { x with next := x.next + 1, got := x.got ++ [m] } := by
  obtain ⟨hstart, hnext, hsublist, hrecent⟩ := h
  have hlt : x.next < log.length := (List.getElem?_eq_some_iff.1 hm).1
  refine ⟨Nat.le_succ_of_le hstart, hlt, ?_, ?_⟩
  · rw [between_succ hstart hm]
    exact hsublist.append_right [m]
  · rw [between_succ (max_le hstart hkept) hm]
    obtain ⟨skipped, hskipped⟩ := hrecent
    exact ⟨skipped, by rw [← List.append_assoc, hskipped]⟩

/-- A capacity that was asked for is kept. -/
theorem Follows.retained {capacity : Nat} (h : Follows kept log x)
    (hkept : Retains capacity kept) :
    between log (max x.start (log.length - capacity)) x.next <:+ x.got := by
  refine List.IsSuffix.trans (between_suffix ?_) h.recent
  have hle := hkept.le
  omega

theorem Follows.close (h : Follows kept log x) : Follows kept log { x with alive := false } :=
  ⟨h.start_le, h.next_le, h.sublist, h.recent⟩

end Follows

section Runs

variable {kept : Nat} {c c' : Channel α} {a : Action α} {as : List (Action α)} {r : Nat}
  {x : Receiver α}

/-- A receiver of a list after one of them is replaced. -/
theorem getElem?_set_receiver {xs : List (Receiver α)} {r₀ : Nat} {x₀ x' : Receiver α}
    (hx₀ : xs[r₀]? = some x₀) (hx : (xs.set r₀ x')[r]? = some x) :
    r = r₀ ∧ x = x' ∨ r ≠ r₀ ∧ xs[r]? = some x := by
  by_cases hr : r = r₀
  · subst hr
    rw [List.getElem?_set_self (List.getElem?_eq_some_iff.1 hx₀).1] at hx
    exact .inl ⟨rfl, (Option.some.inj hx).symm⟩
  · rw [List.getElem?_set_ne (Ne.symm hr)] at hx
    exact .inr ⟨hr, hx⟩

/-- The log only grows. -/
theorem Step.log (hstep : Step kept c a c') : ∃ ms, c'.log = c.log ++ ms := by
  cases hstep with
  | send => exact ⟨_, rfl⟩
  | _ => exact ⟨[], by simp⟩

/-- What a step does to one receiver: it is there already and is left alone or moved
by an action of its own, or it has just subscribed. -/
theorem Step.receiver (hstep : Step kept c a c') (hx : c'.receivers[r]? = some x) :
    c.receivers[r]? = some x ∨
    a = .subscribe ∧ r = c.receivers.length ∧ x = ⟨c.log.length, c.log.length, [], true⟩ ∨
    ∃ y, c.receivers[r]? = some y ∧ y.alive = true ∧ c'.log = c.log ∧
      (a = .lag r ∧ y.next < c.log.length - kept ∧ x = { y with next := c.log.length - kept } ∨
       (∃ m, a = .recv r ∧ c.log.length - kept ≤ y.next ∧ c.log[y.next]? = some m ∧
         x = { y with next := y.next + 1, got := y.got ++ [m] }) ∨
       a = .close r ∧ x = { y with alive := false }) := by
  cases hstep with
  | send => exact .inl hx
  | refuse => exact .inl hx
  | subscribe =>
    by_cases hr : r < c.receivers.length
    · exact .inl (by rwa [List.getElem?_append_left hr] at hx)
    · rw [List.getElem?_append_right (Nat.le_of_not_lt hr)] at hx
      obtain ⟨hlt, rfl⟩ := List.getElem?_eq_some_iff.1 hx
      have hlength : r = c.receivers.length := by
        rw [List.length_singleton] at hlt
        omega
      exact .inr (.inl ⟨rfl, hlength, List.getElem_singleton _⟩)
  | @lag r₀ y hy halive h =>
    rcases getElem?_set_receiver hy hx with ⟨rfl, rfl⟩ | ⟨-, hx⟩
    · exact .inr (.inr ⟨y, hy, halive, rfl, .inl ⟨rfl, h, rfl⟩⟩)
    · exact .inl hx
  | @recv r₀ y m hy halive h hm =>
    rcases getElem?_set_receiver hy hx with ⟨rfl, rfl⟩ | ⟨-, hx⟩
    · exact .inr (.inr ⟨y, hy, halive, rfl, .inr (.inl ⟨m, rfl, h, hm, rfl⟩)⟩)
    · exact .inl hx
  | @close r₀ y hy halive =>
    rcases getElem?_set_receiver hy hx with ⟨rfl, rfl⟩ | ⟨-, hx⟩
    · exact .inr (.inr ⟨y, hy, halive, rfl, .inr (.inr ⟨rfl, rfl⟩)⟩)
    · exact .inl hx

theorem Step.length_le (hstep : Step kept c a c') :
    c.receivers.length ≤ c'.receivers.length := by
  cases hstep with
  | subscribe => simp
  | _ => simp

/-- A step keeps what is known of a receiver that was there. -/
theorem Step.follows {y : Receiver α} (hstep : Step kept c a c') (hy : c.receivers[r]? = some y)
    (h : Follows kept c.log y) : ∃ x, c'.receivers[r]? = some x ∧ x.start = y.start ∧
      Follows kept c'.log x ∧
      (a ≠ .lag r → y.got = between c.log y.start y.next →
        x.got = between c'.log x.start x.next) := by
  have hlt := (List.getElem?_eq_some_iff.1 hy).1
  obtain ⟨x, hx⟩ : ∃ x, c'.receivers[r]? = some x :=
    ⟨_, List.getElem?_eq_getElem (hlt.trans_le hstep.length_le)⟩
  refine ⟨x, hx, ?_⟩
  rcases hstep.receiver hx with hsame | ⟨-, hr, -⟩ | ⟨y', hy', -, hlog, hmoved⟩
  · cases hy.symm.trans hsame
    obtain ⟨ms, hms⟩ := hstep.log
    refine ⟨rfl, hms ▸ h.append ms, fun _ hwhole => ?_⟩
    rw [hms, between_append h.next_le]
    exact hwhole
  · omega
  · cases hy.symm.trans hy'
    rw [hlog]
    rcases hmoved with ⟨ha, hlag, rfl⟩ | ⟨m, -, hkept, hm, rfl⟩ | ⟨-, rfl⟩
    · exact ⟨rfl, h.lag hlag, fun hne => absurd ha hne⟩
    · refine ⟨rfl, h.recv hkept hm, fun _ hwhole => ?_⟩
      rw [between_succ h.start_le hm, hwhole]
    · exact ⟨rfl, h.close, fun _ hwhole => hwhole⟩

theorem Step.follows_all (hstep : Step kept c a c')
    (h : ∀ (r : Nat) x, c.receivers[r]? = some x → Follows kept c.log x) :
    ∀ (r : Nat) x, c'.receivers[r]? = some x → Follows kept c'.log x := by
  intro r x hx
  rcases hstep.receiver hx with hsame | ⟨rfl, -, rfl⟩ | ⟨y, hy, -⟩
  · obtain ⟨ms, hms⟩ := hstep.log
    rw [hms]
    exact (h r x hsame).append ms
  · cases hstep
    exact .new _
  · obtain ⟨x', hx', -, hfollows, -⟩ := hstep.follows hy (h r y hy)
    cases hx.symm.trans hx'
    exact hfollows

/-- **What a receiver gets.** Of what was stored since it subscribed a receiver has, after
any run, a selection in order that leaves out nothing the channel still keeps of what it
has passed over, and leaves out nothing at all when it never lagged. -/
theorem run_follows {c₁ c₂ : Channel α} (hsub : Step kept c₁ .subscribe c₂)
    (h : Transition.Run (Step kept) c₂ as c) :
    ∃ x, c.receivers[c₁.receivers.length]? = some x ∧ x.start = c₁.log.length ∧
      (∃ ms, c.log = c₁.log ++ ms) ∧ Follows kept c.log x ∧
      (.lag c₁.receivers.length ∉ as → x.got = between c.log x.start x.next) := by
  refine h.invariant (I := fun as c => ∃ x, c.receivers[c₁.receivers.length]? = some x ∧
    x.start = c₁.log.length ∧ (∃ ms, c.log = c₁.log ++ ms) ∧ Follows kept c.log x ∧
    (.lag c₁.receivers.length ∉ as → x.got = between c.log x.start x.next)) ?_ ?_
  · cases hsub
    refine ⟨_, by simp, rfl, ⟨[], by simp⟩, .new _, fun _ => ?_⟩
    exact (between_of_le le_rfl).symm
  · rintro as c a c' - ⟨y, hy, hstart, ⟨ms, hms⟩, hfollows, hwhole⟩ hstep
    obtain ⟨x, hx, hstart', hfollows', hwhole'⟩ := hstep.follows hy hfollows
    obtain ⟨ms', hms'⟩ := hstep.log
    refine ⟨x, hx, hstart'.trans hstart, ⟨ms ++ ms', ?_⟩, hfollows', fun hnone => ?_⟩
    · rw [hms', hms, List.append_assoc]
    · rw [List.mem_append, List.mem_singleton, not_or] at hnone
      exact hwhole' (Ne.symm hnone.2) (hwhole hnone.1)

end Runs

end Broadcast
