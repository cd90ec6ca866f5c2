import Mathlib.Tactic.Simps.Basic
import Exchange.Core.Matcher
import Exchange.Lib.Links

/-!
# The intrusive links of the book

An arena holds two things per slot: the order itself (`coreOf`, links cleared)
and its links (`linksOf`). `Wired b σ` says that the level of each side and
price threads exactly the slots `σ side price`, in queue order. Each of the
book's list surgeries keeps the orders, rewires one level as the corresponding
surgery on `Links.Chain` does, and leaves the links of every other slot alone.
-/

namespace Exchange

open Links

variable {A : Type} [Slab A Order]

/-- The order without its links. -/
@[simps] def Order.unlinked (o : Order) : Order := { o with next := none, prev := none }

/-- The orders of an arena, links cleared. -/
def coreOf (a : A) (s : Nat) : Option Order := (Slab.get? a s).map Order.unlinked

/-- The links of an arena. -/
def linksOf (a : A) : Table Nat := fun s => (Slab.get? a s).map fun o => (o.prev, o.next)

section Arena

variable {a : A} {s : Nat} {o : Order}

theorem get?_of_core (h : coreOf a s = some o) :
    ∃ o', Slab.get? a s = some o' ∧ o'.unlinked = o :=
  Option.map_eq_some_iff.1 h

theorem isSome_linksOf : (linksOf a s).isSome = (coreOf a s).isSome := by
  simp [linksOf, coreOf]

theorem isSome_get?_of_core (h : (coreOf a s).isSome) : (Slab.get? a s).isSome := by
  simpa [coreOf] using h

theorem coreOf_set (h : (Slab.get? a s).isSome) :
    coreOf (Slab.set a s o) = Function.update (coreOf a) s (some o.unlinked) := by
  funext t
  unfold coreOf
  rw [Slab.get?_set a s o t h]
  by_cases ht : t = s
  · subst ht
    simp
  · simp [ht]

theorem linksOf_set (h : (Slab.get? a s).isSome) :
    linksOf (Slab.set a s o) = Function.update (linksOf a) s (some (o.prev, o.next)) := by
  funext t
  unfold linksOf
  rw [Slab.get?_set a s o t h]
  by_cases ht : t = s
  · subst ht
    simp
  · simp [ht]

theorem coreOf_insert :
    coreOf (Slab.insert a o) =
      Function.update (coreOf a) (Slab.vacantKey a) (some o.unlinked) := by
  funext t
  unfold coreOf
  rw [Slab.get?_insert a o t]
  by_cases ht : t = Slab.vacantKey a
  · subst ht
    simp
  · simp [ht]

theorem linksOf_insert :
    linksOf (Slab.insert a o) =
      Function.update (linksOf a) (Slab.vacantKey a) (some (o.prev, o.next)) := by
  funext t
  unfold linksOf
  rw [Slab.get?_insert a o t]
  by_cases ht : t = Slab.vacantKey a
  · subst ht
    simp
  · simp [ht]

theorem coreOf_remove (h : (Slab.get? a s).isSome) :
    coreOf (Slab.remove a s) = Function.update (coreOf a) s none := by
  funext t
  unfold coreOf
  rw [Slab.get?_remove a s t h]
  by_cases ht : t = s
  · subst ht
    simp
  · simp [ht]

theorem linksOf_remove (h : (Slab.get? a s).isSome) :
    linksOf (Slab.remove a s) = Function.update (linksOf a) s none := by
  funext t
  unfold linksOf
  rw [Slab.get?_remove a s t h]
  by_cases ht : t = s
  · subst ht
    simp
  · simp [ht]

theorem coreOf_vacantKey : coreOf a (Slab.vacantKey a) = none := by
  simp [coreOf, Slab.get?_vacantKey]

end Arena

/-! ## Reads and writes of the book -/

section Access

variable {b : OrderBook A} {s : Nat} {o : Order}

theorem order_eq (h : Slab.get? b.arena s = some o) : b.order s = .ok o := by
  simp [OrderBook.order, OrderBook.slot?, h]

theorem modifyOrder_eq (h : Slab.get? b.arena s = some o) (f : Order → Order) :
    b.modifyOrder s f = .ok (b.setArena (Slab.set b.arena s (f o))) := by
  simp [OrderBook.modifyOrder, order_eq h]

theorem removeOrder_eq (h : Slab.get? b.arena s = some o) :
    b.removeOrder s = .ok (b.setArena (Slab.remove b.arena s)) := by
  simp [OrderBook.removeOrder, order_eq h]

/-- Reading an order gives its core with some links. -/
theorem order_of_core (h : coreOf b.arena s = some o) :
    ∃ o', b.order s = .ok o' ∧ o'.unlinked = o ∧ linksOf b.arena s = some (o'.prev, o'.next) := by
  obtain ⟨o', ho', hu⟩ := get?_of_core h
  exact ⟨o', order_eq ho', hu, by simp [linksOf, ho']⟩

/-- Writing a field other than the links. -/
theorem modifyOrder_core (h : coreOf b.arena s = some o) (f : Order → Order)
    (hlinks : ∀ o, (f o).prev = o.prev ∧ (f o).next = o.next)
    (hcore : ∀ o, (f o).unlinked = f o.unlinked) :
    ∃ a, b.modifyOrder s f = .ok (b.setArena a) ∧
      coreOf a = Function.update (coreOf b.arena) s (some (f o)) ∧
      linksOf a = linksOf b.arena := by
  obtain ⟨o', ho', hu⟩ := get?_of_core h
  have hs : (Slab.get? b.arena s).isSome := by rw [ho']; rfl
  refine ⟨_, modifyOrder_eq ho' f, ?_, ?_⟩
  · rw [coreOf_set hs, hcore, hu]
  · rw [linksOf_set hs, (hlinks o').1, (hlinks o').2]
    refine Function.update_eq_self_iff.2 ?_
    simp [linksOf, ho']

/-- Writing both links of an order. -/
theorem modifyOrder_links (h : (coreOf b.arena s).isSome) (f : Order → Order)
    (l : Option Nat × Option Nat)
    (hlinks : ∀ o, linksOf b.arena s = some (o.prev, o.next) → ((f o).prev, (f o).next) = l)
    (hcore : ∀ o, (f o).unlinked = o.unlinked) :
    ∃ a, b.modifyOrder s f = .ok (b.setArena a) ∧ coreOf a = coreOf b.arena ∧
      linksOf a = Function.update (linksOf b.arena) s (some l) := by
  have hs := isSome_get?_of_core h
  obtain ⟨o, ho⟩ := Option.isSome_iff_exists.1 hs
  refine ⟨_, modifyOrder_eq ho f, ?_, ?_⟩
  · rw [coreOf_set hs, hcore]
    refine Function.update_eq_self_iff.2 ?_
    simp [coreOf, ho]
  · rw [linksOf_set hs, hlinks o (by simp [linksOf, ho])]

theorem modifyLinked_next {s : Option Nat} (v : Option Nat)
    (h : ∀ u, s = some u → (coreOf b.arena u).isSome) :
    ∃ a, (b.modifyLinked s fun o => { o with next := v }) = .ok (b.setArena a) ∧
      coreOf a = coreOf b.arena ∧ linksOf a = setNext (linksOf b.arena) s v := by
  cases s with
  | none => exact ⟨b.arena, rfl, rfl, rfl⟩
  | some u =>
    obtain ⟨⟨p, n⟩, hl⟩ := Option.isSome_iff_exists.1 (isSome_linksOf (a := b.arena) ▸ h u rfl)
    obtain ⟨a, ha, hc, hl'⟩ := modifyOrder_links (h u rfl) (fun o => { o with next := v }) (p, v)
      (fun o ho => by rw [hl] at ho; cases ho; rfl) (fun _ => rfl)
    exact ⟨a, ha, hc, by rw [hl', setNext, hl]; rfl⟩

theorem modifyLinked_prev {s : Option Nat} (v : Option Nat)
    (h : ∀ u, s = some u → (coreOf b.arena u).isSome) :
    ∃ a, (b.modifyLinked s fun o => { o with prev := v }) = .ok (b.setArena a) ∧
      coreOf a = coreOf b.arena ∧ linksOf a = setPrev (linksOf b.arena) s v := by
  cases s with
  | none => exact ⟨b.arena, rfl, rfl, rfl⟩
  | some u =>
    obtain ⟨⟨p, n⟩, hl⟩ := Option.isSome_iff_exists.1 (isSome_linksOf (a := b.arena) ▸ h u rfl)
    obtain ⟨a, ha, hc, hl'⟩ := modifyOrder_links (h u rfl) (fun o => { o with prev := v }) (v, n)
      (fun o ho => by rw [hl] at ho; cases ho; rfl) (fun _ => rfl)
    exact ⟨a, ha, hc, by rw [hl', setPrev, hl]; rfl⟩

end Access

/-! ## Wired books -/

/-- A queue for each side and price. -/
abbrev Queues (β : Type) := Side → Price → List β

namespace Queues

variable {β : Type} {σ : Queues β} {side side' : Side} {price price' : Price} {q : List β}

/-- Replace one queue. -/
def set (σ : Queues β) (side : Side) (price : Price) (q : List β) : Queues β :=
  fun side' price' => if side' = side ∧ price' = price then q else σ side' price'

@[simp] theorem set_self (σ : Queues β) (side : Side) (price : Price) (q : List β) :
    σ.set side price q side price = q := by
  simp [set]

theorem set_of_ne (h : ¬(side' = side ∧ price' = price)) :
    σ.set side price q side' price' = σ side' price' :=
  if_neg h

/-- A queue that only loses members. -/
theorem set_sublist (h : q.Sublist (σ side price)) (side' : Side) (price' : Price) :
    (σ.set side price q side' price').Sublist (σ side' price') := by
  by_cases hne : side' = side ∧ price' = price
  · obtain ⟨rfl, rfl⟩ := hne
    rw [set_self]
    exact h
  · rw [set_of_ne hne]

/-- Only `x` is lost. -/
theorem mem_set_of_ne {q₁ q₂ : List β} {x y : β} (h : σ side price = q₁ ++ x :: q₂) (hne : y ≠ x)
    (hy : y ∈ σ side' price') : y ∈ σ.set side price (q₁ ++ q₂) side' price' := by
  by_cases hsp : side' = side ∧ price' = price
  · obtain ⟨rfl, rfl⟩ := hsp
    rw [set_self]
    simpa [h, hne] using hy
  · rwa [set_of_ne hsp]

theorem set_set (σ : Queues β) (side : Side) (price : Price) (q q' : List β) :
    (σ.set side price q).set side price q' = σ.set side price q' := by
  funext side' price'
  by_cases h : side' = side ∧ price' = price
  · obtain ⟨rfl, rfl⟩ := h
    rw [set_self, set_self]
  · rw [set_of_ne h, set_of_ne h, set_of_ne h]

theorem set_eq_self (h : σ side price = q) : σ.set side price q = σ := by
  funext side' price'
  by_cases h' : side' = side ∧ price' = price
  · obtain ⟨rfl, rfl⟩ := h'
    rw [set_self, h]
  · rw [set_of_ne h']

end Queues

/-- The levels thread exactly the queues `σ`, and each queued order is of the
side and price of its queue. A level may be present and empty. -/
structure Wired (b : OrderBook A) (σ : Queues Nat) : Prop where
  absent : ∀ side p, b.level? side p = none → σ side p = []
  chain : ∀ side p l, b.level? side p = some l →
    Chain (linksOf b.arena) l.head l.tail (σ side p)
  placed : ∀ side p s, s ∈ σ side p →
    ∃ o, coreOf b.arena s = some o ∧ o.side = side ∧ o.price = p

namespace Wired

variable {b : OrderBook A} {σ : Queues Nat}

/-- The queues are disjoint. -/
theorem disjoint (hw : Wired b σ) {side side' : Side} {p p' : Price} {s : Nat}
    (h : s ∈ σ side p) (h' : s ∈ σ side' p') : side' = side ∧ p' = p := by
  obtain ⟨o, ho, rfl, rfl⟩ := hw.placed _ _ _ h
  obtain ⟨o', ho', rfl, rfl⟩ := hw.placed _ _ _ h'
  rw [ho] at ho'
  cases ho'
  exact ⟨rfl, rfl⟩

theorem occupied (hw : Wired b σ) {side : Side} {p : Price} {s : Nat} (h : s ∈ σ side p) :
    (coreOf b.arena s).isSome := by
  obtain ⟨o, ho, -⟩ := hw.placed _ _ _ h
  rw [ho]
  rfl

/-- A level that threads nothing is an empty one. -/
theorem isEmpty_iff (hw : Wired b σ) {side : Side} {p : Price} {l : PriceLevel}
    (hl : b.level? side p = some l) : l.isEmpty = true ↔ σ side p = [] := by
  rw [PriceLevel.isEmpty, (hw.chain _ _ _ hl).head_eq, Option.isNone_iff_eq_none,
    List.head?_eq_none_iff]

/-- A missing level reads as a new one. -/
theorem chain_getD (hw : Wired b σ) (side : Side) (p : Price) :
    Chain (linksOf b.arena) ((b.level? side p).getD .new).head
      ((b.level? side p).getD .new).tail (σ side p) := by
  cases h : b.level? side p with
  | none =>
    rw [hw.absent _ _ h]
    exact Chain.nil
  | some l => exact hw.chain _ _ _ h

/-- Rewiring one level keeps the book wired when only slots of its old and new
queue are touched. -/
theorem put (hw : Wired b σ) {side : Side} {p : Price} {l : PriceLevel} {q : List Nat} {a : A}
    (hcore : coreOf a = coreOf b.arena) (hchain : Chain (linksOf a) l.head l.tail q)
    (hplaced : ∀ s ∈ q, ∃ o, coreOf b.arena s = some o ∧ o.side = side ∧ o.price = p)
    (hframe : ∀ s, s ∉ σ side p → s ∉ q → linksOf a s = linksOf b.arena s) :
    Wired ((b.putLevel side p l).setArena a) (σ.set side p q) := by
  refine ⟨fun side' p' h => ?_, fun side' p' l' h => ?_, fun side' p' s h => ?_⟩
  · change (b.putLevel side p l).level? side' p' = none at h
    rw [OrderBook.level?_putLevel] at h
    split at h
    · cases h
    · next hne =>
      rw [Queues.set_of_ne hne]
      exact hw.absent _ _ h
  · change (b.putLevel side p l).level? side' p' = some l' at h
    rw [OrderBook.level?_putLevel] at h
    split at h
    · next heq =>
      obtain ⟨rfl, rfl⟩ := heq
      cases h
      rw [Queues.set_self]
      exact hchain
    · next hne =>
      rw [Queues.set_of_ne hne]
      refine (hw.chain _ _ _ h).congr fun s hs => hframe s ?_ ?_
      · exact fun hs' => hne (hw.disjoint hs' hs)
      · intro hs'
        obtain ⟨o, ho, rfl, rfl⟩ := hplaced s hs'
        obtain ⟨o', ho', rfl, rfl⟩ := hw.placed _ _ _ hs
        rw [ho] at ho'
        cases ho'
        exact hne ⟨rfl, rfl⟩
  · change ∃ o, coreOf a s = some o ∧ _
    rw [hcore]
    by_cases heq : side' = side ∧ p' = p
    · obtain ⟨rfl, rfl⟩ := heq
      rw [Queues.set_self] at h
      exact hplaced s h
    · rw [Queues.set_of_ne heq] at h
      exact hw.placed _ _ _ h

/-- Only the links, the cores of queued slots and the levels matter. -/
theorem congr (hw : Wired b σ) {b' : OrderBook A}
    (hlevel : ∀ side p, b'.level? side p = b.level? side p)
    (hlinks : ∀ side p, ∀ s ∈ σ side p, linksOf b'.arena s = linksOf b.arena s)
    (hcore : ∀ side p, ∀ s ∈ σ side p, coreOf b'.arena s = coreOf b.arena s) : Wired b' σ := by
  refine ⟨fun side p h => ?_, fun side p l h => ?_, fun side p s h => ?_⟩
  · rw [hlevel] at h
    exact hw.absent _ _ h
  · rw [hlevel] at h
    exact (hw.chain _ _ _ h).congr (hlinks side p)
  · rw [hcore side p s h]
    exact hw.placed _ _ _ h

/-- An empty level may be dropped. -/
theorem erase (hw : Wired b σ) {side : Side} {p : Price} (h : σ side p = []) :
    Wired (b.eraseLevel side p) σ := by
  refine ⟨fun side' p' h' => ?_, fun side' p' l h' => ?_, hw.placed⟩
  · rw [OrderBook.level?_eraseLevel] at h'
    split at h'
    · next heq =>
      obtain ⟨rfl, rfl⟩ := heq
      exact h
    · exact hw.absent _ _ h'
  · rw [OrderBook.level?_eraseLevel] at h'
    split at h'
    · cases h'
    · exact hw.chain _ _ _ h'

/-- The totals of a level may change. -/
theorem retotal (hw : Wired b σ) {side : Side} {p : Price} {l l' : PriceLevel}
    (hl : b.level? side p = some l) (hhead : l'.head = l.head) (htail : l'.tail = l.tail) :
    Wired (b.putLevel side p l') σ := by
  have h : Wired ((b.putLevel side p l').setArena b.arena) (σ.set side p (σ side p)) := hw.put rfl
    (by rw [hhead, htail]; exact hw.chain _ _ _ hl) (hw.placed side p) fun _ _ _ => rfl
  rwa [Queues.set_eq_self rfl] at h

/-! ## The surgeries -/

variable {s : Nat} {o : Order}

/-- Appending a loose order to its level. -/
theorem insertResting (hw : Wired b σ) (ho : coreOf b.arena s = some o)
    (hloose : ∀ side p, s ∉ σ side p) :
    ∃ a, b.insertResting s = .ok ((b.putLevel o.side o.price
        (((b.level? o.side o.price).getD .new).pushBack s o.remaining)).setArena a) ∧
      coreOf a = coreOf b.arena ∧
      (∀ r, r ∉ σ o.side o.price → r ≠ s → linksOf a r = linksOf b.arena r) ∧
      Wired ((b.putLevel o.side o.price
        (((b.level? o.side o.price).getD .new).pushBack s o.remaining)).setArena a)
        (σ.set o.side o.price (σ o.side o.price ++ [s])) := by
  obtain ⟨o', ho', hu, -⟩ := order_of_core ho
  have hside : o'.side = o.side := by rw [← hu]; rfl
  have hprice : o'.price = o.price := by rw [← hu]; rfl
  have hrem : o'.remaining = o.remaining := by rw [← hu]; rfl
  have hc := hw.chain_getD o.side o.price
  generalize hl : (b.level? o.side o.price).getD .new = l at hc ⊢
  have hocc : (coreOf b.arena s).isSome := by rw [ho]; rfl
  have htail : ∀ u, l.tail = some u → u ∈ σ o.side o.price := fun u hu =>
    List.mem_of_getLast? (hc.tail_eq ▸ hu)
  obtain ⟨a₁, h₁, hc₁, hl₁⟩ := modifyOrder_links
    (b := b.putLevel o.side o.price (l.pushBack s o.remaining)) hocc
    (fun o => { o with prev := l.tail, next := none }) (l.tail, none) (fun _ _ => rfl)
    (fun _ => rfl)
  obtain ⟨a, h₂, hc₂, hl₂⟩ := modifyLinked_next
    (b := (b.putLevel o.side o.price (l.pushBack s o.remaining)).setArena a₁)
    (s := l.tail) (some s) (fun u hu => by
      simp only [OrderBook.arena_setArena, hc₁, OrderBook.arena_putLevel]
      exact hw.occupied (htail u hu))
  simp only [OrderBook.arena_setArena, OrderBook.arena_putLevel,
    OrderBook.setArena_setArena] at hc₁ hl₁ h₂ hc₂ hl₂
  have hcore : coreOf a = coreOf b.arena := hc₂.trans hc₁
  have hlinks := hl₂.trans (congrArg (setNext · l.tail (some s)) hl₁)
  have hframe : ∀ r, r ∉ σ o.side o.price → r ≠ s → linksOf a r = linksOf b.arena r := by
    intro r hr hrs
    rw [hlinks, setNext_of_ne fun e => hr (htail r e), Function.update_of_ne hrs]
  refine ⟨a, ?_, hcore, hframe, hw.put hcore ?_ ?_ ?_⟩
  · unfold OrderBook.insertResting
    simp only [ho', Fuel.ok_bind, hside, hprice, hrem, hl, h₁, h₂]
  · rw [hlinks]
    simpa [PriceLevel.pushBack, Option.isNone_iff_eq_none] using
      hc.pushBack (hloose o.side o.price)
  · intro r hr
    rcases List.mem_append.1 hr with hr | hr
    · exact hw.placed _ _ _ hr
    · rw [List.mem_singleton.1 hr]
      exact ⟨o, ho, rfl, rfl⟩
  · exact fun r hr hr' => hframe r hr fun e => hr' (by simp [e])

/-- Taking the head off a level. The level stays, even when it is empty now. -/
theorem popHead (hw : Wired b σ) {side : Side} {p : Price} {l : PriceLevel} {q : List Nat}
    (hl : b.level? side p = some l) (hq : σ side p = s :: q) (ho : coreOf b.arena s = some o) :
    ∃ (a : A) (l' : PriceLevel),
      b.popHead side p = .ok (some s, (b.putLevel side p l').setArena a) ∧
      l'.totalQty = l.totalQty.satSub o.remaining ∧ l'.count = l.count ∧
      coreOf a = coreOf b.arena ∧ (∀ r, r ∉ σ side p → linksOf a r = linksOf b.arena r) ∧
      Wired ((b.putLevel side p l').setArena a) (σ.set side p q) := by
  obtain ⟨o', ho', hu, hlinks'⟩ := order_of_core ho
  have hrem : o'.remaining = o.remaining := by rw [← hu]; rfl
  have hc := hw.chain _ _ _ hl
  rw [hq] at hc
  have hhead : l.head = some s := hc.head_eq
  obtain ⟨n, hn, hc'⟩ := hc.popFront
  have hnext : o'.next = n := by
    rw [hlinks'] at hn
    exact congrArg Prod.snd (Option.some.inj hn)
  let l' : PriceLevel :=
    { l.popFront o.remaining with
      head := n, tail := if n.isNone then none else (l.popFront o.remaining).tail }
  have hmem : ∀ r, n = some r → r ∈ q := fun r hr => List.mem_of_head? (hc'.head_eq ▸ hr)
  obtain ⟨a, h₁, hcore, hlinks⟩ := modifyLinked_prev (b := b.putLevel side p l') (s := n) none
    fun u hu => hw.occupied (hq ▸ List.mem_cons_of_mem s (hmem u hu))
  simp only [OrderBook.arena_putLevel] at hcore hlinks
  have hframe : ∀ r, r ∉ σ side p → linksOf a r = linksOf b.arena r := by
    intro r hr
    rw [hlinks, setPrev_of_ne fun e => hr (hq ▸ List.mem_cons_of_mem s (hmem r e))]
  have hpop : l.popFront o.remaining = { l with totalQty := l.totalQty.satSub o.remaining } := by
    simp [PriceLevel.popFront, hhead]
  refine ⟨a, l', ?_, ?_, ?_, hcore, hframe, hw.put hcore ?_ ?_ fun r hr _ => hframe r hr⟩
  · unfold OrderBook.popHead
    simp only [hl, hhead, ho', Fuel.ok_bind, hrem, hnext]
    change (b.putLevel side p l').modifyLinked n _ >>= _ = _
    rw [h₁]
    rfl
  · simp only [l', hpop]
  · simp only [l', hpop]
  · rw [hlinks]
    simpa [l', hpop, Option.isNone_iff_eq_none] using hc'
  · exact fun r hr => hw.placed _ _ _ (hq ▸ List.mem_cons_of_mem s hr)

/-- Putting a loose order back in front of its level. -/
theorem reinsertAtHead (hw : Wired b σ) (ho : coreOf b.arena s = some o)
    (hloose : ∀ side p, s ∉ σ side p) :
    ∃ (a : A) (l' : PriceLevel),
      Exchange.reinsertAtHead b s o.price o.side =
        .ok ((b.putLevel o.side o.price l').setArena a) ∧
      l'.totalQty = ((b.level? o.side o.price).getD .new).totalQty + o.remaining ∧
      l'.count = ((b.level? o.side o.price).getD .new).count + 1 ∧
      coreOf a = coreOf b.arena ∧
      (∀ r, r ∉ σ o.side o.price → r ≠ s → linksOf a r = linksOf b.arena r) ∧
      Wired ((b.putLevel o.side o.price l').setArena a)
        (σ.set o.side o.price (s :: σ o.side o.price)) := by
  have hc := hw.chain_getD o.side o.price
  generalize hl : (b.level? o.side o.price).getD .new = l at hc ⊢
  have hocc : (coreOf b.arena s).isSome := by rw [ho]; rfl
  have hhead : ∀ u, l.head = some u → u ∈ σ o.side o.price := fun u hu =>
    List.mem_of_head? (hc.head_eq ▸ hu)
  obtain ⟨⟨p₀, n₀⟩, hlinks₀⟩ := Option.isSome_iff_exists.1 (isSome_linksOf (a := b.arena) ▸ hocc)
  obtain ⟨a₁, h₁, hc₁, hl₁⟩ := modifyOrder_links (b := b) hocc
    (fun o => { o with prev := none }) (none, n₀)
    (fun o ho => by rw [hlinks₀] at ho; exact congrArg (none, ·.2) (Option.some.inj ho).symm)
    (fun _ => rfl)
  have ho₁ : coreOf a₁ s = some o := by rw [hc₁, ho]
  have hocc₁ : (coreOf a₁ s).isSome := by rw [ho₁]; rfl
  obtain ⟨o', ho', hu, -⟩ := order_of_core (b := b.setArena a₁) ho₁
  have hrem : o'.remaining = o.remaining := by rw [← hu]; rfl
  let l' : PriceLevel :=
    { head := some s
      tail := if l.tail.isNone then some s else l.tail
      totalQty := l.totalQty + o.remaining
      count := l.count + 1 }
  obtain ⟨a₂, h₂, hc₂, hl₂⟩ := modifyOrder_links
    (b := (b.setArena a₁).putLevel o.side o.price l') hocc₁
    (fun o => { o with next := l.head }) (none, l.head)
    (fun o ho => by
      change linksOf a₁ s = _ at ho
      rw [hl₁, Function.update_self] at ho
      exact congrArg (·.1, l.head) (Option.some.inj ho).symm)
    (fun _ => rfl)
  simp only [OrderBook.arena_setArena, OrderBook.arena_putLevel] at hc₂ hl₂
  obtain ⟨a, h₃, hc₃, hl₃⟩ := modifyLinked_prev
    (b := ((b.setArena a₁).putLevel o.side o.price l').setArena a₂)
    (s := l.head) (some s) fun u hu => by
      simp only [OrderBook.arena_setArena, hc₂, hc₁]
      exact hw.occupied (hhead u hu)
  simp only [OrderBook.arena_setArena, OrderBook.setArena_setArena] at h₃ hc₃ hl₃
  have hcore : coreOf a = coreOf b.arena := hc₃.trans (hc₂.trans hc₁)
  have hlinks : linksOf a =
      setPrev (Function.update (linksOf b.arena) s (some (none, l.head))) l.head (some s) := by
    rw [hl₃, hl₂, hl₁, Function.update_idem]
  have hframe : ∀ r, r ∉ σ o.side o.price → r ≠ s → linksOf a r = linksOf b.arena r := by
    intro r hr hrs
    rw [hlinks, setPrev_of_ne fun e => hr (hhead r e), Function.update_of_ne hrs]
  refine ⟨a, l', ?_, rfl, rfl, hcore, hframe, hw.put hcore ?_ ?_ ?_⟩
  · unfold Exchange.reinsertAtHead
    simp only [h₁, Fuel.ok_bind, ho', hrem, OrderBook.level?_setArena, hl]
    change ((b.setArena a₁).putLevel o.side o.price l').modifyOrder s _ >>= _ = _
    rw [h₂]
    exact h₃
  · rw [hlinks]
    simpa [l', Option.isNone_iff_eq_none] using hc.pushFront (hloose o.side o.price)
  · intro r hr
    rcases List.mem_cons.1 hr with rfl | hr
    · exact ⟨o, ho, rfl, rfl⟩
    · exact hw.placed _ _ _ hr
  · exact fun r hr hr' => hframe r hr fun e => hr' (by simp [e])

/-- Unlinking a queued order from anywhere in its level; the level goes when the
order was alone in it. -/
theorem removeSlot (hw : Wired b σ) {l : PriceLevel} {q₁ q₂ : List Nat} {side : Side} {p : Price}
    (hl : b.level? side p = some l) (hq : σ side p = q₁ ++ s :: q₂) (qty : Qty) :
    ∃ (a : A) (l' : PriceLevel),
      b.removeSlot s side p qty = .ok ((if q₁ ++ q₂ = [] then b.eraseLevel side p
        else b.putLevel side p l').setArena a) ∧
      l'.totalQty = l.totalQty.satSub qty ∧ l'.count = l.count - 1 ∧
      coreOf a = coreOf b.arena ∧ (∀ r, r ∉ σ side p → linksOf a r = linksOf b.arena r) ∧
      Wired ((if q₁ ++ q₂ = [] then b.eraseLevel side p
        else b.putLevel side p l').setArena a) (σ.set side p (q₁ ++ q₂)) := by
  have hs : s ∈ σ side p := by rw [hq]; simp
  obtain ⟨o, ho, -⟩ := hw.placed _ _ _ hs
  obtain ⟨o', ho', hu, hlinks'⟩ := order_of_core ho
  have hc := hw.chain _ _ _ hl
  rw [hq] at hc
  have hs' := hlinks'.symm.trans (hc.links_eq rfl)
  have hprev : o'.prev = q₁.getLast? := congrArg Prod.fst (Option.some.inj hs')
  have hnext : o'.next = q₂.head? := congrArg Prod.snd (Option.some.inj hs')
  have hc' := hc.unlink
  have hm₁ : ∀ r, q₁.getLast? = some r → r ∈ σ side p := fun r hr => by
    rw [hq]
    exact List.mem_append_left _ (List.mem_of_getLast? hr)
  have hm₂ : ∀ r, q₂.head? = some r → r ∈ σ side p := fun r hr => by
    rw [hq]
    exact List.mem_append_right _ (List.mem_cons_of_mem s (List.mem_of_head? hr))
  obtain ⟨a₁, h₁, hc₁, hl₁⟩ := modifyLinked_next (b := b) (s := q₁.getLast?) q₂.head?
    fun u hu => hw.occupied (hm₁ u hu)
  obtain ⟨a, h₂, hc₂, hl₂⟩ := modifyLinked_prev (b := b.setArena a₁) (s := q₂.head?)
    q₁.getLast? fun u hu => by
      rw [OrderBook.arena_setArena, hc₁]
      exact hw.occupied (hm₂ u hu)
  simp only [OrderBook.arena_setArena, OrderBook.setArena_setArena] at h₂ hc₂ hl₂
  rw [hl₁] at hl₂
  have hcore : coreOf a = coreOf b.arena := hc₂.trans hc₁
  have hframe : ∀ r, r ∉ σ side p → linksOf a r = linksOf b.arena r := by
    intro r hr
    rw [hl₂, setPrev_of_ne fun e => hr (hm₂ r e), setNext_of_ne fun e => hr (hm₁ r e)]
  let l' : PriceLevel :=
    { head := if l.head = some s then q₂.head? else l.head
      tail := if l.tail = some s then q₁.getLast? else l.tail
      totalQty := l.totalQty.satSub qty
      count := l.count - 1 }
  have hempty : l'.isEmpty = decide (q₁ ++ q₂ = []) := by
    have hh : l'.head = (q₁ ++ q₂).head? := hc'.head_eq
    rw [PriceLevel.isEmpty, hh]
    cases q₁ ++ q₂ <;> simp
  have hput : Wired ((b.putLevel side p l').setArena a) (σ.set side p (q₁ ++ q₂)) := by
    refine hw.put hcore (by rw [hl₂]; exact hc') ?_ fun r hr _ => hframe r hr
    intro r hr
    refine hw.placed _ _ _ ?_
    rw [hq]
    rcases List.mem_append.1 hr with hr | hr
    · exact List.mem_append_left _ hr
    · exact List.mem_append_right _ (List.mem_cons_of_mem s hr)
  refine ⟨a, l', ?_, rfl, rfl, hcore, hframe, ?_⟩
  · unfold OrderBook.removeSlot
    rw [ho', Fuel.ok_bind]
    simp only [hprev, hnext, h₁, h₂, Fuel.ok_bind, OrderBook.level?_setArena, hl,
      PriceLevel.bypass_eq]
    change pure (if l'.isEmpty = true then _ else _) = _
    simp only [hempty, decide_eq_true_eq, Fuel.pure_eq_ok]
    split <;> rfl
  · split
    · next hnil =>
      rw [hnil] at hput ⊢
      refine (hput.erase (Queues.set_self σ side p [])).congr ?_
        (fun _ _ _ _ => rfl) (fun _ _ _ _ => rfl)
      intro side' p'
      simp only [OrderBook.level?_setArena, OrderBook.level?_eraseLevel,
        OrderBook.level?_putLevel]
      split <;> rfl
    · exact hput

end Wired

end Exchange
