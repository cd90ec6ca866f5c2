import Mathlib.Data.List.Basic
import Mathlib.Data.List.Induction
import Mathlib.Data.List.Nodup
import Mathlib.Logic.Function.Basic

/-!
# Doubly linked lists threaded through a table

A table gives each allocated node its `(prev, next)` pair. `Seg` reads a run of
nodes off the table between two outer pointers, so a list can be cut at any
node (`seg_append`); `Chain` is a whole list. The list surgeries (append, pop the
head, put back at the head, unlink) come out of two facts: rewriting the `next`
of a run's last node, or the `prev` of its first one, changes only the outer
pointer on that end.
-/

namespace Links

variable {ι : Type}

/-- `(prev, next)` of every allocated node. -/
abbrev Table (ι : Type) := ι → Option (Option ι × Option ι)

/-- The nodes `q` in order, from `h` to `t`, entered from `p` and left to `n`. -/
def Seg (L : Table ι) (t n : Option ι) : Option ι → Option ι → List ι → Prop
  | p, h, [] => h = n ∧ t = p
  | p, h, s :: q => h = some s ∧ ∃ x, L s = some (p, x) ∧ Seg L t n (some s) x q

/-- A whole list from `h` to `t`. -/
structure Chain (L : Table ι) (h t : Option ι) (q : List ι) : Prop where
  seg : Seg L t none none h q
  nodup : q.Nodup

/-! ## Segments -/

theorem Seg.congr {L L' : Table ι} {t n : Option ι} :
    ∀ {q : List ι} {p h : Option ι}, Seg L t n p h q → (∀ s ∈ q, L' s = L s) →
      Seg L' t n p h q
  | [], _, _, hs, _ => hs
  | s :: _, _, _, ⟨hh, x, hx, hq⟩, hag =>
    ⟨hh, x, (hag s List.mem_cons_self).trans hx,
      hq.congr fun r hr => hag r (List.mem_cons_of_mem s hr)⟩

/-- A run of nodes is cut anywhere into two runs that meet. -/
theorem seg_append {L : Table ι} {t n : Option ι} (q₁ q₂ : List ι) :
    ∀ {p h : Option ι}, Seg L t n p h (q₁ ++ q₂) ↔
      ∃ x y, Seg L y x p h q₁ ∧ Seg L t n y x q₂ := by
  induction q₁ with
  | nil =>
    intro p h
    constructor
    · intro hs
      exact ⟨h, p, ⟨rfl, rfl⟩, hs⟩
    · rintro ⟨x, y, ⟨rfl, rfl⟩, hs⟩
      exact hs
  | cons s q₁ ih =>
    intro p h
    constructor
    · rintro ⟨hh, z, hz, hq⟩
      obtain ⟨x, y, h₁, h₂⟩ := ih.1 hq
      exact ⟨x, y, ⟨hh, z, hz, h₁⟩, h₂⟩
    · rintro ⟨x, y, ⟨hh, z, hz, h₁⟩, h₂⟩
      exact ⟨hh, z, hz, ih.2 ⟨x, y, h₁, h₂⟩⟩

theorem Seg.first_eq {L : Table ι} {t n p h : Option ι} {q : List ι} (hs : Seg L t n p h q) :
    h = q.head?.or n := by
  cases q with
  | nil => exact hs.1
  | cons s q => exact hs.1

theorem Seg.last_eq {L : Table ι} {t n : Option ι} :
    ∀ {q : List ι} {p h : Option ι}, Seg L t n p h q → t = q.getLast?.or p
  | [], _, _, hs => hs.2
  | [_], _, _, ⟨_, _, _, hq⟩ => hq.2
  | _ :: r :: q, _, _, ⟨_, _, _, hq⟩ => by
    have h := Seg.last_eq hq
    rw [h, List.getLast?_cons_cons]
    simp [List.getLast?_eq_some_getLast (List.cons_ne_nil r q)]

/-- The first node and the links determine a run to the end. -/
theorem Seg.unique {L : Table ι} {t t' : Option ι} :
    ∀ {q q' : List ι} {p h : Option ι}, Seg L t none p h q → Seg L t' none p h q' → q = q'
  | [], [], _, _, _, _ => rfl
  | [], _ :: _, _, _, ⟨h, _⟩, ⟨h', _⟩ => nomatch h.symm.trans h'
  | _ :: _, [], _, _, ⟨h, _⟩, ⟨h', _⟩ => nomatch h.symm.trans h'
  | s :: q, s' :: q', _, _, ⟨h, x, hx, hq⟩, ⟨h', x', hx', hq'⟩ => by
    obtain rfl := Option.some.inj (h.symm.trans h')
    obtain rfl := (Prod.mk.inj (Option.some.inj (hx.symm.trans hx'))).2
    rw [hq.unique hq']

/-! ## Chains -/

namespace Chain

variable {L : Table ι} {h t : Option ι} {q : List ι}

theorem head_eq (hc : Chain L h t q) : h = q.head? := by
  simpa using hc.seg.first_eq

theorem tail_eq (hc : Chain L h t q) : t = q.getLast? := by
  simpa using hc.seg.last_eq

theorem unique (hc : Chain L h t q) {t' : Option ι} {q' : List ι} (hc' : Chain L h t' q') :
    q = q' :=
  hc.seg.unique hc'.seg

theorem nil : Chain L none none [] := ⟨⟨rfl, rfl⟩, List.nodup_nil⟩

theorem congr (hc : Chain L h t q) {L' : Table ι} (hag : ∀ s ∈ q, L' s = L s) :
    Chain L' h t q :=
  ⟨hc.seg.congr hag, hc.nodup⟩

/-- The links of a node are its neighbours in the list. -/
theorem links_eq (hc : Chain L h t q) {q₁ q₂ : List ι} {s : ι} (hq : q = q₁ ++ s :: q₂) :
    L s = some (q₁.getLast?, q₂.head?) := by
  subst hq
  obtain ⟨x, y, h₁, hx, z, hz, h₂⟩ := (seg_append q₁ (s :: q₂)).1 hc.seg
  rw [hz, h₁.last_eq, h₂.first_eq]
  simp

/-- The links of the `i`-th node are the nodes before and after it. -/
theorem links_getElem? (hc : Chain L h t q) {i : Nat} {s : ι} (hs : q[i]? = some s) :
    L s = some (if i = 0 then none else q[i - 1]?, q[i + 1]?) := by
  obtain ⟨hi, rfl⟩ := List.getElem?_eq_some_iff.1 hs
  have hq : q = q.take i ++ q[i] :: q.drop (i + 1) := by
    rw [List.getElem_cons_drop, List.take_append_drop]
  rw [hc.links_eq hq, List.head?_drop, List.getLast?_take]
  split
  · rfl
  · rw [List.getElem?_eq_getElem (show i - 1 < q.length by omega)]
    rfl

end Chain

/-! ## Walks -/

/-- Following `next` from `h` visits `q` and ends. -/
def Forward (L : Table ι) : Option ι → List ι → Prop
  | h, [] => h = none
  | h, s :: q => h = some s ∧ ∃ l, L s = some l ∧ Forward L l.2 q

/-- Following `prev` from `t` visits `q` and ends. -/
def Backward (L : Table ι) : Option ι → List ι → Prop
  | t, [] => t = none
  | t, s :: q => t = some s ∧ ∃ l, L s = some l ∧ Backward L l.1 q

theorem Seg.forward {L : Table ι} {t : Option ι} :
    ∀ {q : List ι} {p h : Option ι}, Seg L t none p h q → Forward L h q
  | [], _, _, hs => hs.1
  | _ :: _, _, _, ⟨hh, _, hx, hq⟩ => ⟨hh, _, hx, hq.forward⟩

theorem Seg.backward {L : Table ι} {t n h : Option ι} {q : List ι} (hs : Seg L t n none h q) :
    Backward L t q.reverse := by
  induction q using List.reverseRecOn generalizing t n with
  | nil => exact hs.2
  | append_singleton q s ih =>
    obtain ⟨x, y, hq, -, z, hz, -, rfl⟩ := (seg_append q [s]).1 hs
    rw [List.reverse_append]
    exact ⟨rfl, _, hz, ih hq⟩

/-- The links determine where a walk leads. -/
theorem Forward.unique {L : Table ι} {h : Option ι} {q q' : List ι} (hw : Forward L h q)
    (hw' : Forward L h q') : q = q' := by
  induction q generalizing h q' with
  | nil =>
    cases q' with
    | nil => rfl
    | cons s' q' => cases hw.symm.trans hw'.1
  | cons s q ih =>
    obtain ⟨rfl, l, hl, hq⟩ := hw
    cases q' with
    | nil => cases hw'
    | cons s' q' =>
      obtain ⟨hs, l', hl', hq'⟩ := hw'
      cases hs
      cases hl.symm.trans hl'
      rw [ih hq hq']

/-! ## Surgery -/

variable [DecidableEq ι]

/-- Rewrite the `next` of a node that may be null. -/
def setNext (L : Table ι) (s v : Option ι) : Table ι :=
  match s with
  | none => L
  | some s => Function.update L s ((L s).map fun l => (l.1, v))

/-- Rewrite the `prev` of a node that may be null. -/
def setPrev (L : Table ι) (s v : Option ι) : Table ι :=
  match s with
  | none => L
  | some s => Function.update L s ((L s).map fun l => (v, l.2))

theorem setNext_of_ne {L : Table ι} {s v : Option ι} {r : ι} (h : s ≠ some r) :
    setNext L s v r = L r := by
  cases s with
  | none => rfl
  | some s => exact Function.update_of_ne (fun e => h (congrArg some e.symm)) _ _

theorem setPrev_of_ne {L : Table ι} {s v : Option ι} {r : ι} (h : s ≠ some r) :
    setPrev L s v r = L r := by
  cases s with
  | none => rfl
  | some s => exact Function.update_of_ne (fun e => h (congrArg some e.symm)) _ _

/-- Rewriting the `next` of the node a run ends at redirects the run. -/
theorem Seg.setNext_last {L : Table ι} {y x : Option ι} (n : Option ι) :
    ∀ {q : List ι} {p h : Option ι}, Seg L y x p h q → q.Nodup →
      Seg (setNext L y n) y n p (if q = [] then n else h) q
  | [], _, _, hs, _ => ⟨rfl, hs.2⟩
  | [s], p, h, ⟨hh, z, hz, _, hy⟩, _ => by
    subst hy
    refine ⟨hh, n, ?_, rfl, rfl⟩
    simp [setNext, hz]
  | s :: r :: q, p, h, ⟨hh, z, hz, hq⟩, hnd => by
    have hsq := (List.nodup_cons.1 hnd).1
    have hrest := Seg.setNext_last n hq (List.nodup_cons.1 hnd).2
    have hys : y ≠ some s := by
      rw [hq.last_eq]
      obtain ⟨u, hu⟩ : ∃ u, (r :: q).getLast? = some u :=
        ⟨_, List.getLast?_eq_some_getLast (List.cons_ne_nil r q)⟩
      rw [hu]
      rintro ⟨⟩
      exact hsq (List.mem_of_getLast? hu)
    exact ⟨hh, z, (setNext_of_ne hys).trans hz, hrest⟩

/-- Rewriting the `prev` of the node a run starts at redirects the run. -/
theorem Seg.setPrev_first {L : Table ι} {t n y x : Option ι} {q : List ι} (v : Option ι)
    (hs : Seg L t n y x q) (hnd : q.Nodup) :
    Seg (setPrev L x v) (if q = [] then v else t) n v x q := by
  cases q with
  | nil => exact ⟨hs.1, rfl⟩
  | cons s q =>
    obtain ⟨rfl, z, hz, hq⟩ := hs
    refine ⟨rfl, z, ?_, hq.congr fun r hr => setPrev_of_ne ?_⟩
    · simp [setPrev, hz]
    · rintro ⟨⟩
      exact (List.nodup_cons.1 hnd).1 hr

namespace Chain

variable {L : Table ι} {h t : Option ι} {q : List ι}

/-- Append a node that is linked to the old tail. -/
theorem pushBack (hc : Chain L h t q) {x : ι} (hx : x ∉ q) :
    Chain (setNext (Function.update L x (some (t, none))) t (some x))
      (if t = none then some x else h) (some x) (q ++ [x]) := by
  have hq : Seg (Function.update L x (some (t, none))) t none none h q :=
    hc.seg.congr fun s hs => Function.update_of_ne (fun e : s = x => hx (e ▸ hs)) _ _
  have hq' := hq.setNext_last (some x) hc.nodup
  have hnil : q = [] ↔ t = none := by
    rw [hc.tail_eq, List.getLast?_eq_none_iff]
  have htx : t ≠ some x := fun e => hx (List.mem_of_getLast? (hc.tail_eq ▸ e))
  refine ⟨(seg_append q [x]).2 ⟨some x, t, ?_, rfl, none, ?_, rfl, rfl⟩, ?_⟩
  · simpa only [hnil] using hq'
  · rw [setNext_of_ne htx, Function.update_self]
  · exact List.nodup_append.2 ⟨hc.nodup, List.nodup_singleton x, by
      intro a ha b hb e
      rw [List.mem_singleton.1 hb] at e
      exact hx (e ▸ ha)⟩

/-- Take the head off: its successor becomes the head. -/
theorem popFront {s : ι} (hc : Chain L h t (s :: q)) :
    ∃ n, L s = some (none, n) ∧ Chain (setPrev L n none) n (if n = none then none else t) q := by
  obtain ⟨_, n, hn, hq⟩ := hc.seg
  have hnd := (List.nodup_cons.1 hc.nodup).2
  have hnil : q = [] ↔ n = none := by
    rw [hq.first_eq]
    simp
  refine ⟨n, hn, ?_, hnd⟩
  simpa only [hnil] using hq.setPrev_first none hnd

/-- Put a node in front of the head. -/
theorem pushFront (hc : Chain L h t q) {x : ι} (hx : x ∉ q) :
    Chain (setPrev (Function.update L x (some (none, h))) h (some x))
      (some x) (if t = none then some x else t) (x :: q) := by
  have hq : Seg (Function.update L x (some (none, h))) t none none h q :=
    hc.seg.congr fun s hs => Function.update_of_ne (fun e : s = x => hx (e ▸ hs)) _ _
  have hq' := hq.setPrev_first (some x) hc.nodup
  have hnil : q = [] ↔ t = none := by
    rw [hc.tail_eq, List.getLast?_eq_none_iff]
  have hhx : h ≠ some x := fun e => hx (List.mem_of_head? (hc.head_eq ▸ e))
  refine ⟨⟨rfl, h, ?_, ?_⟩, List.nodup_cons.2 ⟨hx, hc.nodup⟩⟩
  · rw [setPrev_of_ne hhx, Function.update_self]
  · simpa only [hnil] using hq'

/-- Stitch the neighbours of a node together. -/
theorem unlink {q₁ q₂ : List ι} {s : ι} (hc : Chain L h t (q₁ ++ s :: q₂)) :
    Chain (setPrev (setNext L q₁.getLast? q₂.head?) q₂.head? q₁.getLast?)
      (if h = some s then q₂.head? else h) (if t = some s then q₁.getLast? else t)
      (q₁ ++ q₂) := by
  obtain ⟨x, y, h₁, rfl, n, hn, h₂⟩ := (seg_append q₁ (s :: q₂)).1 hc.seg
  have hy : y = q₁.getLast? := by simpa using h₁.last_eq
  have hn' : n = q₂.head? := by simpa using h₂.first_eq
  rw [← hy, ← hn']
  obtain ⟨hnd₁, hnd₂', hdis⟩ := List.nodup_append.1 hc.nodup
  have hnd₂ := (List.nodup_cons.1 hnd₂').2
  have hs₁ : s ∉ q₁ := fun hs => hdis s hs s List.mem_cons_self rfl
  have hs₂ : s ∉ q₂ := (List.nodup_cons.1 hnd₂').1
  have hdis' : ∀ r ∈ q₁, r ∉ q₂ := fun r hr hr' => hdis r hr r (List.mem_cons_of_mem s hr') rfl
  have hyq : ∀ r ∈ q₂, y ≠ some r := fun r hr e =>
    hdis' r (List.mem_of_getLast? (hy ▸ e)) hr
  have hnq : ∀ r ∈ q₁, n ≠ some r := fun r hr e =>
    hdis' r hr (List.mem_of_head? (hn' ▸ e))
  have hseg₁ : Seg (setPrev (setNext L y n) n y) y n none (if q₁ = [] then n else h) q₁ :=
    (h₁.setNext_last n hnd₁).congr fun r hr => setPrev_of_ne (hnq r hr)
  have hseg₂ : Seg (setPrev (setNext L y n) n y) (if q₂ = [] then y else t) none y n q₂ :=
    (h₂.congr fun r hr => setNext_of_ne (hyq r hr)).setPrev_first y hnd₂
  have hh : q₁ = [] ↔ h = some s := by
    rw [hc.head_eq]
    cases q₁ with
    | nil => simp
    | cons r q₁ =>
      have hrs : r ≠ s := fun e => hs₁ (e ▸ List.mem_cons_self)
      simp [hrs]
  have ht : q₂ = [] ↔ t = some s := by
    rw [hc.tail_eq, List.getLast?_append]
    cases q₂ with
    | nil => simp
    | cons r q₂ =>
      rw [List.getLast?_cons_cons, List.getLast?_eq_some_getLast (List.cons_ne_nil r q₂)]
      have hrs : (r :: q₂).getLast (List.cons_ne_nil r q₂) ≠ s := fun e =>
        hs₂ (e ▸ List.getLast_mem _)
      simp [hrs]
  refine ⟨(seg_append q₁ q₂).2 ⟨n, y, ?_, ?_⟩, ?_⟩
  · simpa only [hh] using hseg₁
  · simpa only [ht] using hseg₂
  · exact List.nodup_append.2 ⟨hnd₁, hnd₂, fun a ha b hb e => hdis' a ha (e ▸ hb)⟩

end Chain

end Links
