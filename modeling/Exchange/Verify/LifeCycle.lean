import Exchange.Verify.Ledger

/-!
# The life cycle of an order

What the balanced ledger says about the event stream of a stop-free run: how much
of an order has traded at any point between its acceptance and its closing event,
and that the events naming an id are blocks from `Accepted` to one closing event.
-/

namespace Exchange

open PriorityBook Monitor

/-! ## Events -/

/-- The event ends the order `id`. -/
def OutputEvent.closes (id : OrderId) : OutputEvent → Bool
  | .filled i _ | .cancelled i _ | .replaced i _ | .rejected i .fokUnfillable _ => i = id
  | _ => false

/-- What the event trades of the order `id`. -/
def OutputEvent.trades (id : OrderId) : OutputEvent → Nat
  | .trade _ taker maker _ qty _ _ => if taker = id ∨ maker = id then qty.toNat else 0
  | _ => 0

/-- What is traded of the order `id`. -/
def traded (id : OrderId) (ps : List Posting) : Nat := (ps.map (·.2.trades id)).sum

@[simp] theorem traded_nil (id : OrderId) : traded id [] = 0 := rfl

@[simp] theorem traded_cons (id : OrderId) (p : Posting) (ps : List Posting) :
    traded id (p :: ps) = p.2.trades id + traded id ps := by
  simp [traded]

/-- An event that does not name an order neither closes nor trades it. -/
theorem OutputEvent.of_not_names {id : OrderId} {e : OutputEvent} (h : e.names id = false) :
    e.closes id = false ∧ e.trades id = 0 := by
  cases e with
  | trade seq taker maker price qty side ts =>
    have hid : ¬(taker = id ∨ maker = id) := by simpa [names] using h
    exact ⟨rfl, if_neg hid⟩
  | rejected i reason =>
    cases reason with
    | fokUnfillable => exact ⟨h, rfl⟩
    | _ => exact ⟨rfl, rfl⟩
  | accepted => exact ⟨rfl, rfl⟩
  | partiallyFilled => exact ⟨rfl, rfl⟩
  | _ => exact ⟨h, rfl⟩

theorem OutputEvent.closes_cases {id : OrderId} {e : OutputEvent} (h : e.closes id = true) :
    (∃ seq, e = .filled id seq) ∨ (∃ seq, e = .cancelled id seq ∨ e = .replaced id seq) ∨
      ∃ seq, e = .rejected id .fokUnfillable seq := by
  cases e with
  | filled i seq => exact .inl ⟨seq, congrArg (filled · seq) (of_decide_eq_true h)⟩
  | cancelled i seq =>
    exact .inr (.inl ⟨seq, .inl (congrArg (cancelled · seq) (of_decide_eq_true h))⟩)
  | replaced i seq =>
    exact .inr (.inl ⟨seq, .inr (congrArg (replaced · seq) (of_decide_eq_true h))⟩)
  | rejected i reason seq =>
    cases reason with
    | fokUnfillable =>
      exact .inr (.inr ⟨seq, congrArg (rejected · .fokUnfillable seq) (of_decide_eq_true h)⟩)
    | _ => cases h
  | _ => cases h

/-! ## Open accounts -/

section Account

variable {id : OrderId} {w f : Nat} {p : Posting} {a a' : Account}

/-- A posting on an open account debits what it trades, or closes the account. -/
theorem ledgerStep_inv (h : ledgerStep id (some (w, f)) p = some a) (hf : f ≤ w) :
    p.2.closes id = true ∧ a = none ∨
      p.2.closes id = false ∧ a = some (w, f + p.2.trades id) ∧ f + p.2.trades id ≤ w := by
  obtain ⟨n, e⟩ := p
  cases hnames : e.names id with
  | false =>
    obtain ⟨hcloses, htrades⟩ := OutputEvent.of_not_names hnames
    rw [ledgerStep_other hnames] at h
    cases h
    exact .inr ⟨hcloses, by rw [htrades]; rfl, by simpa [htrades] using hf⟩
  | true =>
    unfold ledgerStep at h
    rw [if_pos hnames] at h
    cases e with
    | accepted => cases h
    | trade seq taker maker price qty side ts =>
      have hid : taker = id ∨ maker = id := by simpa [OutputEvent.names] using hnames
      dsimp only at h
      split at h
      · next hfits =>
        cases h
        have htrades : (OutputEvent.trade seq taker maker price qty side ts).trades id =
            qty.toNat := if_pos hid
        exact .inr ⟨rfl, by rw [htrades], by rw [htrades]; exact hfits.2⟩
      · cases h
    | rejected i reason seq =>
      have hid : i = id := by simpa [OutputEvent.names] using hnames
      cases reason with
      | fokUnfillable =>
        dsimp only at h
        split at h
        · cases h
          exact .inl ⟨by simpa [OutputEvent.closes] using hid, rfl⟩
        · cases h
      | _ =>
        cases h
        exact .inr ⟨rfl, rfl, hf⟩
    | partiallyFilled i filled left seq =>
      dsimp only at h
      split at h
      · cases h
        exact .inr ⟨rfl, rfl, hf⟩
      · cases h
    | _ =>
      dsimp only at h
      split at h
      · cases h
        exact .inl ⟨hnames, rfl⟩
      · cases h

/-- Only an acceptance opens an account. -/
theorem ledgerStep_opens (h : ledgerStep id none p = some (some (w, f))) :
    ∃ seq, p.2 = .accepted id seq ∧ p.1 ≠ 0 ∧ (w, f) = (p.1.toNat, 0) := by
  obtain ⟨n, e⟩ := p
  cases hnames : e.names id with
  | false =>
    rw [ledgerStep_other hnames] at h
    cases h
  | true =>
    unfold ledgerStep at h
    rw [if_pos hnames] at h
    cases e with
    | accepted i seq =>
      have hid : i = id := by simpa [OutputEvent.names] using hnames
      dsimp only at h
      split at h
      · next hn =>
        cases h
        exact ⟨seq, by rw [hid], hn, rfl⟩
      · cases h
    | rejected i reason seq => cases reason <;> cases h
    | _ => cases h

/-- An account that stays open is debited with all that is traded. -/
theorem run_open {ps : List Posting} (h : run (ledgerStep id) (some (w, f)) ps = some a)
    (hopen : ∀ p ∈ ps, p.2.closes id = false) (hf : f ≤ w) :
    a = some (w, f + traded id ps) ∧ f + traded id ps ≤ w := by
  induction ps generalizing f with
  | nil =>
    cases h
    exact ⟨rfl, hf⟩
  | cons p ps ih =>
    obtain ⟨a₁, hstep, hrest⟩ := run_cons_eq_some h
    have hp := hopen p List.mem_cons_self
    rcases ledgerStep_inv hstep hf with ⟨hcloses, -⟩ | ⟨-, rfl, hf'⟩
    · rw [hp] at hcloses
      cases hcloses
    · have hps := ih hrest (fun p' hp' => hopen p' (List.mem_cons_of_mem p hp')) hf'
      rwa [Nat.add_assoc, ← traded_cons] at hps

/-- An account is open since an acceptance that is not followed by a closing event. -/
theorem run_open_inv {ps : List Posting} (h : run (ledgerStep id) none ps = some (some (w, f))) :
    ∃ n seq before past, ps = before ++ (n, .accepted id seq) :: past ∧
      (∀ p ∈ past, p.2.closes id = false) ∧ n.toNat = w ∧ n ≠ 0 ∧ f ≤ w := by
  induction ps using List.reverseRecOn generalizing w f with
  | nil => cases h
  | append_singleton ps p ih =>
    obtain ⟨a₁, hrun, hlast⟩ := run_append_eq_some h
    obtain ⟨a₂, hstep, hnil⟩ := run_cons_eq_some hlast
    cases hnil
    cases a₁ with
    | none =>
      obtain ⟨seq, hp, hn, hw⟩ := ledgerStep_opens hstep
      cases hw
      obtain ⟨n, e⟩ := p
      cases hp
      exact ⟨n, seq, ps, [], rfl, nofun, rfl, hn, Nat.zero_le _⟩
    | some a₁ =>
      obtain ⟨w', f'⟩ := a₁
      obtain ⟨n, seq, before, past, rfl, hpast, rfl, hn, hf⟩ := ih hrun
      rcases ledgerStep_inv hstep hf with ⟨-, ha⟩ | ⟨hcloses, ha, hf'⟩
      · cases ha
      · cases ha
        refine ⟨n, seq, before, past ++ [p], by simp, fun p' hp' => ?_, rfl, hn, hf'⟩
        rcases List.mem_append.1 hp' with hp' | hp'
        · exact hpast p' hp'
        · rw [List.mem_singleton.1 hp']
          exact hcloses

/-- The acceptance of an order opens its account. -/
theorem run_accepted {n : Qty} {seq : Seq} {ps : List Posting}
    (h : run (ledgerStep id) a ((n, .accepted id seq) :: ps) = some a') :
    n ≠ 0 ∧ run (ledgerStep id) (some (n.toNat, 0)) ps = some a' := by
  obtain ⟨a₁, hstep, hrest⟩ := run_cons_eq_some h
  cases a with
  | none =>
    by_cases hn : n = 0
    · simp [ledgerStep, OutputEvent.names, hn] at hstep
    · rw [ledgerStep_accepted hn] at hstep
      cases hstep
      exact ⟨hn, hrest⟩
  | some a => simp [ledgerStep, OutputEvent.names] at hstep

/-- How a posting `e` fits an order of which `w` was submitted, when `past` has been
posted since its acceptance. -/
structure Balanced (id : OrderId) (w : Qty) (past : List Posting) (e : OutputEvent) : Prop where
  /-- Every trade is of something, and of no more than is left. -/
  trade : ∀ seq taker maker price qty side ts, e = .trade seq taker maker price qty side ts →
    taker = id ∨ maker = id → qty ≠ 0 ∧ traded id past + qty.toNat ≤ w.toNat
  report : ∀ filled left seq, e = .partiallyFilled id filled left seq →
    left.toNat = w.toNat - traded id past
  /-- What closes the order is `Filled` exactly when all of it has traded. -/
  filled : e.closes id = true → ((∃ seq, e = .filled id seq) ↔ traded id past = w.toNat)
  cancelled : (∃ seq, e = .cancelled id seq ∨ e = .replaced id seq) → traded id past < w.toNat
  killed : (∃ seq, e = .rejected id .fokUnfillable seq) → traded id past = 0
  /-- The id is not accepted again while the order is open. -/
  accepted : ∀ seq, e ≠ .accepted id seq

theorem balanced_of_ledgerStep {n w : Qty} {past : List Posting} {e : OutputEvent}
    (h : ledgerStep id (some (w.toNat, traded id past)) (n, e) = some a) (hw : w ≠ 0) :
    Balanced id w past e := by
  have hpos := toNat_ne_zero.2 hw
  have hfilled : ∀ seq, e = .filled id seq → traded id past = w.toNat := by
    rintro seq rfl
    by_contra hne
    simp [ledgerStep, OutputEvent.names, hne] at h
  have hcancelled : ∀ seq, e = .cancelled id seq ∨ e = .replaced id seq →
      traded id past < w.toNat := by
    rintro seq (rfl | rfl)
    · by_contra hlt
      simp [ledgerStep, OutputEvent.names, hlt] at h
    · by_contra hlt
      simp [ledgerStep, OutputEvent.names, hlt] at h
  have hkilled : ∀ seq, e = .rejected id .fokUnfillable seq → traded id past = 0 := by
    rintro seq rfl
    by_contra hne
    simp [ledgerStep, OutputEvent.names, hne] at h
  refine ⟨?_, ?_, ?_, fun hseq => hseq.elim hcancelled, fun hseq => hseq.elim hkilled, ?_⟩
  · rintro seq taker maker price qty side ts rfl hid
    by_contra hfits
    simp [ledgerStep, OutputEvent.names, hid, hfits] at h
  · rintro filled left seq rfl
    by_contra hleft
    have hne : traded id past + left.toNat ≠ w.toNat := by omega
    simp [ledgerStep, OutputEvent.names, hne] at h
  · intro hcloses
    refine ⟨fun hseq => hseq.elim hfilled, fun hall => ?_⟩
    rcases OutputEvent.closes_cases hcloses with ⟨seq, he⟩ | ⟨seq, he⟩ | ⟨seq, he⟩
    · exact ⟨seq, he⟩
    · have := hcancelled seq he
      omega
    · have := hkilled seq he
      omega
  · rintro seq rfl
    simp [ledgerStep, OutputEvent.names] at h

end Account

/-! ## Conservation -/

/-- `w` of the order `id` is accepted in the log, `past` is posted after that without
closing the order, and `rest` follows. -/
def Incarnation (log : List Entry) (id : OrderId) (w : Qty) (past rest : List Posting) : Prop :=
  ∃ seq before, postings log = before ++ (w, .accepted id seq) :: (past ++ rest) ∧
    ∀ p ∈ past, p.2.closes id = false

section Runs

variable {A : Type} [Slab A Order] {b : OrderBook A} {symbol : SymbolId} {tick : Price}
  {log : List Entry}

/-- **Conservation.** At every point between its acceptance and its closing event no
more of an order has traded than was submitted, and the next event fits what has
traded. After the run exactly the orders that are not closed are live, with what is
left of them in the arena. -/
theorem stopFree_conserves (h : ReachesStopFree symbol tick log b) (id : OrderId) :
    (∀ w past rest, Incarnation log id w past rest →
      traded id past ≤ w.toNat ∧
        (∀ p ∈ rest.head?, Balanced id w past p.2) ∧
        (rest = [] → ∃ loc o, b.idIndex[id]? = some loc ∧ b.slot? loc.slot = some o ∧ o.id = id ∧
          o.remaining.toNat = w.toNat - traded id past ∧ 0 < w.toNat - traded id past)) ∧
      (b.idIndex.contains id = true → ∃ w past, Incarnation log id w past []) := by
  obtain ⟨q, hrun, ⟨σ, hr⟩, hfree⟩ := reaches_refines h
  obtain ⟨hq, hledger⟩ := ledger_run hrun
  obtain ⟨a, ha, hholds⟩ := hledger id
  constructor
  · rintro w past rest ⟨seq, before, hlog, hpast⟩
    rw [hlog] at ha
    obtain ⟨a₀, -, ha⟩ := run_append_eq_some ha
    obtain ⟨hw, ha⟩ := run_accepted ha
    obtain ⟨a₁, hopen, hrest⟩ := run_append_eq_some ha
    obtain ⟨rfl, hle⟩ := run_open hopen hpast (Nat.zero_le _)
    rw [Nat.zero_add] at hrest hle
    refine ⟨hle, fun p hp => ?_, ?_⟩
    · cases rest with
      | nil => cases hp
      | cons p' rest =>
        cases hp
        obtain ⟨a₂, hstep, -⟩ := run_cons_eq_some hrest
        exact balanced_of_ledgerStep hstep hw
    · rintro rfl
      cases hrest
      obtain ⟨o, hlive, hsum⟩ := hholds
      obtain ⟨s, hidx, hcore, -⟩ := hr.locate hlive
      obtain ⟨o', ho', hu⟩ := get?_of_core hcore
      obtain ⟨⟨side, hmem⟩, hid⟩ := hq.live?_eq_some.1 hlive
      have hpos := toNat_ne_zero.2 (hq.maker side o hmem).2.2
      have hid' : o'.id = o.id := by rw [← hu]; rfl
      have hrem : o'.remaining = o.remaining := by rw [← hu]; rfl
      exact ⟨_, o', hidx, ho', hid'.trans hid, by rw [hrem]; omega, by omega⟩
  · intro hlive
    cases a with
    | none =>
      have hnone := (hr.index_none_iff hfree.held).2 hholds
      rw [Std.ExtTreeMap.contains_eq_isSome_getElem?, hnone] at hlive
      cases hlive
    | some a =>
      obtain ⟨w', f⟩ := a
      obtain ⟨w, seq, before, past, hlog, hpast, -⟩ := run_open_inv ha
      exact ⟨w, past, seq, before, by simpa using hlog, hpast⟩

theorem stopFree_conserves_sample : ∃ (b : OrderBook (VecSlab Order)) (log : List Entry),
    log.map Prod.fst = sampleCommands ∧ b.depth 2 = ⟨[(101, 4)], [(103, 6)], some 100⟩ ∧
      ∃ w past, Incarnation log 2 w past [] ∧ traded 2 past ≤ w.toNat := by
  obtain ⟨b, log, hrun, hlog, hdepth, hlive, -⟩ := sampleRun
  obtain ⟨hpoint, hopen⟩ := stopFree_conserves hrun 2
  obtain ⟨w, past, hpast⟩ := hopen hlive
  exact ⟨b, log, hlog, hdepth, w, past, hpast, (hpoint w past [] hpast).1⟩

/-! ## Blocks -/

def OutputEvent.opens : OutputEvent → Bool
  | .accepted .. => true
  | _ => false

def OutputEvent.continues : OutputEvent → Bool
  | .trade .. | .partiallyFilled .. => true
  | _ => false

def OutputEvent.ends : OutputEvent → Bool
  | .filled .. | .cancelled .. | .replaced .. | .rejected _ .fokUnfillable _ => true
  | _ => false

/-- A rejection that is not the kill of an accepted order. -/
def OutputEvent.refuses : OutputEvent → Bool
  | .rejected _ .fokUnfillable _ => false
  | .rejected .. => true
  | _ => false

/-- The events of the log that name `id`, less the refusals. -/
def history (log : List Entry) (id : OrderId) : List OutputEvent :=
  (log.flatMap Prod.snd).filter fun e => e.names id && !e.refuses

theorem history_eq (log : List Entry) (id : OrderId) :
    history log id =
      ((postings log).filter fun p => p.2.names id && !p.2.refuses).map Prod.snd := by
  unfold history
  rw [show (fun p : Posting => p.2.names id && !p.2.refuses) =
    (fun e : OutputEvent => e.names id && !e.refuses) ∘ Prod.snd from rfl, ← List.filter_map]
  congr 1
  unfold postings
  rw [List.map_flatMap]
  refine List.flatMap_congr fun e _ => ?_
  rw [Entry.postings, List.map_map]
  exact (List.map_id _).symm

/-- The block monitor follows the account: a block is open as long as the account. -/
theorem blockStep_of_ledgerStep {id : OrderId} {p : Posting} {a a' : Account}
    (hp : (p.2.names id && !p.2.refuses) = true) (h : ledgerStep id a p = some a') :
    blockStep OutputEvent.opens OutputEvent.continues OutputEvent.ends a.isSome p.2 =
      some a'.isSome := by
  obtain ⟨n, e⟩ := p
  obtain ⟨hnames, hrefuses⟩ : e.names id = true ∧ e.refuses = false := by simpa using hp
  unfold ledgerStep at h
  rw [if_pos hnames] at h
  cases a with
  | none =>
    -- only an acceptance fits
    cases e with
    | accepted i seq =>
      dsimp only at h
      split at h
      · cases h
        rfl
      · cases h
    | rejected i reason seq =>
      cases reason with
      | fokUnfillable => cases h
      | _ => cases hrefuses
    | _ => cases h
  | some a =>
    cases e with
    | accepted i seq => cases h
    | rejected i reason seq =>
      cases reason with
      | fokUnfillable =>
        dsimp only at h
        split at h
        · cases h
          rfl
        · cases h
      | _ => cases hrefuses
    | _ =>
      dsimp only at h
      split at h
      · cases h
        rfl
      · cases h

/-- The ledger ignores what the history leaves out. -/
theorem ledgerStep_of_ignored {id : OrderId} {p : Posting} {a : Account}
    (h : (p.2.names id && !p.2.refuses) = false) : ledgerStep id a p = some a := by
  obtain ⟨n, e⟩ := p
  cases hnames : e.names id with
  | false => exact ledgerStep_other hnames
  | true =>
    have hrefuses : e.refuses = true := by simpa [hnames] using h
    cases e with
    | rejected i reason seq =>
      refine ledgerStep_rejected ?_
      rintro rfl
      cases hrefuses
    | _ => cases hrefuses

theorem OutputEvent.of_ends {e : OutputEvent} (h : e.ends = true) :
    e.opens = false ∧ e.continues = false := by
  cases e with
  | rejected i reason seq => exact ⟨rfl, rfl⟩
  | accepted => cases h
  | trade => cases h
  | partiallyFilled => cases h
  | _ => exact ⟨rfl, rfl⟩

/-- A cancel or replace of an id that is not indexed is refused. -/
theorem Applies.of_not_indexed {id : OrderId} {cmd : Sequenced} {b' : OrderBook A}
    {events : List OutputEvent} (hid : b.idIndex.contains id = false)
    (hcmd : (∃ symbol, cmd.cmd = .cancel id symbol) ∨
      ∃ newPrice newQty symbol, cmd.cmd = .replace id newPrice newQty symbol)
    (h : Applies b cmd b' events) :
    b' = b ∧ (events = [.rejected id .unknownId cmd.seq] ∨
      events = [.rejected id .zeroQty cmd.seq]) := by
  have hnone : b.idIndex[id]? = none := by
    rw [Std.ExtTreeMap.contains_eq_isSome_getElem?] at hid
    exact Option.isNone_iff_eq_none.1 (by rw [← Option.not_isSome, hid]; rfl)
  obtain ⟨seq, ts, cmd⟩ := cmd
  obtain ⟨fuel, h⟩ := h
  rcases hcmd with ⟨symbol, rfl⟩ | ⟨newPrice, newQty, symbol, rfl⟩
  · simp only [applyWithin, applyCancel, hnone, Fuel.pure_eq_ok] at h
    cases h
    exact ⟨rfl, .inl rfl⟩
  · by_cases hqty : newQty = 0
    · simp only [applyWithin, applyReplace, hqty, if_true, Fuel.pure_eq_ok] at h
      cases h
      exact ⟨rfl, .inr rfl⟩
    · simp only [applyWithin, applyReplace, hqty, if_false, hnone, Fuel.pure_eq_ok] at h
      cases h
      exact ⟨rfl, .inl rfl⟩

/-- **Life cycle.** The events naming an id are blocks: an acceptance, trades and
reports, one closing event. Only the last block may be unfinished, and it is exactly
when the id is indexed; so what follows a closing event is an acceptance. A cancel
or replace of an id that is not indexed is refused and changes nothing. -/
theorem stopFree_lifeCycle (h : ReachesStopFree symbol tick log b) (id : OrderId) :
    (∃ (blocks : List (List OutputEvent)) (last : List OutputEvent),
      history log id = blocks.flatten ++ last ∧
      (∀ k ∈ blocks, IsBlock OutputEvent.opens OutputEvent.continues OutputEvent.ends k) ∧
      (last = [] ∨ IsOpenBlock OutputEvent.opens OutputEvent.continues last) ∧
      (b.idIndex.contains id = true ↔ last ≠ [])) ∧
      (∀ before e e' after, history log id = before ++ e :: e' :: after → e.ends = true →
        e'.opens = true) ∧
      ∀ cmd b' events, b.idIndex.contains id = false →
        (∃ symbol, cmd.cmd = .cancel id symbol) ∨
          (∃ newPrice newQty symbol, cmd.cmd = .replace id newPrice newQty symbol) →
        Applies b cmd b' events →
        b' = b ∧ (events = [.rejected id .unknownId cmd.seq] ∨
          events = [.rejected id .zeroQty cmd.seq]) := by
  obtain ⟨q, hrun, ⟨σ, hr⟩, hfree⟩ := reaches_refines h
  obtain ⟨hq, hledger⟩ := ledger_run hrun
  obtain ⟨a, ha, hholds⟩ := hledger id
  have hblocks : run (blockStep OutputEvent.opens OutputEvent.continues OutputEvent.ends) false
      (history log id) = some a.isSome := by
    rw [history_eq]
    exact run_image Option.isSome Prod.snd (fun p hp a a' => blockStep_of_ledgerStep
      (List.mem_filter.1 hp).2) ((run_filter _ fun a p => ledgerStep_of_ignored).trans ha)
  have hindex : b.idIndex.contains id = a.isSome := by
    rw [Std.ExtTreeMap.contains_eq_isSome_getElem?]
    cases a with
    | none =>
      rw [(hr.index_none_iff hfree.held).2 hholds]
      rfl
    | some a =>
      obtain ⟨o, hlive, -⟩ := hholds
      obtain ⟨s, hidx, -⟩ := hr.locate hlive
      rw [hidx]
      rfl
  refine ⟨?_, fun before e e' after hlog he => ?_, fun cmd b' events hid hcmd happly => ?_⟩
  · obtain ⟨blocks, last, hlog, hk, hlast⟩ := blocks_of_run _ _ _ hblocks
    refine ⟨blocks, last, hlog, hk, ?_, ?_⟩
    · exact hlast.imp And.right And.right
    · rw [hindex]
      rcases hlast with ⟨hs, rfl⟩ | ⟨hs, x, body, rfl, -⟩
      · simp [hs]
      · simp [hs]
  · rw [hlog] at hblocks
    obtain ⟨hopens, hcontinues⟩ := OutputEvent.of_ends he
    exact opens_of_run hblocks hopens hcontinues
  · exact Applies.of_not_indexed hid hcmd happly

theorem stopFree_lifeCycle_sample : ∃ (b : OrderBook (VecSlab Order)) (log : List Entry),
    log.map Prod.fst = sampleCommands ∧ b.depth 2 = ⟨[(101, 4)], [(103, 6)], some 100⟩ ∧
      ∀ b' events, Applies b ⟨6, 0, .cancel 1 0⟩ b' events →
        b' = b ∧ (events = [.rejected 1 .unknownId 6] ∨ events = [.rejected 1 .zeroQty 6]) := by
  obtain ⟨b, log, hrun, hlog, hdepth, -, hclosed⟩ := sampleRun
  obtain ⟨-, -, hcancel⟩ := stopFree_lifeCycle hrun 1
  exact ⟨b, log, hlog, hdepth, fun b' events => hcancel _ b' events hclosed (.inl ⟨0, rfl⟩)⟩

end Runs

end Exchange
