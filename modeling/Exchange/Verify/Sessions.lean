import Exchange.Gateway.Session
import Exchange.Verify.Delivery
import Exchange.Verify.Sharding

/-!
# What the answers of a session mean

Each line that is not blank gets one answer, in order, and the answer is that of its own
submit (`sessions_answered`). From the answers to the books: what the shards have applied to
the book of a symbol, with what they still have to apply, is what has been acknowledged, in
the order in which it was (`acknowledged_applied`).
-/

namespace Exchange

open Transition

variable {C A : Type} [DecidableEq C] [Slab A Order]
  {fromStr : String → Except String JsonInbound} {symbols : List (SymbolId × Price)}
  {numShards capacity : Nat} {lines : C → List String} {g g' : Gateway C A}
  {a : GatewayAction C} {as : List (GatewayAction C)} {s s' : Engine C} {c : C}

/-! ## Steps of the engine as a session sees them -/

omit [Slab A Order]

/-- The submits of a client that have returned. -/
def Engine.returnedTo (s : Engine C) (c : C) : List (Submitted C) :=
  s.returned.filter fun v => v.client = c

theorem stamp_submitting {cmd : Command} {ts : Ts}
    (h : EngineStep numShards capacity s (.stamp c cmd ts) s') :
    s'.returned = s.returned ∧ s'.popped = s.popped ∧ ∃ y : Submitting, y.cmd = cmd ∧
      s'.submitting = Function.update s.submitting c (some y) := by
  cases h with
  | stamp hopen hidle => exact ⟨rfl, rfl, _, rfl, rfl⟩

theorem push_returned {accepted : Bool}
    (h : EngineStep numShards capacity s (.push c accepted) s') :
    s'.popped = s.popped ∧ ∃ y, s.submitting c = some y ∧
      s'.submitting = Function.update s.submitting c none ∧
      s'.returned = s.returned ++ [⟨c, y.count, y.cmd,
        if accepted then .ok y.sequenced.seq else .err y.cmd⟩] := by
  cases h with
  | accept hc hroom => exact ⟨rfl, _, hc, rfl, rfl⟩
  | reject hc hfull => exact ⟨rfl, _, hc, rfl, rfl⟩

theorem pop_submitting {i : Nat} (h : EngineStep numShards capacity s (.pop i) s') :
    s'.submitting = s.submitting ∧ s'.returned = s.returned := by
  cases h with
  | pop hring => exact ⟨rfl, rfl⟩

theorem returnedTo_append_self (v : Submitted C) (hs : s'.returned = s.returned ++ [v]) :
    s'.returnedTo v.client = s.returnedTo v.client ++ [v] := by
  simp [Engine.returnedTo, hs]

theorem returnedTo_append_of_ne {v : Submitted C} (hs : s'.returned = s.returned ++ [v])
    (hne : v.client ≠ c) : s'.returnedTo c = s.returnedTo c := by
  simp [Engine.returnedTo, hs, hne]

/-! ## One session -/

/-- The lines that are not blank. -/
def requests (lines : List String) : List String :=
  (lines.map trim).filter fun request => !request.isEmpty

theorem requests_append (lines lines' : List String) :
    requests (lines ++ lines') = requests lines ++ requests lines' := by
  simp [requests]

/-- The command that a request is a submit of, with the answer. -/
def reply (fromStr : String → Except String JsonInbound) (r : String × String) :
    Option (Command × String) :=
  match react fromStr r.1 with
  | .submit cmd => some (cmd, r.2)
  | _ => none

theorem react_skip {request : String} : react fromStr request = .skip ↔ request.isEmpty = true := by
  unfold react
  split
  · next h => simp [h]
  · next h =>
    split
    · simp [h]
    · next msg _ => cases msg <;> simp [jsonToCommand, h]

theorem requests_of_skip {line : String} (h : react fromStr (trim line) = .skip) :
    requests [line] = [] := by
  simp [requests, react_skip.1 h]

theorem requests_of_react {line : String} (h : react fromStr (trim line) ≠ .skip) :
    requests [line] = [trim line] := by
  simp [requests, mt react_skip.2 h]

/-- The requests that a session has read are answered, all but the one that it is
submitting, and the answers are those of its submits. -/
structure Answering (fromStr : String → Except String JsonInbound) (lines : List String)
    (x : JsonSession) (submitting : Option Submitting) (returned : List (Submitted C)) : Prop where
  read : ∃ read, lines = read ++ x.unread ∧
    requests read = x.answered.map Prod.fst ++ x.pending.toList
  errors : ∀ r ∈ x.answered, ∀ answer, react fromStr r.1 = .error answer → r.2 = answer
  submits : x.answered.filterMap (reply fromStr) = returned.map fun v => (v.cmd, v.result.line)
  pending : x.pending.map (react fromStr) = submitting.map fun y => .submit y.cmd

namespace Answering

variable {line request text : String} {rest unread : List String}
  {answered : List (String × String)} {ls : List String} {submitting : Option Submitting}
  {returned : List (Submitted C)} {closed closed' : Bool}

omit [DecidableEq C]

theorem start (ls : List String) :
    Answering fromStr ls (.start ls) none ([] : List (Submitted C)) where
  read := ⟨[], rfl, rfl⟩
  errors := nofun
  submits := rfl
  pending := rfl

theorem skip (h : Answering fromStr ls ⟨line :: rest, none, answered, closed⟩ submitting returned)
    (hreact : react fromStr (trim line) = .skip) :
    Answering fromStr ls ⟨rest, none, answered, closed⟩ submitting returned where
  read := by
    obtain ⟨read, hls, hread⟩ := h.read
    refine ⟨read ++ [line], by simp [hls], ?_⟩
    rw [requests_append, requests_of_skip hreact, List.append_nil, hread]
  errors := h.errors
  submits := h.submits
  pending := h.pending

theorem refuse
    (h : Answering fromStr ls ⟨line :: rest, none, answered, closed⟩ submitting returned)
    (hreact : react fromStr (trim line) = .error text) :
    Answering fromStr ls ⟨rest, none, answered ++ [(trim line, text)], closed⟩ submitting
      returned where
  read := by
    obtain ⟨read, hls, hread⟩ := h.read
    have hne : react fromStr (trim line) ≠ .skip := by simp [hreact]
    refine ⟨read ++ [line], by simp [hls], ?_⟩
    rw [requests_append, requests_of_react hne, hread]
    simp
  errors := by
    intro r hr text' hr'
    rcases List.mem_append.1 hr with hr | hr
    · exact h.errors r hr text' hr'
    · cases List.mem_singleton.1 hr
      rw [hreact] at hr'
      exact Reaction.error.inj hr'
  submits := by
    have hnone : reply fromStr (trim line, text) = none := by simp [reply, hreact]
    rw [List.filterMap_append, h.submits]
    simp [hnone]
  pending := h.pending

theorem submit
    (h : Answering fromStr ls ⟨line :: rest, none, answered, closed⟩ submitting returned)
    {y : Submitting} (hreact : react fromStr (trim line) = .submit y.cmd) :
    Answering fromStr ls ⟨rest, some (trim line), answered, closed⟩ (some y) returned where
  read := by
    obtain ⟨read, hls, hread⟩ := h.read
    have hne : react fromStr (trim line) ≠ .skip := by simp [hreact]
    refine ⟨read ++ [line], by simp [hls], ?_⟩
    rw [requests_append, requests_of_react hne, hread]
    simp
  errors := h.errors
  submits := h.submits
  pending := congrArg some hreact

theorem answer {y : Submitting}
    (h : Answering fromStr ls ⟨unread, some request, answered, closed⟩ (some y) returned)
    (c : C) (result : SubmitResult) (closed' : Bool) :
    Answering fromStr ls ⟨unread, none, answered ++ [(request, result.line)], closed'⟩ none
      (returned ++ [⟨c, y.count, y.cmd, result⟩]) where
  read := by
    obtain ⟨read, hls, hread⟩ := h.read
    exact ⟨read, hls, by simp [hread]⟩
  errors := by
    intro r hr text' hr'
    rcases List.mem_append.1 hr with hr | hr
    · exact h.errors r hr text' hr'
    · cases List.mem_singleton.1 hr
      rw [Option.some.inj h.pending] at hr'
      cases hr'
  submits := by
    have hsome : reply fromStr (request, result.line) = some (y.cmd, result.line) := by
      simp [reply, show react fromStr request = .submit y.cmd from Option.some.inj h.pending]
    rw [List.filterMap_append, h.submits]
    simp [hsome]
  pending := rfl

theorem leave (h : Answering fromStr ls ⟨unread, none, answered, closed⟩ submitting returned) :
    Answering fromStr ls ⟨unread, none, answered, closed'⟩ submitting returned where
  read := h.read
  errors := h.errors
  submits := h.submits
  pending := h.pending

end Answering

/-! ## All sessions -/

/-- What a step does to the session of each client, and to its submits. -/
theorem GatewayStep.answering [Slab A Order]
    (hstep : GatewayStep fromStr numShards capacity g a g')
    (h : ∀ c, Answering fromStr (lines c) (g.sessions c) (g.engine.submitting c)
      (g.engine.returnedTo c)) (c : C) :
    Answering fromStr (lines c) (g'.sessions c) (g'.engine.submitting c)
      (g'.engine.returnedTo c) := by
  have hc := h c
  cases hstep with
  | @skip c' line rest answered ts hsession hreact =>
    rcases eq_or_ne c c' with rfl | hne
    · rw [hsession] at hc
      simpa using hc.skip hreact
    · simpa [hne] using hc
  | @refuse c' line answer rest answered ts hsession hreact =>
    rcases eq_or_ne c c' with rfl | hne
    · rw [hsession] at hc
      simpa using hc.refuse hreact
    · simpa [hne] using hc
  | @submit c' line rest answered cmd ts engine hsession hreact hstamp =>
    obtain ⟨hreturned, -, y, rfl, hsubmitting⟩ := stamp_submitting hstamp
    have hsame : engine.returnedTo c = g.engine.returnedTo c := by
      simp [Engine.returnedTo, hreturned]
    rcases eq_or_ne c c' with rfl | hne
    · rw [hsession] at hc
      simpa [hsubmitting, hsame] using hc.submit hreact
    · simpa [hsubmitting, hsame, hne] using hc
  | @acknowledge c' request unread answered y engine written hsession hy hpush =>
    obtain ⟨-, y', hy', hsubmitting, hreturned⟩ := push_returned hpush
    obtain rfl : y = y' := Option.some.inj (hy.symm.trans hy')
    rcases eq_or_ne c c' with rfl | hne
    · rw [hsession, hy] at hc
      have hanswer := hc.answer c (.ok y.sequenced.seq) !written
      simpa [hsubmitting, returnedTo_append_self _ hreturned, SubmitResult.line] using hanswer
    · simpa [hsubmitting, returnedTo_append_of_ne hreturned hne.symm, hne] using hc
  | @ringFull c' request unread answered engine written hsession hpush =>
    obtain ⟨-, y, hy, hsubmitting, hreturned⟩ := push_returned hpush
    rcases eq_or_ne c c' with rfl | hne
    · rw [hsession, hy] at hc
      have hanswer := hc.answer c (.err y.cmd) false
      simpa [hsubmitting, returnedTo_append_self _ hreturned, SubmitResult.line] using hanswer
    · simpa [hsubmitting, returnedTo_append_of_ne hreturned hne.symm, hne] using hc
  | @leave c' unread answered hsession =>
    rcases eq_or_ne c c' with rfl | hne
    · rw [hsession] at hc
      simpa using hc.leave
    · simpa [hne] using hc
  | pop hfree hring hpop =>
    obtain ⟨hsubmitting, hreturned⟩ := pop_submitting hpop
    simpa [hsubmitting, Engine.returnedTo, hreturned] using hc
  | apply hcmd hshards => exact hc

theorem GatewayStep.delivers [Slab A Order]
    (hstep : GatewayStep fromStr numShards capacity g a g') (h : Delivers numShards g.engine) :
    Delivers numShards g'.engine := by
  cases hstep with
  | submit _ _ hengine => exact h.step hengine
  | acknowledge _ _ hengine => exact h.step hengine
  | ringFull _ hengine => exact h.step hengine
  | pop _ _ hengine => exact h.step hengine
  | _ => exact h

/-- The number in an acknowledgement. -/
def Submitted.ack (v : Submitted C) : Option Seq :=
  match v.result with
  | .ok seq => some seq
  | .err _ => none

/-- A client is given increasing numbers, until they come round. -/
theorem Delivers.acks_lt (h : Delivers numShards s) (hcount : s.count < 2 ^ 64) (c : C) :
    ((s.returnedTo c).filterMap Submitted.ack).Pairwise (· < ·) := by
  have horder : s.returned.Pairwise fun v w => v.client = w.client → v.count < w.count :=
    List.pairwise_map.1 h.sound.tickets.client_order
  have hlt : ∀ v ∈ s.returned, v.count < s.count := fun v hv =>
    h.sound.tickets.offered_lt _ (List.mem_map_of_mem hv)
  rw [List.pairwise_filterMap]
  refine ((horder.filter _).imp_of_mem ?_)
  intro v w hv hw hvw n hn m hm
  obtain ⟨hv, hvc⟩ := List.mem_filter.1 hv
  obtain ⟨hw, hwc⟩ := List.mem_filter.1 hw
  have hclient : v.client = w.client := (of_decide_eq_true hvc).trans (of_decide_eq_true hwc).symm
  have hack : ∀ u ∈ s.returned, ∀ n, u.ack = some n → n = seqOf u.count := by
    intro u hu n hn
    unfold Submitted.ack at hn
    rcases h.stamped.returned u hu with hok | herr
    · rw [hok] at hn
      exact (Option.some.inj hn).symm
    · rw [herr] at hn
      cases hn
  rw [hack v hv n hn, hack w hw m hm, UInt64.lt_iff_toNat_lt]
  have hvlt := hlt v hv
  have hwlt := hlt w hw
  rw [toNat_seqOf (by have := hvw hclient; omega), toNat_seqOf (by omega)]
  exact Nat.succ_lt_succ (hvw hclient)

/-! ## From the answers to the books -/

def GatewayAction.turn : GatewayAction C → List ShardTurn
  | .apply p => [p]
  | _ => []

/-- The turns of the shards, in order. -/
def shardTurns (as : List (GatewayAction C)) : List ShardTurn := as.flatMap GatewayAction.turn

def Sequenced.numbered (cmd : Sequenced) : Command × Seq := (cmd.cmd, cmd.seq)

/-- The commands for a symbol that have been acknowledged, with their numbers. -/
def Engine.acknowledged (s : Engine C) (symbol : SymbolId) : List (Command × Seq) :=
  s.returned.filterMap fun v => (v.ack.filter fun _ => v.cmd.symbol = symbol).map (v.cmd, ·)

/-- The commands for a symbol that its shard has not applied yet. -/
def Gateway.waiting (numShards : Nat) (g : Gateway C A) (symbol : SymbolId) :
    List (Command × Seq) :=
  (((g.handling (shardFor symbol numShards)).toList ++
    (g.engine.rings (shardFor symbol numShards)).map (·.sequenced)).filter
      fun cmd => cmd.cmd.symbol = symbol).map Sequenced.numbered

/-- The shards have run the turns, and are handling what they popped beyond them. -/
structure Handling [Slab A Order] (symbols : List (SymbolId × Price)) (numShards : Nat)
    (ps : List ShardTurn) (g : Gateway C A) : Prop where
  shards : Run (ShardsStep numShards) (Shards.start symbols numShards) ps g.shards
  popped : ∀ i, (g.engine.popped i).map (·.sequenced) =
    (routed (ShardTurn.shard numShards) i ps).map (·.cmd) ++ (g.handling i).toList

omit [DecidableEq C] in
theorem Handling.start [Slab A Order] :
    Handling symbols numShards [] (.start symbols numShards lines : Gateway C A) :=
  ⟨.nil, fun _ => rfl⟩

omit [DecidableEq C] in
/-- Nothing a client does is seen by the shards. -/
theorem Handling.client [Slab A Order] {ps : List ShardTurn} (h : Handling symbols numShards ps g)
    (sessions : C → JsonSession) {engine : Engine C} (hpopped : engine.popped = g.engine.popped) :
    Handling symbols numShards (ps ++ []) { g with sessions, engine } := by
  rw [List.append_nil]
  exact ⟨h.shards, fun i => hpopped ▸ h.popped i⟩

theorem GatewayStep.handling [Slab A Order]
    (hstep : GatewayStep fromStr numShards capacity g a g')
    (h : Handling symbols numShards (shardTurns as) g) :
    Handling symbols numShards (shardTurns (as ++ [a])) g' := by
  have hturns : shardTurns (as ++ [a]) = shardTurns as ++ a.turn := by simp [shardTurns]
  rw [hturns]
  cases hstep with
  | skip _ _ => exact h.client _ rfl
  | refuse _ _ => exact h.client _ rfl
  | leave _ => exact h.client _ rfl
  | submit _ _ hstamp => exact h.client _ (stamp_submitting hstamp).2.1
  | acknowledge _ _ hpush => exact h.client _ (push_returned hpush).1
  | ringFull _ hpush => exact h.client _ (push_returned hpush).1
  | @pop i e rest engine hfree hring hpop =>
    refine ⟨by simpa [GatewayAction.turn] using h.shards, fun j => ?_⟩
    have hpopped : engine.popped =
        Function.update g.engine.popped i (g.engine.popped i ++ [e]) := by
      cases hpop with
      | pop hring' =>
        obtain ⟨rfl, rfl⟩ := List.cons.inj (hring.symm.trans hring')
        rfl
    have hj := h.popped j
    rcases eq_or_ne j i with rfl | hne
    · rw [hfree] at hj
      simpa [hpopped, GatewayAction.turn] using hj
    · simpa [hpopped, hne, GatewayAction.turn] using hj
  | @apply p shards hcmd hshards =>
    refine ⟨h.shards.snoc hshards, fun j => ?_⟩
    have hj := h.popped j
    rw [GatewayAction.turn, routed_append, List.map_append, hj]
    rcases eq_or_ne (p.shard numShards) j with rfl | hne
    · rw [routed_singleton_self, show g.handling (p.shard numShards) = some p.cmd from hcmd]
      simp [ShardTurn.shard]
    · rw [routed_singleton_of_ne hne]
      change _ = _ ++ (Function.update g.handling (p.shard numShards) none j).toList
      rw [Function.update_of_ne hne.symm, List.map_nil, List.append_nil]

section Acknowledged

variable {symbol : SymbolId}

omit [DecidableEq C]

theorem acknowledged_eq_map (h : Delivers numShards s) (symbol : SymbolId) :
    s.acknowledged symbol = ((s.acceptedBy numShards (shardFor symbol numShards)).filter
      fun v => v.cmd.symbol = symbol).map fun v => (v.cmd, seqOf v.count) := by
  have hstamped := h.stamped.returned
  unfold Engine.acknowledged Engine.acceptedBy
  generalize s.returned = vs at hstamped ⊢
  induction vs with
  | nil => rfl
  | cons v vs ih =>
    have htail := ih fun w hw => hstamped w (List.mem_cons_of_mem _ hw)
    rcases hstamped v List.mem_cons_self with hok | herr
    · by_cases hsymbol : v.cmd.symbol = symbol
      · simpa [Submitted.ack, hok, SubmitResult.isOk, hsymbol] using htail
      · by_cases hshard : shardFor v.cmd.symbol numShards = shardFor symbol numShards <;>
          simpa [Submitted.ack, hok, SubmitResult.isOk, hsymbol, hshard] using htail
    · simpa [Submitted.ack, herr, SubmitResult.isOk] using htail

/-- A shard pops, or still has in its ring, what has been acknowledged. -/
theorem numbered_eq_acknowledged (h : Delivers numShards s) (symbol : SymbolId) :
    (((s.popped (shardFor symbol numShards) ++ s.rings (shardFor symbol numShards)).map
      (·.sequenced)).filter fun cmd => cmd.cmd.symbol = symbol).map Sequenced.numbered =
        s.acknowledged symbol := by
  rw [acknowledged_eq_map h symbol]
  generalize shardFor symbol numShards = i
  have hitems : (s.popped i ++ s.rings i).map Enqueued.item =
      (s.acceptedBy numShards i).map fun v => ⟨v.count, v.cmd⟩ := by
    have hconserved := h.sound.conserved i
    unfold TicketQueue.acceptedBy Engine.tickets at hconserved
    rw [List.filter_map, List.map_map, ← List.map_append] at hconserved
    exact hconserved
  have hnumber : ∀ e ∈ s.popped i ++ s.rings i,
      e.sequenced.numbered = (e.item.payload, seqOf e.item.ticket) := by
    intro e he
    have hseq : e.sequenced.seq = seqOf e.count := by
      rcases List.mem_append.1 he with he | he
      · exact h.stamped.popped i e he
      · exact h.stamped.rings i e he
    exact Prod.ext rfl hseq
  have hfiltered := congrArg (fun xs : List (TicketQueue.Item Command) =>
    (xs.filter fun x => x.payload.symbol = symbol).map fun x => (x.payload, seqOf x.ticket)) hitems
  simp only [List.filter_map, List.map_map] at hfiltered ⊢
  refine Eq.trans (List.map_congr_left fun e he => ?_) hfiltered
  exact hnumber e (List.mem_of_mem_filter he)

end Acknowledged

/-! ### Two clients -/

def cancelText (id : Nat) : String :=
  "\x7b\"t\":\"cancel\",\"id\":" ++ toString id ++ ",\"symbol\":\"AAPL\"\x7d"

def parseCancelText (s : String) : Except String JsonInbound :=
  match [7, 8, 9].find? fun id => s = cancelText id with
  | some id => .ok (.cancel ⟨id.toUInt64, "AAPL"⟩)
  | none => .error "expected value at line 1 column 1"

def cancelAapl (id : OrderId) : Command := .cancel id (symbolToId "AAPL")

/-- The first client sends a blank line, one that is not JSON and two cancels, the other one
cancel. -/
def cancelLines (second : Bool) : List String :=
  if second then [cancelText 8] else ["  ", "x", cancelText 7 ++ " ", cancelText 9]

/-- The second client takes the first number, and is the second to be answered. The shard
applies one cancel, has popped another, and the last is in its ring. -/
def cancelActions : List (GatewayAction Bool) :=
  [.read false 0, .read false 0, .read true 0, .read false 0, .answer false true,
   .answer true true, .read false 0, .answer false true, .pop 0,
   .apply ⟨⟨2, 0, cancelAapl 7⟩, true, [.rejected 7 .unknownId 2]⟩, .pop 0]

theorem cancel_sessions : ∃ g : Gateway Bool (VecSlab Order),
    Run (GatewayStep parseCancelText 1 4) (.start [(symbolToId "AAPL", 1)] 1 cancelLines)
        cancelActions g ∧
      (g.sessions false).answered =
        [("x", errorLine "json error: expected value at line 1 column 1"),
          (cancelText 7, submittedLine 2), (cancelText 9, submittedLine 3)] ∧
      (g.sessions true).answered = [(cancelText 8, submittedLine 1)] ∧ g.engine.count = 3 ∧
      g.waiting 1 (symbolToId "AAPL") = [(cancelAapl 8, 1), (cancelAapl 9, 3)] := by
  have hcomputed : ((cancelActions.foldlM (Gateway.step? parseCancelText 1 4 9)
      (.start [(symbolToId "AAPL", 1)] 1 cancelLines : Gateway Bool (VecSlab Order))).any fun g =>
        (g.sessions false).answered =
          [("x", errorLine "json error: expected value at line 1 column 1"),
            (cancelText 7, submittedLine 2), (cancelText 9, submittedLine 3)] ∧
        (g.sessions true).answered = [(cancelText 8, submittedLine 1)] ∧ g.engine.count = 3 ∧
        g.waiting 1 (symbolToId "AAPL") = [(cancelAapl 8, 1), (cancelAapl 9, 3)]) = true := by
    decide +kernel
  obtain ⟨g, hfold, htest⟩ := (Option.any_eq_true _ _).1 hcomputed
  exact ⟨g, Gateway.run_of_foldlM hfold, of_decide_eq_true htest⟩

/-! ## Main results -/

/-- **Sessions.** Whatever the other clients and the shards do, a session answers each line
that is not blank once and in order, with the error of the line or with the result of its
own submit; and the numbers that it gives out increase. -/
theorem sessions_answered [Slab A Order]
    (h : Run (GatewayStep fromStr numShards capacity)
      (.start symbols numShards lines : Gateway C A) as g) (c : C) :
    Answering fromStr (lines c) (g.sessions c) (g.engine.submitting c) (g.engine.returnedTo c) ∧
      (g.engine.count < 2 ^ 64 →
        ((g.engine.returnedTo c).filterMap Submitted.ack).Pairwise (· < ·)) := by
  have hinv : (∀ c, Answering fromStr (lines c) (g.sessions c) (g.engine.submitting c)
      (g.engine.returnedTo c)) ∧ Delivers numShards g.engine :=
    h.invariant (I := fun _ g => (∀ c, Answering fromStr (lines c) (g.sessions c)
      (g.engine.submitting c) (g.engine.returnedTo c)) ∧ Delivers numShards g.engine)
      ⟨fun c => .start (lines c), .start⟩
      fun _ _ _ _ _ ih hstep => ⟨hstep.answering ih.1, hstep.delivers ih.2⟩
  exact ⟨hinv.1 c, fun hcount => hinv.2.acks_lt hcount c⟩

theorem sessions_answered_sample : ∃ g : Gateway Bool (VecSlab Order),
    Run (GatewayStep parseCancelText 1 4) (.start [(symbolToId "AAPL", 1)] 1 cancelLines)
        cancelActions g ∧
    (g.sessions false).answered.map Prod.snd =
      [errorLine "json error: expected value at line 1 column 1", submittedLine 2,
        submittedLine 3] ∧
    (g.engine.returnedTo false).map (fun v => (v.cmd, v.result.line)) =
      [(cancelAapl 7, submittedLine 2), (cancelAapl 9, submittedLine 3)] ∧
    ((g.engine.returnedTo false).filterMap Submitted.ack).Pairwise (· < ·) := by
  obtain ⟨g, hrun, hanswered, -, hcount, -⟩ := cancel_sessions
  obtain ⟨hanswering, hincrease⟩ := sessions_answered hrun false
  refine ⟨g, hrun, by rw [hanswered]; rfl, ?_, hincrease (by omega)⟩
  rw [← hanswering.submits, hanswered]
  decide +kernel

/-- **From the answers to the books.** The commands applied to the book of a symbol, which
lead an empty book to it, and then those that its shard still has before it are the commands
for the symbol that have been acknowledged, in that order and with their numbers. -/
theorem acknowledged_applied [Slab A Order]
    (h : Run (GatewayStep fromStr numShards capacity)
      (.start symbols numShards lines : Gateway C A) as g)
    {symbol : SymbolId} (hsymbol : symbol ∈ symbols.map Prod.fst) :
    ∃ tick b, (symbol, tick) ∈ symbols ∧ g.shards.book numShards symbol = some b ∧
      Reaches symbol tick (symbolLog symbol (shardTurns as)) b ∧
      (symbolLog symbol (shardTurns as)).map (fun e => e.1.numbered) ++
        g.waiting numShards symbol = g.engine.acknowledged symbol := by
  have hinv : Delivers numShards g.engine ∧ Handling symbols numShards (shardTurns as) g :=
    h.invariant (I := fun as g => Delivers numShards g.engine ∧
      Handling symbols numShards (shardTurns as) g) ⟨.start, .start⟩
      fun _ _ _ _ _ ih hstep => ⟨hstep.delivers ih.1, hstep.handling ih.2⟩
  obtain ⟨hdelivers, hhandling⟩ := hinv
  obtain ⟨tick, b, htick, hb, hreaches⟩ := run_symbolLog hhandling.shards hsymbol
  refine ⟨tick, b, htick, hb, hreaches, ?_⟩
  have happlied : (routed (ShardTurn.shard numShards) (shardFor symbol numShards)
      (shardTurns as)).filter (fun p => p.symbol = symbol) =
        routed ShardTurn.symbol symbol (shardTurns as) := by
    unfold routed
    rw [List.filter_filter]
    refine List.filter_congr fun p _ => ?_
    by_cases hp : p.symbol = symbol
    · simp [hp, ShardTurn.shard, show p.cmd.cmd.symbol = symbol from hp]
    · simp [hp]
  rw [← numbered_eq_acknowledged hdelivers symbol, List.map_append, hhandling.popped,
    List.append_assoc, List.filter_append, List.map_append, List.filter_map]
  congr 1
  rw [List.map_map]
  unfold symbolLog
  rw [← happlied, List.map_map]
  rfl

theorem acknowledged_applied_sample : ∃ (g : Gateway Bool (VecSlab Order)) (tick : Price)
    (b : OrderBook (VecSlab Order)),
    Run (GatewayStep parseCancelText 1 4) (.start [(symbolToId "AAPL", 1)] 1 cancelLines)
        cancelActions g ∧
      g.shards.book 1 (symbolToId "AAPL") = some b ∧
      Reaches (symbolToId "AAPL") tick [(⟨2, 0, cancelAapl 7⟩, [.rejected 7 .unknownId 2])] b ∧
      g.waiting 1 (symbolToId "AAPL") = [(cancelAapl 8, 1), (cancelAapl 9, 3)] ∧
      g.engine.acknowledged (symbolToId "AAPL") =
        [(cancelAapl 7, 2), (cancelAapl 8, 1), (cancelAapl 9, 3)] := by
  obtain ⟨g, hrun, -, -, -, hwaiting⟩ := cancel_sessions
  have hsymbol : symbolToId "AAPL" ∈ [(symbolToId "AAPL", (1 : Price))].map Prod.fst :=
    List.mem_cons_self
  obtain ⟨tick, b, -, hbook, hreaches, hacknowledged⟩ := acknowledged_applied hrun hsymbol
  have hlog : symbolLog (symbolToId "AAPL") (shardTurns cancelActions) =
      [(⟨2, 0, cancelAapl 7⟩, [.rejected 7 .unknownId 2])] :=
    congrArg (List.map ShardTurn.entry) (routed_singleton_self _)
  rw [hlog] at hreaches hacknowledged
  refine ⟨g, tick, b, hrun, hbook, hreaches, hwaiting, ?_⟩
  rw [← hacknowledged, hwaiting]
  rfl

end Exchange
