import Exchange.Verify.Budget
import Exchange.Verify.Replay
import Exchange.Verify.Step

/-!
# Crash recovery

Any number of sessions append to one directory, and each ends by a crash that cuts
its last segment at some byte. Replay delivers, session by session, the records that
lie wholly before the cut.
-/

namespace Exchange

open FramedLog

/-- A session: a writer is opened and appends, and the crash leaves `cut` bytes of the
segment it has open. -/
structure Session where
  fsync : FsyncPolicy
  appended : List WalRecord
  cut : Nat

namespace Session

variable (crc : Bytes → UInt32)

/-- The directory a session leaves behind; `none` where an append panics. -/
def run (se : Session) (dir : Dir) : Option Dir := do
  let (w, dir) := WalWriter.open dir se.fsync
  let (w, dir) ← w.appendAll crc se.appended dir
  return dir.truncate w.file se.cut

/-- The records of the session's full segments, and those that lie wholly before the cut. -/
def survivors (se : Session) : List WalRecord :=
  (segmented crc se.appended).1.flatten ++
    (walCodec crc).within se.cut (segmented crc se.appended).2

variable {crc}

theorem isPrefix_survivors (crc : Bytes → UInt32) (se : Session) :
    se.survivors crc <+: se.appended := by
  have hall := rolled_flatten (fun recs => ((walCodec crc).encodeAll recs).length) SEGMENT_SIZE
    se.appended
  conv_rhs => rw [← hall]
  exact (List.prefix_append_right_inj _).2 (Codec.isPrefix_within _ _)

theorem segmented_fits (crc : Bytes → UInt32) {recs : List WalRecord}
    (hfits : ∀ rec ∈ recs, rec.Fits) :
    (∀ seg ∈ (segmented crc recs).1, ∀ rec ∈ seg, rec.Fits) ∧
      ∀ rec ∈ (segmented crc recs).2, rec.Fits := by
  have hall : (segmented crc recs).1.flatten ++ (segmented crc recs).2 = recs :=
    rolled_flatten _ SEGMENT_SIZE recs
  constructor
  · intro seg hseg rec hrec
    refine hfits rec ?_
    rw [← hall]
    exact List.mem_append_left _ (List.mem_flatten.2 ⟨seg, hseg, hrec⟩)
  · intro rec hrec
    refine hfits rec ?_
    rw [← hall]
    exact List.mem_append_right _ hrec

end Session

/-! ## Sessions one after the other -/

/-- Replay of `dir` finds `recs`. -/
def LogHolds (crc : Bytes → UInt32) (dir : Dir) (recs : List WalRecord) : Prop :=
  ∃ files segs, Segments dir files ∧ List.Forall₂ (Holds crc) (files.map File.bytes) segs ∧
    recs = segs.flatten

/-- The directory the sessions leave behind, one after the other. -/
def runSessions (crc : Bytes → UInt32) (sessions : List Session) (dir : Dir) : Option Dir :=
  sessions.foldlM (fun dir se => se.run crc dir) dir

section Sessions

variable {crc : Bytes → UInt32} {dir dir' : Dir}

theorem Session.run_eq_some {se : Session} (h : se.run crc dir = some dir') :
    ∃ w d, (WalWriter.open dir se.fsync).1.appendAll crc se.appended
      (WalWriter.open dir se.fsync).2 = some (w, d) ∧ dir' = d.truncate w.file se.cut := by
  unfold Session.run at h
  obtain ⟨⟨w, d⟩, happ, h⟩ := Option.bind_eq_some_iff.1 h
  cases h
  exact ⟨w, d, happ, rfl⟩

theorem Session.run_keeps {se : Session} (h : se.run crc dir = some dir') : dir.Keeps dir' := by
  obtain ⟨w, d, happ, rfl⟩ := se.run_eq_some h
  have hopen : dir.Keeps (WalWriter.open dir se.fsync).2 := openFile_keeps dir _
  exact (hopen.trans (appendAll_keeps happ)).trans (modify_keeps _ _ _)

/-- A session adds its segments, the last of them cut. -/
theorem Session.run_segments {se : Session} {files : List File} (hdir : Segments dir files)
    (h : se.run crc dir = some dir') (hcount : (listSegments dir').length < 10 ^ 10) :
    Segments dir' (files ++ (SegmentLog.written crc se.fsync se.appended).closed ++
      [{ (SegmentLog.written crc se.fsync se.appended).current with
        bytes := (SegmentLog.written crc se.fsync se.appended).current.bytes.take se.cut }]) := by
  have hfiles := (se.run_keeps h).length_le
  rw [hdir.length_listSegments] at hfiles
  obtain ⟨w, d, happ, rfl⟩ := se.run_eq_some h
  have hkeeps : d.Keeps (d.truncate w.file se.cut) := modify_keeps _ _ _
  have hle := hkeeps.length_le
  obtain ⟨⟨hwritten, hsegIdx, -⟩, -, -⟩ := appendAll_writing hdir (by omega) happ (by omega)
  exact hwritten.modify hsegIdx _

/-- A session adds its survivors to the log. -/
theorem Session.run_logHolds {se : Session} (hfits : ∀ rec ∈ se.appended, rec.Fits)
    {recs : List WalRecord} (hdir : LogHolds crc dir recs) (h : se.run crc dir = some dir')
    (hcount : (listSegments dir').length < 10 ^ 10) :
    LogHolds crc dir' (recs ++ se.survivors crc) := by
  obtain ⟨files, segs, hsegments, hheld, rfl⟩ := hdir
  obtain ⟨hclosed, hcurrent⟩ := written_bytes crc se.fsync se.appended
  obtain ⟨hfull, hlast⟩ := segmented_fits crc hfits
  refine ⟨_, segs ++ (segmented crc se.appended).1 ++
    [(walCodec crc).within se.cut (segmented crc se.appended).2],
    se.run_segments hsegments h hcount, ?_, ?_⟩
  · rw [List.map_append, List.map_append, hclosed, List.map_singleton, hcurrent]
    refine List.rel_append (List.rel_append hheld ?_) (.cons ?_ .nil)
    · rw [List.forall₂_map_left_iff, List.forall₂_same]
      exact fun seg hseg => holds_encodeAll (hfull seg hseg)
    · exact ⟨_, se.cut, hlast, rfl, rfl⟩
  · simp [Session.survivors]

theorem segments_nil (hdir : listSegments dir = []) : Segments dir [] := by
  constructor
  · intro i file hi
    cases hi
  · intro name hseg hmem
    have hlisted : name ∈ listSegments dir :=
      List.mem_filter.2 ⟨Std.ExtTreeMap.mem_keys.2 hmem, hseg⟩
    rw [hdir] at hlisted
    cases hlisted

theorem sessions_segments {sessions : List Session} (hdir : listSegments dir = [])
    (hrun : runSessions crc sessions dir = some dir')
    (hcount : (listSegments dir').length < 10 ^ 10) : ∃ files, Segments dir' files := by
  refine (Transition.Run.of_foldlM hrun).invariant (I := fun _ dir' =>
    (listSegments dir').length < 10 ^ 10 → ∃ files, Segments dir' files) ?_ ?_ hcount
  · intro _
    exact ⟨[], segments_nil hdir⟩
  · intro _ d se d' _ ih hstep hcount
    have hle := (se.run_keeps hstep).length_le
    obtain ⟨files, hfiles⟩ := ih (by omega)
    exact ⟨_, se.run_segments hfiles hstep hcount⟩

theorem sessions_logHolds {sessions : List Session}
    (hfits : ∀ se ∈ sessions, ∀ rec ∈ se.appended, rec.Fits) (hdir : listSegments dir = [])
    (hrun : runSessions crc sessions dir = some dir')
    (hcount : (listSegments dir').length < 10 ^ 10) :
    LogHolds crc dir' (sessions.flatMap (Session.survivors crc)) := by
  refine (Transition.Run.of_foldlM hrun).invariant (I := fun sessions dir' =>
    (∀ se ∈ sessions, ∀ rec ∈ se.appended, rec.Fits) → (listSegments dir').length < 10 ^ 10 →
      LogHolds crc dir' (sessions.flatMap (Session.survivors crc))) ?_ ?_ hfits hcount
  · intro _ _
    exact ⟨[], [], segments_nil hdir, .nil, rfl⟩
  · intro sessions d se d' _ ih hstep hfits hcount
    have hle := (se.run_keeps hstep).length_le
    have hd := ih (fun se hse => hfits se (List.mem_append_left _ hse)) (by omega)
    rw [List.flatMap_append, List.flatMap_singleton]
    exact se.run_logHolds (hfits se (List.mem_append_right _ List.mem_cons_self)) hd hstep hcount

end Sessions

/-! ## Sessions without a crash -/

/-- The directory the sessions leave behind that end with their writers closed. -/
def runClosed (crc : Bytes → UInt32) (sessions : List (FsyncPolicy × List WalRecord)) (dir : Dir) :
    Option Dir :=
  sessions.foldlM (fun dir se =>
    ((WalWriter.open dir se.1).1.appendAll crc se.2 (WalWriter.open dir se.1).2).map Prod.snd) dir

/-- The records of the sessions, segment by segment. -/
def sessionSegments (crc : Bytes → UInt32) (sessions : List (FsyncPolicy × List WalRecord)) :
    List (List WalRecord) :=
  sessions.flatMap fun se => (segmented crc se.2).1 ++ [(segmented crc se.2).2]

section Closed

variable {crc : Bytes → UInt32} {dir dir' : Dir} {sessions : List (FsyncPolicy × List WalRecord)}

/-- The segments hold what was appended. -/
theorem flatten_sessionSegments (crc : Bytes → UInt32)
    (sessions : List (FsyncPolicy × List WalRecord)) :
    (sessionSegments crc sessions).flatten = sessions.flatMap Prod.snd := by
  induction sessions with
  | nil => rfl
  | cons se sessions ih =>
    have hall : (segmented crc se.2).1.flatten ++ (segmented crc se.2).2 = se.2 :=
      rolled_flatten _ SEGMENT_SIZE se.2
    unfold sessionSegments at ih ⊢
    rw [List.flatMap_cons, List.flatten_append, ih, List.flatten_append, List.flatten_singleton,
      hall, List.flatMap_cons]

theorem runClosed_segments (hdir : listSegments dir = [])
    (hrun : runClosed crc sessions dir = some dir')
    (hcount : (listSegments dir').length < 10 ^ 10) :
    ∃ files, Segments dir' files ∧
      files.map File.bytes = (sessionSegments crc sessions).map (walCodec crc).encodeAll := by
  refine (Transition.Run.of_foldlM hrun).invariant (I := fun sessions dir' =>
    (listSegments dir').length < 10 ^ 10 → ∃ files, Segments dir' files ∧
      files.map File.bytes = (sessionSegments crc sessions).map (walCodec crc).encodeAll)
    ?_ ?_ hcount
  · intro _
    exact ⟨[], segments_nil hdir, rfl⟩
  · intro sessions d se d' _ ih hstep hcount
    obtain ⟨⟨w, d''⟩, happ, he⟩ := Option.map_eq_some_iff.1 hstep
    obtain rfl : d'' = d' := he
    have hopen : d.Keeps (WalWriter.open d se.1).2 := openFile_keeps d _
    have hle := (hopen.trans (appendAll_keeps happ)).length_le
    obtain ⟨files, hfiles, hbytes⟩ := ih (by omega)
    have hlen := hfiles.length_listSegments
    obtain ⟨⟨hwritten, -, -⟩, -, -⟩ := appendAll_writing hfiles (by omega) happ (by omega)
    obtain ⟨hclosed, hcurrent⟩ := written_bytes crc se.1 se.2
    refine ⟨_, hwritten, ?_⟩
    simp only [sessionSegments, List.map_append, List.flatMap_append, List.flatMap_singleton,
      List.map_singleton] at hbytes ⊢
    rw [hbytes, hclosed, hcurrent, List.append_assoc]

theorem sessionSegments_fits (crc : Bytes → UInt32)
    (hfits : ∀ se ∈ sessions, ∀ rec ∈ se.2, rec.Fits) :
    ∀ seg ∈ sessionSegments crc sessions, ∀ rec ∈ seg, rec.Fits := by
  intro seg hseg rec hrec
  have hmem : rec ∈ (sessionSegments crc sessions).flatten :=
    List.mem_flatten.2 ⟨seg, hseg, hrec⟩
  rw [flatten_sessionSegments] at hmem
  obtain ⟨se, hse, hrec⟩ := List.mem_flatMap.1 hmem
  exact hfits se hse rec hrec

/-- Replay delivers what was appended. -/
theorem replay_closed {σ : Type} {after : Seq} {f : σ → WalRecord → Except WalError σ}
    (hfits : ∀ se ∈ sessions, ∀ rec ∈ se.2, rec.Fits) (hdir : listSegments dir = [])
    (hrun : runClosed crc sessions dir = some dir')
    (hcount : (listSegments dir').length < 10 ^ 10) (s : σ) :
    replay crc after f dir' s = do
      let s ← (above after (sessions.flatMap Prod.snd)).foldlM f s
      return (lastSeq after (above after (sessions.flatMap Prod.snd)), s) := by
  obtain ⟨files, hfiles, hbytes⟩ := runClosed_segments hdir hrun hcount
  rw [hfiles.length_listSegments] at hcount
  rw [← flatten_sessionSegments crc]
  refine replay_holds hfiles hcount ?_ s
  rw [hbytes, List.forall₂_map_left_iff, List.forall₂_same]
  exact fun seg hseg => holds_encodeAll (sessionSegments_fits crc hfits seg hseg)

end Closed

/-! ## The book after a crash -/

/-- The record of a command, with its rendering by `serde_json`. -/
def logRecord (json : Sequenced → Bytes) (cmd : Sequenced) : WalRecord :=
  ⟨cmd.seq, cmd.ts, .command, json cmd⟩

section Book

variable {A : Type} [Slab A Order]

/-- Apply the command of a record, and keep the events. -/
def recoverCommand (parse : Bytes → Option Sequenced) (fuel : Nat)
    (st : Outcome (OrderBook A × List OutputEvent)) (rec : WalRecord) :
    Except WalError (Outcome (OrderBook A × List OutputEvent)) :=
  match parse rec.payload with
  | none => .error (.serialise "unreadable command")
  | some cmd => .ok do
    let (b, tape) ← st
    let (b, events) ← applyWithin fuel b cmd
    return (b, tape ++ events)

variable {json : Sequenced → Bytes} {parse : Bytes → Option Sequenced}

/-- Applying the logged commands again leads to the same book, with the same events. -/
theorem run_recover (json : Sequenced → Bytes) (tape : List OutputEvent) {log : List Entry}
    {b₀ b : OrderBook A} (h : Transition.Run ApplyStep b₀ log b)
    (hparse : ∀ e ∈ log, parse (json e.1) = some e.1) :
    ∃ n, ∀ fuel, n ≤ fuel →
      (log.map fun e => logRecord json e.1).foldlM (recoverCommand parse fuel)
        (.ok (b₀, tape)) = .ok (.ok (b, tape ++ log.flatMap Prod.snd)) := by
  refine Transition.Run.invariant (I := fun log b => (∀ e ∈ log, parse (json e.1) = some e.1) →
    ∃ n, ∀ fuel, n ≤ fuel →
      (log.map fun e => logRecord json e.1).foldlM (recoverCommand parse fuel)
        (.ok (b₀, tape)) = .ok (.ok (b, tape ++ log.flatMap Prod.snd))) ?_ ?_ h hparse
  · intro _
    refine ⟨0, fun fuel _ => ?_⟩
    rw [List.flatMap_nil, List.append_nil]
    rfl
  · intro log b e b' _ ih happ hparse
    obtain ⟨n, hn⟩ := ih fun e he => hparse e (List.mem_append_left _ he)
    obtain ⟨m, hm⟩ := happ
    refine ⟨max n m, fun fuel hfuel => ?_⟩
    have hread := hparse e (List.mem_append_right _ List.mem_cons_self)
    have happ : applyWithin fuel b e.1 = .ok (b', e.2) :=
      ((applyWithin_stable b e.1).le (by omega : m ≤ fuel)).eq_of_ok hm
    rw [List.map_append, List.foldlM_append, hn fuel (by omega), Fuel.ok_bind, List.map_singleton,
      List.foldlM_cons]
    unfold recoverCommand logRecord
    dsimp only
    rw [hread]
    dsimp only
    rw [Fuel.ok_bind, Fuel.ok_bind, happ, List.flatMap_append, List.flatMap_singleton,
      ← List.append_assoc]
    rfl

theorem Reaches.recover (json : Sequenced → Bytes) {symbol : SymbolId} {tick : Price}
    {log : List Entry} {b : OrderBook A}
    (h : Reaches symbol tick log b) (hparse : ∀ e ∈ log, parse (json e.1) = some e.1) :
    ∃ n, ∀ fuel, n ≤ fuel →
      (log.map fun e => logRecord json e.1).foldlM (recoverCommand parse fuel)
        (.ok (OrderBook.new symbol tick, [])) = .ok (.ok (b, log.flatMap Prod.snd)) :=
  run_recover json [] h hparse

variable {crc : Bytes → UInt32} {dir dir' : Dir}

/-- **Crash recovery.** After any sessions, replay returns `Ok` and delivers of every
session's records the prefix that survived; and after one session of logged
commands, applying what it delivers gives the book and the events after that prefix. -/
theorem replay_recovers {sessions : List Session}
    (hfits : ∀ se ∈ sessions, ∀ rec ∈ se.appended, rec.Fits) (hdir : listSegments dir = [])
    (hrun : runSessions crc sessions dir = some dir')
    (hcount : (listSegments dir').length < 10 ^ 10) :
    (∀ se ∈ sessions, se.survivors crc <+: se.appended) ∧
    (∀ (σ : Type) (after : Seq) (f : σ → WalRecord → Except WalError σ) (s : σ),
      replay crc after f dir' s =
        let delivered := above after (sessions.flatMap (Session.survivors crc))
        do
          let s ← delivered.foldlM f s
          return (lastSeq after delivered, s)) ∧
    ∀ (fsync : FsyncPolicy) (cmds : List Sequenced) (cut : Nat),
      sessions = [⟨fsync, cmds.map (logRecord json), cut⟩] →
      (∀ cmd ∈ cmds, 0 < cmd.seq ∧ parse (json cmd) = some cmd) →
      ∃ k, sessions.flatMap (Session.survivors crc) = (cmds.take k).map (logRecord json) ∧
        ∀ (symbol : SymbolId) (tick : Price) (log : List Entry) (b : OrderBook A),
          Reaches symbol tick log b → log.map Prod.fst = cmds.take k →
          ∃ n, ∀ fuel, n ≤ fuel → ∃ last,
            replay crc 0 (recoverCommand parse fuel) dir' (.ok (OrderBook.new symbol tick, [])) =
              .ok (last, .ok (b, log.flatMap Prod.snd)) := by
  have hreplay : ∀ (σ : Type) (after : Seq) (f : σ → WalRecord → Except WalError σ) (s : σ),
      replay crc after f dir' s =
        let delivered := above after (sessions.flatMap (Session.survivors crc))
        do
          let s ← delivered.foldlM f s
          return (lastSeq after delivered, s) := by
    intro σ after f s
    obtain ⟨files, segs, hsegments, hheld, hrecs⟩ := sessions_logHolds hfits hdir hrun hcount
    rw [hsegments.length_listSegments] at hcount
    rw [hrecs]
    exact replay_holds hsegments hcount hheld s
  refine ⟨fun se _ => se.isPrefix_survivors crc, hreplay, ?_⟩
  rintro fsync cmds cut rfl hcmds
  have hfront := Session.isPrefix_survivors crc ⟨fsync, cmds.map (logRecord json), cut⟩
  rw [List.flatMap_singleton] at hreplay ⊢
  generalize Session.survivors crc ⟨fsync, cmds.map (logRecord json), cut⟩ = recs at *
  have htake : recs = (cmds.take recs.length).map (logRecord json) := by
    rw [List.map_take]
    exact List.prefix_iff_eq_take.1 hfront
  refine ⟨recs.length, htake, ?_⟩
  intro symbol tick log b hreach hlog
  have hmem : ∀ e ∈ log, e.1 ∈ cmds := by
    intro e he
    refine List.mem_of_mem_take (i := recs.length) ?_
    rw [← hlog]
    exact List.mem_map_of_mem he
  obtain ⟨n, hn⟩ := hreach.recover json fun e he => (hcmds e.1 (hmem e he)).2
  refine ⟨n, fun fuel hfuel => ⟨lastSeq 0 (above 0 recs), ?_⟩⟩
  have hall : above 0 recs = log.map fun e => logRecord json e.1 := by
    have hrecs : recs = log.map fun e => logRecord json e.1 := by
      rw [htake, ← hlog, List.map_map]
      rfl
    rw [hrecs]
    refine List.filter_eq_self.2 fun rec hrec => ?_
    obtain ⟨e, he, rfl⟩ := List.mem_map.1 hrec
    exact decide_eq_true (hcmds e.1 (hmem e he)).1
  rw [hreplay, hall]
  dsimp only
  rw [hn fuel hfuel]
  rfl

/-! ### Two sessions, the first cut within its second record -/

def restingSell (n : UInt64) : Sequenced := ⟨n, 0, .new ⟨n, 1, .sell, .limit, .gtc, 100, 0, 5⟩⟩

def marketBuy : Sequenced := ⟨3, 0, .new ⟨3, 1, .buy, .market, .gtc, 0, 0, 7⟩⟩

/-- The JSON of a command that gives its order its own number. -/
def crossText (n : Nat) (side kind : String) (price qty : Nat) : String :=
  "\x7b\"seq\":" ++ toString n ++ ",\"ts\":0,\"cmd\":\x7b\"New\":\x7b\"id\":" ++ toString n ++
    ",\"symbol\":1,\"side\":\"" ++ side ++ "\",\"kind\":\"" ++ kind ++
    "\",\"tif\":\"Gtc\",\"price\":" ++ toString price ++ ",\"stop_price\":0,\"qty\":" ++
    toString qty ++ "\x7d\x7d\x7d"

def crossTexts : List (Sequenced × String) :=
  [(restingSell 1, crossText 1 "Sell" "Limit" 100 5),
   (restingSell 2, crossText 2 "Sell" "Limit" 100 5),
   (marketBuy, crossText 3 "Buy" "Market" 0 7)]

def crossJson (cmd : Sequenced) : Bytes :=
  match crossTexts.find? fun e => e.1 = cmd with
  | some (_, text) => text.toUTF8.data.toList
  | none => []

def parseCross (payload : Bytes) : Option Sequenced :=
  (crossTexts.find? fun e => crossJson e.1 = payload).map Prod.fst

/-- What the buy gives: the first sell whole, and of the second what is left to buy. -/
def crossEvents : List OutputEvent :=
  [.accepted 3 3, .trade 3 3 1 100 5 .buy 0, .filled 1 3, .trade 3 3 2 100 2 .buy 0,
   .partiallyFilled 2 2 3 3, .filled 3 3]

def tornSession : Session :=
  ⟨.every 2, [restingSell 1, restingSell 2].map (logRecord crossJson), 200⟩

def laterSession : Session := ⟨.perRecord, [marketBuy].map (logRecord crossJson), 200⟩

theorem replay_recovers_sample : ∃ dir dir₁,
    runSessions crc32 [tornSession, laterSession] ∅ = some dir ∧
      replay crc32 0 (fun recs rec => .ok (recs ++ [rec])) dir [] =
        .ok (3, [restingSell 1, marketBuy].map (logRecord crossJson)) ∧
      runSessions crc32 [tornSession] ∅ = some dir₁ ∧
      ∃ (b : OrderBook (VecSlab Order)) (fuel : Nat) (last : Seq),
        replay crc32 0 (recoverCommand parseCross fuel) dir₁ (.ok (OrderBook.new 1 1, [])) =
          .ok (last, .ok (b, [.accepted 1 1])) ∧ b.depth 1 = ⟨[], [(100, 5)], none⟩ := by
  have hruns : ((runSessions crc32 [tornSession, laterSession] ∅).any
      fun dir => (listSegments dir).length < 10 ^ 10) = true := by decide +kernel
  have hruns₁ : ((runSessions crc32 [tornSession] ∅).any
      fun dir => (listSegments dir).length < 10 ^ 10) = true := by decide +kernel
  obtain ⟨dir, hrun, hcount⟩ := (Option.any_eq_true _ _).1 hruns
  obtain ⟨dir₁, hrun₁, hcount₁⟩ := (Option.any_eq_true _ _).1 hruns₁
  have hfits : ∀ se ∈ [tornSession, laterSession], ∀ rec ∈ se.appended, rec.Fits := by
    decide +kernel
  have hfits₁ : ∀ se ∈ [tornSession], ∀ rec ∈ se.appended, rec.Fits := by decide +kernel
  have hsurvivors : [tornSession, laterSession].flatMap (Session.survivors crc32) =
      [restingSell 1, marketBuy].map (logRecord crossJson) := by decide +kernel
  have hsurvivors₁ : [tornSession].flatMap (Session.survivors crc32) =
      [restingSell 1].map (logRecord crossJson) := by decide +kernel
  have hempty : listSegments ∅ = [] := by decide +kernel
  obtain ⟨-, hreplay, -⟩ := @replay_recovers (VecSlab Order) _ crossJson parseCross
    crc32 ∅ dir _ hfits hempty hrun (of_decide_eq_true hcount)
  obtain ⟨-, -, hbook⟩ := @replay_recovers (VecSlab Order) _ crossJson parseCross
    crc32 ∅ dir₁ _ hfits₁ hempty hrun₁ (of_decide_eq_true hcount₁)
  refine ⟨dir, dir₁, hrun, ?_, hrun₁, ?_⟩
  · rw [hreplay, hsurvivors]
    rfl
  · obtain ⟨k, hk, hrecover⟩ := hbook (.every 2) [restingSell 1, restingSell 2] 200 rfl
      (by decide +kernel)
    rw [hsurvivors₁] at hk
    have htake : [restingSell 1] = [restingSell 1, restingSell 2].take k := by
      match k with
      | 0 => cases hk
      | 1 => rfl
      | k + 2 => cases hk
    have hok : ∃ r, applyAll 9 (OrderBook.new 1 1 : OrderBook (VecSlab Order)) [restingSell 1] =
        .ok r ∧ r.2 = [(restingSell 1, [.accepted 1 1])] ∧
        r.1.depth 1 = ⟨[], [(100, 5)], none⟩ := by
      refine ⟨_, rfl, ?_⟩
      decide +kernel
    obtain ⟨⟨b, log⟩, happ, hlog, hdepth⟩ := hok
    obtain rfl : log = _ := hlog
    obtain ⟨n, hn⟩ := hrecover 1 1 _ b (reaches_applyAll happ) htake
    obtain ⟨last, hlast⟩ := hn n le_rfl
    exact ⟨b, n, last, hlast, hdepth⟩

end Book

end Exchange
