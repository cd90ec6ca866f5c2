import Exchange.Engine.ShardWal
import Exchange.Verify.Restart

/-!
# Durability

With a sync for every record the log survives any crash: what a shard has applied, and
so every event it has sent, is there when the log is replayed.
-/

namespace Exchange

open FramedLog Transition

/-! ## Crashed directories -/

section Crash

variable {dir dir' : Dir} {files : List File}

theorem Dir.CrashesTo.mem_iff (h : dir.CrashesTo dir') (name : FileName) :
    name ∈ dir' ↔ name ∈ dir := by
  have hname := h name
  rw [Std.ExtTreeMap.mem_iff_isSome_getElem?, Std.ExtTreeMap.mem_iff_isSome_getElem?]
  generalize dir[name]? = file at hname
  generalize dir'[name]? = file' at hname
  cases hname with
  | none => rfl
  | some => rfl

theorem Dir.CrashesTo.keeps (h : dir.CrashesTo dir') : dir.Keeps dir' :=
  fun name hname => (h.mem_iff name).2 hname

theorem Dir.CrashesTo.file {name : FileName} {file : File} (h : dir.CrashesTo dir')
    (hfile : dir[name]? = some file) :
    ∃ file', dir'[name]? = some file' ∧
      ∃ cut, file.synced ≤ cut ∧ file'.bytes = file.bytes.take cut := by
  have hname := h name
  rw [hfile] at hname
  generalize dir'[name]? = x at hname ⊢
  cases hname with
  | some hcut => exact ⟨_, rfl, hcut⟩

/-- The worst that a crash can do. -/
theorem Dir.crashesTo_powerLoss (dir : Dir) : dir.CrashesTo dir.powerLoss := by
  intro name
  unfold Dir.powerLoss
  rw [Std.ExtTreeMap.getElem?_map]
  cases dir[name]? with
  | none => exact .none
  | some file => exact .some ⟨file.synced, le_rfl, rfl⟩

/-- Lists matched one by one end together. -/
theorem forall₂_snoc_left {α β : Type} {R : α → β → Prop} {xs : List α} {x : α} {ys : List β}
    (h : List.Forall₂ R (xs ++ [x]) ys) : ∃ ys' y, ys = ys' ++ [y] ∧ List.Forall₂ R xs ys' ∧
      R x y := by
  induction xs generalizing ys with
  | nil =>
    cases h with
    | cons hxy hnil =>
      cases hnil
      exact ⟨[], _, rfl, .nil, hxy⟩
  | cons x' xs ih =>
    cases h with
    | cons hxy hrest =>
      obtain ⟨ys', y, rfl, hxs, hlast⟩ := ih hrest
      exact ⟨_ :: ys', y, rfl, .cons hxy hxs, hlast⟩

/-- The segments of a directory are there after a crash, each with what was synced. -/
theorem Segments.crash (h : Segments dir files) (hcrash : dir.CrashesTo dir') :
    ∃ files', Segments dir' files' ∧ List.Forall₂
      (fun file file' => ∃ cut, file.synced ≤ cut ∧ file'.bytes = file.bytes.take cut)
      files files' := by
  have hfile : ∀ i : Fin files.length, ∃ file', dir'[segmentName (i + 1)]? = some file' ∧
      ∃ cut, files[i].synced ≤ cut ∧ file'.bytes = files[i].bytes.take cut := fun i =>
    hcrash.file (h.file i _ (List.getElem?_eq_getElem i.2))
  choose f hf hcut using hfile
  refine ⟨List.ofFn f, ⟨fun i file hi => ?_, fun name hseg hname => ?_⟩, ?_⟩
  · obtain ⟨hlt, rfl⟩ := List.getElem?_eq_some_iff.1 hi
    rw [List.length_ofFn] at hlt
    rw [List.getElem_ofFn]
    exact hf ⟨i, hlt⟩
  · rw [List.length_ofFn]
    exact h.name name hseg ((hcrash.mem_iff name).1 hname)
  · refine List.forall₂_iff_get.2 ⟨(List.length_ofFn).symm, fun i hi hi' => ?_⟩
    rw [List.get_eq_getElem, List.get_eq_getElem, List.getElem_ofFn]
    exact hcut ⟨i, hi⟩

end Crash

/-! ## A log that syncs every record -/

section PerRecord

variable {crc : Bytes → UInt32} {recs : List WalRecord} {rec : WalRecord}

theorem written_synced (crc : Bytes → UInt32) (recs : List WalRecord) :
    ∀ file ∈ (SegmentLog.written crc .perRecord recs).closed ++
      [(SegmentLog.written crc .perRecord recs).current], file.synced = file.bytes.length := by
  induction recs using List.reverseRecOn with
  | nil =>
    intro file hfile
    rw [List.mem_singleton.1 hfile]
    rfl
  | append_singleton recs rec ih =>
    rw [written_snoc]
    change ∀ file ∈
      ((SegmentLog.written crc .perRecord recs).append (rec.encode crc) true).closed ++
        [((SegmentLog.written crc .perRecord recs).append (rec.encode crc) true).current], _
    have hclosed := fun file hfile => ih file (List.mem_append_left _ hfile)
    unfold SegmentLog.append
    dsimp only
    split
    · intro file hfile
      rcases List.mem_append.1 hfile with hfile | hfile
      · rcases List.mem_append.1 hfile with hfile | hfile
        · exact hclosed file hfile
        · rw [List.mem_singleton.1 hfile]
          rfl
      · rw [List.mem_singleton.1 hfile]
        rfl
    · intro file hfile
      rcases List.mem_append.1 hfile with hfile | hfile
      · exact hclosed file hfile
      · rw [List.mem_singleton.1 hfile]
        rfl

/-- A synced file comes through a crash as it is. -/
theorem bytes_of_synced {file file' : File} (hsynced : file.synced = file.bytes.length)
    (h : ∃ cut, file.synced ≤ cut ∧ file'.bytes = file.bytes.take cut) :
    file'.bytes = file.bytes := by
  obtain ⟨cut, hcut, hbytes⟩ := h
  rw [hbytes, List.take_of_length_le (hsynced ▸ hcut)]

/-- Closed files hold their records after a crash. -/
theorem holds_closed (hfits : ∀ rec ∈ recs, rec.Fits) {files : List File}
    (h : List.Forall₂
      (fun file file' => ∃ cut, file.synced ≤ cut ∧ file'.bytes = file.bytes.take cut)
      (SegmentLog.written crc .perRecord recs).closed files) :
    List.Forall₂ (Holds crc) (files.map File.bytes) (segmented crc recs).1 := by
  have hsynced := fun file hfile =>
    written_synced crc recs file (List.mem_append_left _ hfile)
  obtain ⟨hbytes, -⟩ := written_bytes crc .perRecord recs
  have hsegs := (Session.segmented_fits crc hfits).1
  generalize (SegmentLog.written crc .perRecord recs).closed = closed at h hsynced hbytes
  generalize (segmented crc recs).1 = segs at hbytes hsegs ⊢
  induction h generalizing segs with
  | nil =>
    cases List.map_eq_nil_iff.1 hbytes.symm
    exact .nil
  | @cons file file' closed files hfile _ ih =>
    cases segs with
    | nil => cases hbytes
    | cons seg segs =>
      obtain ⟨hseg, hrest⟩ := List.cons.inj hbytes
      refine .cons ?_ (ih (fun file hf => hsynced file (List.mem_cons_of_mem _ hf)) segs hrest
        fun seg hmem => hsegs seg (List.mem_cons_of_mem _ hmem))
      rw [bytes_of_synced (hsynced file List.mem_cons_self) hfile, hseg]
      exact holds_encodeAll (hsegs seg List.mem_cons_self)

/-- A crash of a log with `torn` written and not synced keeps all the rest. -/
theorem crash_logHolds {torn : List WalRecord} {dir dir' : Dir} {current : File}
    (hfits : ∀ rec ∈ recs ++ torn, rec.Fits)
    (h : Segments dir ((SegmentLog.written crc .perRecord recs).closed ++ [current]))
    (hbytes : current.bytes = (walCodec crc).encodeAll ((segmented crc recs).2 ++ torn))
    (hsynced : current.synced = ((walCodec crc).encodeAll (segmented crc recs).2).length)
    (hcrash : dir.CrashesTo dir') :
    ∃ extra, extra <+: torn ∧ LogHolds crc dir' (recs ++ extra) := by
  obtain ⟨files, hsegments, hfiles⟩ := h.crash hcrash
  have hrecs : ∀ rec ∈ recs, rec.Fits := fun rec hrec => hfits rec (List.mem_append_left _ hrec)
  obtain ⟨closed, file, rfl, hclosed, cut, hcut, hcontent⟩ := forall₂_snoc_left hfiles
  replace hclosed := holds_closed hrecs hclosed
  rw [hsynced] at hcut
  obtain ⟨extra, hextra⟩ : ∃ extra, extra = (walCodec crc).within
    (cut - ((walCodec crc).encodeAll (segmented crc recs).2).length) torn := ⟨_, rfl⟩
  have hheld : Holds crc file.bytes ((segmented crc recs).2 ++ extra) := by
    refine ⟨(segmented crc recs).2 ++ torn, cut, fun rec hrec => ?_, ?_, ?_⟩
    · rcases List.mem_append.1 hrec with hrec | hrec
      · exact (Session.segmented_fits crc hrecs).2 rec hrec
      · exact hfits rec (List.mem_append_right _ hrec)
    · rw [hcontent, hbytes]
    · rw [hextra, Codec.within_append torn hcut]
  refine ⟨extra, hextra ▸ Codec.isPrefix_within _ torn, closed ++ [file],
    (segmented crc recs).1 ++ [(segmented crc recs).2 ++ extra], hsegments, ?_, ?_⟩
  · rw [List.map_append]
    exact List.rel_append hclosed (.cons hheld .nil)
  · rw [List.flatten_append, List.flatten_singleton, ← List.append_assoc]
    exact congrArg (· ++ extra) (rolled_flatten _ _ recs).symm

end PerRecord

/-! ## The shard -/

variable {A : Type} [Slab A Order] {crc : Bytes → UInt32} {json : Sequenced → Bytes}
  {symbols : List (SymbolId × Price)} {dir₀ dir' : Dir} {as : List LoggingAction}
  {s s' : LoggingShard A} {a : LoggingAction}

def LoggingAction.turn : LoggingAction → List ShardTurn
  | .append _ | .fail _ => []
  | .apply p => [p]

/-- The turns in which a command was applied. -/
def appliedTurns (as : List LoggingAction) : List ShardTurn := as.flatMap LoggingAction.turn

/-- While no append fails, the log holds the applied commands and the one that waits, and
nothing else. -/
structure Durable (crc : Bytes → UInt32) (json : Sequenced → Bytes)
    (symbols : List (SymbolId × Price)) (dir₀ : Dir) (as : List LoggingAction)
    (s : LoggingShard A) : Prop where
  books : Run (fun books e books' => Handles books e.1 books' e.2) (startBooks symbols)
    ((appliedTurns as).map fun p => (p.cmd, p.events)) s.shard.books
  wal : (WalWriter.open dir₀ .perRecord).1.appendAll crc
    (((appliedTurns as).map (·.cmd) ++ s.pending.toList.map Prod.fst).map (logRecord json))
    (WalWriter.open dir₀ .perRecord).2 = some (s.wal, s.dir)

theorem Durable.step (h : Durable crc json symbols dir₀ as s) (hfails : ∀ cmd, a ≠ .fail cmd)
    (hstep : LoggingStep crc (logRecord json) s a s') :
    Durable crc json symbols dir₀ (as ++ [a]) s' := by
  obtain ⟨hbooks, hwal⟩ := h
  have hturns : appliedTurns (as ++ [a]) = appliedTurns as ++ a.turn := by
    simp [appliedTurns]
  cases hstep with
  | @append cmd wal dir hidle happ =>
    rw [hidle, Option.toList_none, List.map_nil, List.append_nil] at hwal
    have hsame : appliedTurns (as ++ [.append cmd]) = appliedTurns as := by
      rw [hturns]
      exact List.append_nil _
    refine ⟨hsame.symm ▸ hbooks, ?_⟩
    rw [hsame, Option.toList_some, List.map_singleton, List.map_append]
    unfold WalWriter.appendAll at hwal ⊢
    rw [List.foldlM_append, hwal]
    simpa using happ
  | @fail cmd => exact absurd rfl (hfails cmd)
  | @apply p shard hpending hstep =>
    have hsnoc : appliedTurns (as ++ [.apply p]) = appliedTurns as ++ [p] := hturns
    refine ⟨?_, ?_⟩
    · rw [hsnoc, List.map_append]
      exact hbooks.snoc hstep.2
    · rw [hsnoc, Option.toList_none, List.map_nil, List.append_nil, List.map_append]
      rw [hpending] at hwal
      exact hwal

theorem durable_run
    (h : Run (LoggingStep crc (logRecord json)) (.start symbols dir₀ .perRecord) as s)
    (hfails : ∀ cmd, .fail cmd ∉ as) : Durable crc json symbols dir₀ as s := by
  refine h.invariant (I := fun as s => (∀ cmd, .fail cmd ∉ as) →
    Durable crc json symbols dir₀ as s) (fun _ => ⟨.nil, rfl⟩) ?_ hfails
  intro as s a s' _ ih hstep hfails
  refine (ih fun cmd hmem => hfails cmd (List.mem_append_left _ hmem)).step ?_ hstep
  rintro cmd rfl
  exact hfails cmd (List.mem_append_right _ List.mem_cons_self)

/-- A list of which one element is all there may be. -/
theorem prefix_singleton_map {α β : Type} {f : α → β} {x : α} {ys : List β}
    (h : ys <+: [x].map f) : ∃ extra : List α, extra.length ≤ 1 ∧ ys = extra.map f := by
  rw [List.map_singleton] at h
  rcases List.sublist_singleton.1 h.sublist with rfl | rfl
  · exact ⟨[], Nat.zero_le _, rfl⟩
  · exact ⟨[x], Nat.le_refl _, rfl⟩

section Recovery

variable (hjson : ∀ cmd, (json cmd).length < 2 ^ 32 - 17) (hdir : listSegments dir₀ = [])
  (hcount : (listSegments dir').length + 1 < 10 ^ 10)

include hjson in
theorem logRecords_fit (cmds : List Sequenced) : ∀ rec ∈ cmds.map (logRecord json), rec.Fits := by
  intro rec hrec
  obtain ⟨cmd, -, rfl⟩ := List.mem_map.1 hrec
  exact hjson cmd

include hjson hdir hcount

/-- What a crash leaves is the log, and at most the record that is being written. -/
theorem Durable.logHolds (h : Durable crc json symbols dir₀ as s)
    (hcrash : s.Crashes crc (logRecord json) dir') :
    ∃ extra : List Sequenced, extra.length ≤ 1 ∧
      LogHolds crc dir' (((appliedTurns as).map (·.cmd) ++ extra).map (logRecord json)) := by
  obtain ⟨-, hwal⟩ := h
  generalize (appliedTurns as).map (·.cmd) = cmds at hwal ⊢
  have hkeeps : s.dir.Keeps dir' := by
    cases hcrash with
    | between h => exact h.keeps
    | within cmd _ h => exact (modify_keeps _ _ _).trans h.keeps
  obtain ⟨hwriting, -, -⟩ := appendAll_writing (segments_nil hdir) (by simp) hwal (by
    have hle := hkeeps.length_le
    omega)
  have hsegments := hwriting.segments
  rw [List.nil_append] at hsegments
  have hcurrent := (written_bytes crc .perRecord
    ((cmds ++ s.pending.toList.map Prod.fst).map (logRecord json))).2
  have hsynced := written_synced crc
    ((cmds ++ s.pending.toList.map Prod.fst).map (logRecord json)) _
    (List.mem_append_right _ List.mem_cons_self)
  rw [hcurrent] at hsynced
  cases hcrash with
  | between hcrash =>
    obtain ⟨extra, hextra, hlog⟩ : ∃ extra, extra <+: [] ∧ _ := crash_logHolds
      (by rw [List.append_nil]; exact logRecords_fit hjson _) hsegments
      (by rw [List.append_nil]; exact hcurrent) hsynced hcrash
    rw [List.prefix_nil.1 hextra, List.append_nil] at hlog
    refine ⟨s.pending.toList.map Prod.fst, ?_, hlog⟩
    cases s.pending <;> simp
  | within cmd hidle hcrash =>
    have hwritten := hsegments.modify (by simpa using hwriting.segIdx) fun file =>
      { file with bytes := file.bytes ++ (logRecord json cmd).encode crc }
    rw [hidle, Option.toList_none, List.map_nil, List.append_nil] at hcurrent hsynced hwritten
    have hbytes : (SegmentLog.written crc .perRecord (cmds.map (logRecord json))).current.bytes ++
        (logRecord json cmd).encode crc = (walCodec crc).encodeAll
          ((segmented crc (cmds.map (logRecord json))).2 ++ [cmd].map (logRecord json)) := by
      rw [Codec.encodeAll_append, hcurrent]
      simp [walCodec]
    have hfits := logRecords_fit hjson (cmds ++ [cmd])
    rw [List.map_append] at hfits
    obtain ⟨ys, hys, hlog⟩ := crash_logHolds hfits hwritten hbytes hsynced hcrash
    obtain ⟨extra, hextra, rfl⟩ := prefix_singleton_map hys
    rw [← List.map_append] at hlog
    exact ⟨extra, hextra, hlog⟩

/-- **Durability.** A shard that syncs every record, and none of whose appends has failed,
crashes at any point. Replay delivers all the commands it has applied, in order, and at
most one more; and these commands lead from empty books to its books, with every event it
has sent. -/
theorem durable_recovers
    (h : Run (LoggingStep crc (logRecord json)) (.start symbols dir₀ .perRecord) as s)
    (hfails : ∀ cmd, .fail cmd ∉ as) (hseq : ∀ p ∈ appliedTurns as, 0 < p.cmd.seq)
    (hcrash : s.Crashes crc (logRecord json) dir') :
    ∃ extra last, extra.length ≤ 1 ∧
      replay crc 0 collect dir' [] =
        .ok (last, ((appliedTurns as).map (·.cmd) ++ extra).map (logRecord json)) ∧
      Run (fun books e books' => Handles books e.1 books' e.2) (startBooks symbols)
        ((appliedTurns as).map fun p => (p.cmd, p.events)) s.shard.books := by
  have hdurable := durable_run h hfails
  obtain ⟨extra, hextra, files, segs, hsegments, hheld, hrecs⟩ :=
    hdurable.logHolds hjson hdir hcount hcrash
  rw [hsegments.length_listSegments] at hcount
  -- the numbers begin at one, so replay leaves out nothing that was applied
  have hdelivered : above 0 segs.flatten =
      ((appliedTurns as).map (·.cmd) ++ extra.filter fun cmd => 0 < cmd.seq).map
        (logRecord json) := by
    rw [← hrecs, List.map_append, above_append, List.map_append]
    congr 1
    · refine List.filter_eq_self.2 fun rec hrec => ?_
      obtain ⟨cmd, hcmd, rfl⟩ := List.mem_map.1 hrec
      obtain ⟨p, hp, rfl⟩ := List.mem_map.1 hcmd
      exact decide_eq_true (hseq p hp)
    · exact List.filter_map
  refine ⟨extra.filter fun cmd => 0 < cmd.seq, lastSeq 0 (above 0 segs.flatten),
    (List.length_filter_le _ _).trans hextra, ?_, hdurable.books⟩
  rw [replay_holds hsegments (by omega) hheld, hdelivered, foldlM_collect]
  rfl

end Recovery

/-! ### Two sells and a buy of both -/

theorem length_crossJson (cmd : Sequenced) : (crossJson cmd).length < 2 ^ 32 - 17 := by
  have hall : ∀ e ∈ crossTexts, e.2.toUTF8.data.toList.length < 2 ^ 32 - 17 := by decide +kernel
  unfold crossJson
  split
  · next text hfound => exact hall _ (List.mem_of_find?_eq_some hfound)
  · decide

/-- Each command is appended and applied. -/
def crossActions : List LoggingAction :=
  [.append (restingSell 1), .apply ⟨restingSell 1, true, [.accepted 1 1]⟩,
   .append (restingSell 2), .apply ⟨restingSell 2, true, [.accepted 2 2]⟩,
   .append marketBuy, .apply ⟨marketBuy, true, crossEvents⟩]

/-- The power goes off after the trades. -/
theorem durable_recovers_sample : ∃ (s : LoggingShard (VecSlab Order)) (extra : List Sequenced)
    (last : Seq),
    Run (LoggingStep crc32 (logRecord crossJson)) (.start [(1, 1)] ∅ .perRecord) crossActions s ∧
      s.shard.logged = [restingSell 1, restingSell 2, marketBuy] ∧ extra.length ≤ 1 ∧
      replay crc32 0 collect s.dir.powerLoss [] =
        .ok (last, ([restingSell 1, restingSell 2, marketBuy] ++ extra).map
          (logRecord crossJson)) := by
  have hcomputed : ((crossActions.foldlM (LoggingShard.step? crc32 (logRecord crossJson) 9)
      (.start [(1, 1)] ∅ .perRecord : LoggingShard (VecSlab Order))).any fun s =>
        s.shard.logged = [restingSell 1, restingSell 2, marketBuy] ∧
          (listSegments s.dir.powerLoss).length + 1 < 10 ^ 10) = true := by decide +kernel
  obtain ⟨s, hfold, htest⟩ := (Option.any_eq_true _ _).1 hcomputed
  obtain ⟨hlogged, hcount⟩ := of_decide_eq_true htest
  have hrun := LoggingShard.run_of_foldlM hfold
  obtain ⟨extra, last, hextra, hreplay, -⟩ := durable_recovers length_crossJson
    (by decide +kernel) hcount hrun (by simp [crossActions]) (by decide +kernel)
    (.between s.dir.crashesTo_powerLoss)
  exact ⟨s, extra, last, hrun, hlogged, hextra, hreplay⟩

end Exchange
