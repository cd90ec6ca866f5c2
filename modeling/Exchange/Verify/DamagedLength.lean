import Exchange.Verify.Recovery

/-!
# A damaged length

One length field of a log is overwritten. If the record then reads as torn, the rest of
its segment is given up, as behind a crash, and the segments behind it are read all the
same.
-/

namespace Exchange

open FramedLog LittleEndian

variable {crc : Bytes → UInt32}

/-- Whatever replay delivers is the first of these records. -/
def ReplaysPrefix (crc : Bytes → UInt32) (dir : Dir) (recs : List WalRecord) : Prop :=
  ∀ last delivered, replay crc 0 collect dir [] = .ok (last, delivered) →
    delivered <+: above 0 recs

section Damage

variable (crc) (len : UInt32) (rec : WalRecord) (post : List WalRecord)

/-- The bytes of a segment behind the length and the checksum of `rec`, where the records
`post` follow it. -/
def bytesBehind : Bytes := rec.body ++ (walCodec crc).encodeAll post

/-- Under the length `len` the record reads as torn. -/
def ReadsTorn : Prop :=
  (bytesBehind crc rec post).length < len.toNat ∨
    len.toNat < 17 ∧ crc ((bytesBehind crc rec post).take len.toNat) = crc rec.body

/-- Under the length `len` another body has the checksum of the record. -/
def Collides : Prop :=
  17 ≤ len.toNat ∧ len.toNat ≤ (bytesBehind crc rec post).length ∧
    crc ((bytesBehind crc rec post).take len.toNat) = crc rec.body

/-- The frame of `rec` with the length `len`, and the rest of the segment. -/
def damagedBytes : Bytes :=
  toBytes 4 len.toNat ++ toBytes 4 (crc rec.body).toNat ++ bytesBehind crc rec post

end Damage

section Scan

variable {len : UInt32} {rec : WalRecord} {post : List WalRecord} {σ : Type}
  {f : σ → WalRecord → Except WalError σ}

theorem decode_damagedBytes :
    WalRecord.decode crc (damagedBytes crc len rec post) =
      if (bytesBehind crc rec post).length < len.toNat then .error (.truncated 8)
      else if crc ((bytesBehind crc rec post).take len.toNat) ≠ crc rec.body then
        .error (.crc (crc rec.body) (crc ((bytesBehind crc rec post).take len.toNat)))
      else readBody ((bytesBehind crc rec post).take len.toNat) (8 + len.toNat) :=
  decode_frame len.toNat_lt _ _

theorem decode_of_readsTorn (h : ReadsTorn crc len rec post) :
    WalRecord.decode crc (damagedBytes crc len rec post) = .error (.truncated 8) := by
  rw [decode_damagedBytes]
  rcases h with h | ⟨hshort, hsum⟩
  · rw [if_pos h]
  · split
    · rfl
    · rw [if_neg (not_not.2 hsum)]
      unfold readBody
      rw [if_pos]
      rw [List.length_take]
      omega

/-- Bytes that neither read as torn nor collide fail the checksum. -/
theorem decode_of_mismatch (htorn : ¬ReadsTorn crc len rec post)
    (hcollide : ¬Collides crc len rec post) :
    ∃ e, WalRecord.decode crc (damagedBytes crc len rec post) = .error e ∧
      e.isTruncated = false := by
  unfold ReadsTorn at htorn
  unfold Collides at hcollide
  push Not at htorn hcollide
  rw [decode_damagedBytes, if_neg (Nat.not_lt.2 htorn.1), if_pos]
  · exact ⟨_, rfl, rfl⟩
  · intro hsum
    by_cases hshort : len.toNat < 17
    · exact htorn.2 hshort hsum
    · exact hcollide (by omega) htorn.1 hsum

/-- A collision is read as a record with another payload. -/
theorem decode_of_collides (h : Collides crc len rec post)
    (hlen : len.toNat ≠ rec.body.length) :
    ∃ rec' consumed, WalRecord.decode crc (damagedBytes crc len rec post) = .ok (rec', consumed) ∧
      rec'.seq = rec.seq ∧ rec' ≠ rec := by
  obtain ⟨hlong, hfits, hsum⟩ := h
  rw [decode_damagedBytes, if_neg (Nat.not_lt.2 hfits), if_neg (not_not.2 hsum)]
  obtain ⟨seq, ts, recType, payload⟩ := rec
  -- the bytes start with the same number, timestamp and type
  have hbody : (bytesBehind crc ⟨seq, ts, recType, payload⟩ post).take len.toNat =
      WalRecord.body ⟨seq, ts, recType,
        (payload ++ (walCodec crc).encodeAll post).take (len.toNat - 17)⟩ := by
    unfold bytesBehind WalRecord.body
    rw [List.append_assoc, List.take_append, List.take_of_length_le (by simp; omega)]
    simp
  rw [hbody, readBody_body]
  refine ⟨_, _, rfl, rfl, ?_⟩
  intro he
  have hpayload := congrArg (fun r : WalRecord => r.payload.length) he
  unfold bytesBehind at hfits
  rw [List.length_append, WalRecord.length_body] at hfits
  rw [WalRecord.length_body] at hlen
  simp only [List.length_take, List.length_append] at hpayload hfits hlen
  omega

theorem damagedBytes_isEmpty : (damagedBytes crc len rec post).isEmpty = false := by
  unfold damagedBytes toBytes
  rfl

theorem scan_of_readsTorn (h : ReadsTorn crc len rec post) (fuel : Nat) (s : σ) :
    (walCodec crc).scan f fuel (damagedBytes crc len rec post) s = .ok s := by
  have hdecode : (walCodec crc).decode (damagedBytes crc len rec post) =
      .error (.truncated 8) := by
    rw [walCodec_decode]
    exact decode_of_readsTorn h
  exact Codec.scan_torn hdecode rfl fuel s

theorem scan_of_mismatch (htorn : ¬ReadsTorn crc len rec post)
    (hcollide : ¬Collides crc len rec post) (fuel : Nat) (s : σ) :
    ∃ e, (walCodec crc).scan f (fuel + 1) (damagedBytes crc len rec post) s = .error e := by
  obtain ⟨e, hdecode, he⟩ := decode_of_mismatch htorn hcollide
  refine ⟨e, ?_⟩
  rw [Codec.scan, damagedBytes_isEmpty, if_neg Bool.false_ne_true, walCodec_decode, hdecode]
  dsimp only
  rw [walCodec_torn, he, if_neg Bool.false_ne_true]

/-- Behind a collision, a record that was never appended is among those delivered. -/
theorem scan_of_collides (h : Collides crc len rec post) (hlen : len.toNat ≠ rec.body.length)
    (hseq : 0 < rec.seq) (fuel : Nat) (last : Seq) (acc : List WalRecord) :
    ∃ rec', rec' ≠ rec ∧ ∀ st,
      (walCodec crc).scan (deliver 0 collect) (fuel + 1) (damagedBytes crc len rec post)
        (last, acc) = .ok st → acc ++ [rec'] <+: st.2 := by
  obtain ⟨rec', consumed, hdecode, hseq', hne⟩ := decode_of_collides h hlen
  refine ⟨rec', hne, fun st hst => ?_⟩
  have hdeliver : deliver 0 collect (last, acc) rec' = .ok (rec'.seq, acc ++ [rec']) := by
    unfold deliver
    rw [if_pos (hseq' ▸ hseq)]
    rfl
  rw [Codec.scan, damagedBytes_isEmpty, if_neg Bool.false_ne_true, walCodec_decode, hdecode] at hst
  dsimp only at hst
  rw [hdeliver, Fuel.ok_bind] at hst
  refine Codec.scan_invariant (I := fun st => acc ++ [rec'] <+: st.2) ?_ (List.prefix_refl _) hst
  intro st r st' hI hstep
  unfold deliver collect at hstep
  split at hstep
  · cases hstep
    exact hI.trans (List.prefix_append _ _)
  · cases hstep
    exact hI

end Scan

/-! ## The whole log -/

section Log

variable {dir : Dir} {before later : List (List WalRecord)} {pre post : List WalRecord}
  {rec : WalRecord} {len : UInt32}

theorem damaged_bytes (hfits : rec.Fits) :
    ((walCodec crc).encodeAll (pre ++ rec :: post)).take ((walCodec crc).encodeAll pre).length ++
        toBytes 4 len.toNat ++
        ((walCodec crc).encodeAll (pre ++ rec :: post)).drop
          (((walCodec crc).encodeAll pre).length + (toBytes 4 len.toNat).length) =
      (walCodec crc).encodeAll pre ++ damagedBytes crc len rec post := by
  have hdrop : (toBytes 4 rec.body.length ++ toBytes 4 (crc rec.body).toNat ++ rec.body ++
      (walCodec crc).encodeAll post).drop (toBytes 4 len.toNat).length =
        toBytes 4 (crc rec.body).toNat ++ rec.body ++ (walCodec crc).encodeAll post := by
    rw [List.append_assoc, List.append_assoc, List.drop_left' (by simp), List.append_assoc]
  rw [Codec.encodeAll_append, Codec.encodeAll_cons, walCodec_encode, encode_of_fits hfits,
    List.take_left, ← List.drop_drop, List.drop_left, hdrop]
  unfold damagedBytes bytesBehind
  simp only [List.append_assoc]

/-- A log whose length field of `rec` is overwritten, segment by segment. -/
theorem damaged_segments (len : UInt32) {files : List File} (h : Segments dir files)
    (hbytes : files.map File.bytes =
      (before ++ (pre ++ rec :: post) :: later).map (walCodec crc).encodeAll)
    (hidx : before.length + 1 < 2 ^ 64) (hfits : rec.Fits) :
    ∃ files', Segments (dir.overwrite (segmentPath (UInt64.ofNat (before.length + 1)))
        ((walCodec crc).encodeAll pre).length (toBytes 4 len.toNat)) files' ∧
      files'.map File.bytes = before.map (walCodec crc).encodeAll ++
        ((walCodec crc).encodeAll pre ++ damagedBytes crc len rec post) ::
          later.map (walCodec crc).encodeAll := by
  rw [List.map_append, List.map_cons] at hbytes
  obtain ⟨left, rest, rfl, hleft, hrest⟩ := List.map_eq_append_iff.1 hbytes
  obtain ⟨file, right, rfl, hfile, hright⟩ := List.map_eq_cons_iff.1 hrest
  have hlen : left.length = before.length := by simpa using congrArg List.length hleft
  refine ⟨_, h.modify ?_ _, ?_⟩
  · rw [UInt64.toNat_ofNat_of_lt' hidx, hlen]
  · rw [List.map_append, List.map_cons, hleft, hright]
    dsimp only
    rw [hfile, damaged_bytes hfits]

/-- The reader on such a log: up to the damaged record, and then what it makes of the bytes. -/
theorem replay_damaged {files : List File} (h : Segments dir files)
    (hcount : files.length < 10 ^ 10)
    (hbytes : files.map File.bytes = before.map (walCodec crc).encodeAll ++
      ((walCodec crc).encodeAll pre ++ damagedBytes crc len rec post) ::
        later.map (walCodec crc).encodeAll)
    (hbefore : ∀ seg ∈ before, ∀ rec ∈ seg, rec.Fits) (hpre : ∀ rec ∈ pre, rec.Fits)
    (hlater : ∀ seg ∈ later, ∀ rec ∈ seg, rec.Fits) :
    ∃ fuel last, replay crc 0 collect dir [] =
      ((walCodec crc).scan (deliver 0 collect) (fuel + 1) (damagedBytes crc len rec post)
        (last, above 0 (before.flatten ++ pre))) >>=
        fun st => later.flatten.foldlM (deliver 0 collect) st := by
  have hheld : ∀ segs : List (List WalRecord), (∀ seg ∈ segs, ∀ rec ∈ seg, rec.Fits) →
      List.Forall₂ (Holds crc) (segs.map (walCodec crc).encodeAll) segs := by
    intro segs hsegs
    rw [List.forall₂_map_left_iff, List.forall₂_same]
    exact fun seg hseg => holds_encodeAll (hsegs seg hseg)
  have hlawful : (walCodec crc).Lawful WalRecord.Fits := walCodec_lawful
  obtain ⟨fuel, hfuel, hscan⟩ := hlawful.scan_append
    (f := deliver 0 collect) hpre (damagedBytes crc len rec post) (Nat.le_refl _)
    (lastSeq 0 (above 0 before.flatten), above 0 before.flatten)
  obtain ⟨fuel, rfl⟩ : ∃ n, fuel = n + 1 := by
    refine ⟨fuel - 1, ?_⟩
    unfold damagedBytes at hfuel
    rw [List.length_append, List.length_append, LittleEndian.length_toBytes] at hfuel
    omega
  refine ⟨fuel, lastSeq (lastSeq 0 (above 0 before.flatten)) (above 0 pre), ?_⟩
  rw [replay_segments h hcount, hbytes, List.foldlM_append, foldlM_replaySegment
    (hheld before hbefore), foldlM_deliver_collect, Fuel.ok_bind, List.foldlM_cons,
    replaySegment_eq_scan, List.nil_append, hscan, foldlM_deliver_collect, Fuel.ok_bind,
    ← above_append]
  exact congrArg _ (funext (foldlM_replaySegment (hheld later hlater)))

section Reader

variable {recs behind acc : List WalRecord} {fuel : Nat} {last : Seq}
  (hreplay : replay crc 0 collect dir [] =
    ((walCodec crc).scan (deliver 0 collect) (fuel + 1) (damagedBytes crc len rec post)
      (last, acc)) >>= fun st => later.flatten.foldlM (deliver 0 collect) st)
  (horiginal : above 0 recs = acc ++ above 0 (rec :: behind))

include hreplay horiginal

/-- The reader goes on with the later segments. -/
theorem replaysPrefix_iff_of_readsTorn (htorn : ReadsTorn crc len rec post) :
    ReplaysPrefix crc dir recs ↔ above 0 later.flatten <+: above 0 (rec :: behind) := by
  rw [scan_of_readsTorn htorn, Fuel.ok_bind, foldlM_deliver_collect] at hreplay
  unfold ReplaysPrefix
  rw [horiginal]
  constructor
  · intro h
    exact (List.prefix_append_right_inj _).1 (h _ _ hreplay)
  · intro h last' delivered hok
    rw [hreplay] at hok
    cases hok
    exact (List.prefix_append_right_inj _).2 h

omit horiginal in
/-- The reader reports the damage. -/
theorem replaysPrefix_of_mismatch (htorn : ¬ReadsTorn crc len rec post)
    (hcollide : ¬Collides crc len rec post) : ReplaysPrefix crc dir recs := by
  obtain ⟨e, hscan⟩ := scan_of_mismatch (f := deliver 0 collect) htorn hcollide fuel (last, acc)
  rw [hscan, Fuel.error_bind] at hreplay
  intro last' delivered hok
  rw [hreplay] at hok
  cases hok

/-- The reader delivers a record that was never appended. -/
theorem replay_fails_of_collides (hcollide : Collides crc len rec post)
    (hlen : len.toNat ≠ rec.body.length) (hseq : 0 < rec.seq) (h : ReplaysPrefix crc dir recs) :
    ∃ e, replay crc 0 collect dir [] = .error e := by
  obtain ⟨rec', hne, hkeep⟩ := scan_of_collides hcollide hlen hseq fuel last acc
  cases hout : replay crc 0 collect dir [] with
  | error e => exact ⟨e, rfl⟩
  | ok out =>
    obtain ⟨last', delivered⟩ := out
    have hfront := h last' delivered hout
    rw [hreplay] at hout
    obtain ⟨st, hst, hlater⟩ := Fuel.bind_eq_ok.1 hout
    rw [foldlM_deliver_collect] at hlater
    cases hlater
    have hcons : above 0 (rec :: behind) = rec :: above 0 behind :=
      List.filter_cons_of_pos (by simpa using hseq)
    have hfirst : acc ++ [rec'] <+: acc ++ rec :: above 0 behind := by
      rw [horiginal, hcons] at hfront
      exact ((hkeep st hst).trans (List.prefix_append _ _)).trans hfront
    rw [List.prefix_append_right_inj, List.cons_prefix_cons] at hfirst
    exact absurd hfirst.1 hne

end Reader

/-- **A damaged length.** Bytes that neither read as torn nor collide are found out. If the
record reads as torn, what is delivered is a prefix just if the later segments hold nothing
but what the given-up records start with. A collision goes unnoticed. -/
theorem damaged_length_iff {sessions : List (FsyncPolicy × List WalRecord)} {dir₀ : Dir}
    (hfits : ∀ se ∈ sessions, ∀ rec ∈ se.2, rec.Fits) (hdir₀ : listSegments dir₀ = [])
    (hrun : runClosed crc sessions dir₀ = some dir)
    (hcount : (listSegments dir).length < 10 ^ 10)
    (hsegs : sessionSegments crc sessions = before ++ (pre ++ rec :: post) :: later)
    (hlen : len ≠ UInt32.ofNat rec.body.length) :
    let damaged := dir.overwrite (segmentPath (UInt64.ofNat (before.length + 1)))
      ((walCodec crc).encodeAll pre).length (toBytes 4 len.toNat)
    (¬Collides crc len rec post →
      (ReplaysPrefix crc damaged (sessions.flatMap Prod.snd) ↔
        (ReadsTorn crc len rec post →
          above 0 later.flatten <+: above 0 (rec :: post ++ later.flatten)))) ∧
    (Collides crc len rec post → 0 < rec.seq →
      ReplaysPrefix crc damaged (sessions.flatMap Prod.snd) →
        ∃ e, replay crc 0 collect damaged [] = .error e) := by
  intro damaged
  have hseg := sessionSegments_fits crc hfits
  have horiginal : above 0 (sessions.flatMap Prod.snd) =
      above 0 (before.flatten ++ pre) ++ above 0 (rec :: (post ++ later.flatten)) := by
    rw [← above_append, ← flatten_sessionSegments crc, hsegs]
    simp
  rw [hsegs] at hseg
  have hhere := hseg _ (List.mem_append_right _ List.mem_cons_self)
  have hrec : rec.Fits := hhere rec (List.mem_append_right _ List.mem_cons_self)
  have hlen' : len.toNat ≠ rec.body.length := by
    intro h
    exact hlen (by rw [← h, UInt32.ofNat_toNat])
  -- the log before and after the overwrite
  obtain ⟨files, hfiles, hbytes⟩ := runClosed_segments hdir₀ hrun hcount
  rw [hfiles.length_listSegments] at hcount
  rw [hsegs] at hbytes
  have hfilesLen : files.length = before.length + 1 + later.length := by
    have h := congrArg List.length hbytes
    simp at h
    omega
  obtain ⟨files', hfiles', hbytes'⟩ := damaged_segments len hfiles hbytes (by omega) hrec
  have hcount' : files'.length < 10 ^ 10 := by
    have h := congrArg List.length hbytes'
    simp at h
    omega
  obtain ⟨fuel, last, hreplay⟩ := replay_damaged hfiles' hcount' hbytes'
    (fun seg h => hseg seg (List.mem_append_left _ h))
    (fun r h => hhere r (List.mem_append_left _ h))
    (fun seg h => hseg seg (List.mem_append_right _ (List.mem_cons_of_mem _ h)))
  refine ⟨fun hcollide => ?_, fun hcollide hseq h =>
    replay_fails_of_collides hreplay horiginal hcollide hlen' hseq h⟩
  by_cases htorn : ReadsTorn crc len rec post
  · rw [forall_prop_of_true htorn]
    exact replaysPrefix_iff_of_readsTorn hreplay horiginal htorn
  · exact iff_of_true (replaysPrefix_of_mismatch hreplay htorn hcollide)
      fun h => absurd h htorn

def shortRecord (seq : Seq) : WalRecord := ⟨seq, 100, .command, [1, 2, 3]⟩

/-- The last record of a log is damaged, and nothing follows. -/
theorem damaged_length_sample :
    ∃ dir, runClosed crc32 [(.off, [shortRecord 1, shortRecord 2])] ∅ = some dir ∧
      ReplaysPrefix crc32
        (dir.overwrite (segmentPath 1) ((walCodec crc32).encodeAll [shortRecord 1]).length
          (toBytes 4 (1000 : UInt32).toNat))
        [shortRecord 1, shortRecord 2] := by
  have hsome : (runClosed crc32 [(.off, [shortRecord 1, shortRecord 2])] ∅).isSome = true := by
    decide +kernel
  obtain ⟨dir, hrun⟩ := Option.isSome_iff_exists.1 hsome
  have hcount : (listSegments dir).length < 10 ^ 10 := by
    have hlen : (runClosed crc32 [(.off, [shortRecord 1, shortRecord 2])] ∅).map
        (fun dir => (listSegments dir).length) = some 1 := by decide +kernel
    rw [hrun] at hlen
    have hone : (listSegments dir).length = 1 := Option.some.inj hlen
    omega
  have hcollide : ¬Collides crc32 1000 (shortRecord 2) [] := by
    intro h
    exact absurd h.2.1 (by decide +kernel)
  obtain ⟨hiff, -⟩ := @damaged_length_iff crc32 dir [] [] [shortRecord 1] [] (shortRecord 2) 1000
    _ ∅ (by decide +kernel) (by decide +kernel) hrun hcount (by decide +kernel) (by decide +kernel)
  have hfront := (hiff hcollide).2 fun _ => List.nil_prefix
  exact ⟨dir, hrun, hfront⟩

/-- Two sessions of one record each, and the length of the first record is overwritten: replay
skips it and delivers the second. -/
theorem later_segment_delivered :
    ∃ dir, runClosed crc32 [(.off, [shortRecord 1]), (.off, [shortRecord 2])] ∅ = some dir ∧
      ¬ReplaysPrefix crc32 (dir.overwrite (segmentPath 1) 0 (toBytes 4 (1000 : UInt32).toNat))
        [shortRecord 1, shortRecord 2] := by
  have hreplay : (runClosed crc32 [(.off, [shortRecord 1]), (.off, [shortRecord 2])] ∅).map
      (fun dir => (replay crc32 0 collect
        (dir.overwrite (segmentPath 1) 0 (toBytes 4 (1000 : UInt32).toNat)) []).toOption) =
          some (some (2, [shortRecord 2])) := by decide +kernel
  obtain ⟨dir, hrun, hdir⟩ := Option.map_eq_some_iff.1 hreplay
  refine ⟨dir, hrun, fun h => ?_⟩
  cases hout : replay crc32 0 collect
      (dir.overwrite (segmentPath 1) 0 (toBytes 4 (1000 : UInt32).toNat)) [] with
  | error e =>
    rw [hout] at hdir
    cases hdir
  | ok out =>
    rw [hout] at hdir
    obtain rfl : out = (2, [shortRecord 2]) := Option.some.inj hdir
    have hfront := h _ _ hout
    exact absurd hfront (by decide +kernel)

end Log

end Exchange
