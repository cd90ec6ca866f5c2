import Exchange.Wal.Record

/-!
# The record format

Decoding a frame, whatever its length field says; a record survives the round trip,
and every proper prefix of its frame is recognized as torn.
-/

namespace Exchange

open LittleEndian FramedLog

variable {crc : Bytes → UInt32}

/-- What `decode` makes of a body whose checksum is right. -/
def readBody (body : Bytes) (total : Nat) : Except WalError (WalRecord × Nat) :=
  if body.length < 17 then .error (.truncated 8)
  else
    match RecordType.fromU8 (body.getD 16 0) with
    | none => .error (.serialise s!"unknown rec_type {body.getD 16 0}")
    | some recType =>
      .ok (⟨UInt64.ofNat (ofBytes (body.take 8)), UInt64.ofNat (ofBytes ((body.drop 8).take 8)),
        recType, body.drop 17⟩, total)

theorem decode_frame {len : Nat} (hlen : len < 2 ^ 32) (sum : UInt32) (data : Bytes) :
    WalRecord.decode crc (toBytes 4 len ++ toBytes 4 sum.toNat ++ data) =
      if data.length < len then .error (.truncated 8)
      else if crc (data.take len) ≠ sum then .error (.crc sum (crc (data.take len)))
      else readBody (data.take len) (8 + len) := by
  have hlength : (toBytes 4 len ++ toBytes 4 sum.toNat ++ data).length = 8 + data.length := by
    simp
    omega
  have hlen' : ofBytes ((toBytes 4 len ++ toBytes 4 sum.toNat ++ data).take 4) = len := by
    rw [List.append_assoc, List.take_left' (length_toBytes 4 len)]
    exact ofBytes_toBytes_of_lt (by simpa using hlen)
  have hsum : UInt32.ofNat (ofBytes
      (((toBytes 4 len ++ toBytes 4 sum.toNat ++ data).drop 4).take 4)) = sum := by
    rw [List.append_assoc, List.drop_left' (length_toBytes 4 len),
      List.take_left' (length_toBytes 4 _),
      ofBytes_toBytes_of_lt (by simpa using sum.toNat_lt)]
    exact UInt32.ofNat_toNat
  have hbody : ((toBytes 4 len ++ toBytes 4 sum.toNat ++ data).take (8 + len)).drop 8 =
      data.take len := by
    rw [List.drop_take, List.drop_left' (by simp)]
    congr 1
    omega
  unfold WalRecord.decode
  dsimp only
  rw [hlength, hlen', hsum, hbody, if_neg (by omega)]
  by_cases hshort : data.length < len
  · rw [if_pos (by omega), if_pos hshort]
  · rw [if_neg (by omega), if_neg hshort]
    rfl

theorem readBody_body (r : WalRecord) (total : Nat) : readBody r.body total = .ok (r, total) := by
  obtain ⟨seq, ts, recType, payload⟩ := r
  have hseq : (WalRecord.body ⟨seq, ts, recType, payload⟩).take 8 = toBytes 8 seq.toNat := by
    unfold WalRecord.body
    rw [List.append_assoc, List.append_assoc, List.take_left' (length_toBytes 8 _)]
  have hts : ((WalRecord.body ⟨seq, ts, recType, payload⟩).drop 8).take 8 = toBytes 8 ts.toNat := by
    unfold WalRecord.body
    rw [List.append_assoc, List.append_assoc, List.drop_left' (length_toBytes 8 _),
      List.take_left' (length_toBytes 8 _)]
  have hrest : (WalRecord.body ⟨seq, ts, recType, payload⟩).drop 16 = recType.toU8 :: payload := by
    unfold WalRecord.body
    rw [List.append_assoc, List.drop_left' (by simp)]
    rfl
  have htype : (WalRecord.body ⟨seq, ts, recType, payload⟩).getD 16 0 = recType.toU8 := by
    rw [List.getD_eq_getElem?_getD, ← List.head?_drop, hrest]
    rfl
  have hpayload : (WalRecord.body ⟨seq, ts, recType, payload⟩).drop 17 = payload := by
    rw [← List.tail_drop, hrest]
    rfl
  have hword : ∀ w : UInt64, UInt64.ofNat (ofBytes (toBytes 8 w.toNat)) = w := by
    intro w
    rw [ofBytes_toBytes_of_lt (by simpa using w.toNat_lt)]
    exact UInt64.ofNat_toNat
  unfold readBody
  rw [if_neg (by simp), hseq, hts, htype, hpayload, RecordType.fromU8_toU8, hword, hword]

theorem WalRecord.Fits.length_lt {r : WalRecord} (h : r.Fits) : r.body.length < 2 ^ 32 := by
  unfold WalRecord.Fits at h
  rw [length_body]
  omega

/-- The length field of a record that fits is the length of its body. -/
theorem encode_of_fits {r : WalRecord} (h : r.Fits) :
    r.encode crc = toBytes 4 r.body.length ++ toBytes 4 (crc r.body).toNat ++ r.body := by
  unfold WalRecord.encode
  rw [UInt32.toNat_ofNat_of_lt' h.length_lt]

theorem decode_encode {r : WalRecord} (h : r.Fits) (rest : Bytes) :
    WalRecord.decode crc (r.encode crc ++ rest) = .ok (r, (r.encode crc).length) := by
  have htake : (r.body ++ rest).take r.body.length = r.body := List.take_left
  have htotal : (r.encode crc).length = 8 + r.body.length := by
    rw [WalRecord.length_encode, WalRecord.length_body]
    omega
  rw [htotal, encode_of_fits h, List.append_assoc, decode_frame h.length_lt, htake,
    if_neg (by simp), if_neg (by simp), readBody_body]

theorem decode_take {r : WalRecord} (h : r.Fits) {n : Nat} (hn : n < (r.encode crc).length) :
    ∃ e, WalRecord.decode crc ((r.encode crc).take n) = .error e ∧ e.isTruncated = true := by
  rw [WalRecord.length_encode] at hn
  by_cases hhead : n < 8
  · -- the cut is in the length or the checksum
    refine ⟨.truncated 0, ?_, rfl⟩
    unfold WalRecord.decode
    rw [if_pos (by simp; omega)]
  · -- the cut is in the body
    refine ⟨.truncated 8, ?_, rfl⟩
    have htake : (r.encode crc).take n =
        toBytes 4 r.body.length ++ toBytes 4 (crc r.body).toNat ++ r.body.take (n - 8) := by
      rw [encode_of_fits h, List.take_append, List.take_of_length_le (by simp; omega)]
      simp
    rw [htake, decode_frame h.length_lt, if_pos]
    rw [List.length_take, WalRecord.length_body]
    omega

@[simp] theorem walCodec_encode (r : WalRecord) : (walCodec crc).encode r = r.encode crc := rfl

@[simp] theorem walCodec_decode (buf : Bytes) :
    (walCodec crc).decode buf = WalRecord.decode crc buf := rfl

@[simp] theorem walCodec_torn (e : WalError) : (walCodec crc).torn e = e.isTruncated := rfl

/-- The records that fit their length field are read back, and torn ones are recognized. -/
theorem walCodec_lawful : (walCodec crc).Lawful WalRecord.Fits := by
  constructor
  · intro r
    rw [walCodec_encode, WalRecord.length_encode]
    omega
  · intro r rest h
    rw [walCodec_decode, walCodec_encode]
    exact decode_encode h rest
  · intro r n h hn
    simp only [walCodec_decode, walCodec_encode, walCodec_torn] at hn ⊢
    exact decode_take h hn

end Exchange
