import Exchange.Verify.Frames

/-!
# The record codec is exact

The frames that decode are the encodings: what is decoded from any bytes encodes to the
bytes it was decoded from. The checks on the way keep every slice in range, whatever
the length field says.
-/

namespace Exchange

open LittleEndian WalRecord

variable {crc : Bytes → UInt32} {b : Bytes} {r : WalRecord} {n : Nat}

/-! ## Decoding is encoding backwards -/

theorem RecordType.toU8_of_fromU8 {tag : UInt8} {t : RecordType} (h : fromU8 tag = some t) :
    t.toU8 = tag := by
  unfold fromU8 at h
  split_ifs at h with h₁ h₂ h₃
  · cases h
    exact h₁.symm
  · cases h
    exact h₂.symm
  · cases h
    exact h₃.symm

/-- Eight bytes make a word. -/
theorem toBytes_word {bs : Bytes} (h : bs.length = 8) :
    toBytes 8 (UInt64.ofNat (ofBytes bs)).toNat = bs := by
  have hlt := ofBytes_lt bs
  rw [h] at hlt
  rw [UInt64.toNat_ofNat_of_lt' (by simpa using hlt), toBytes_ofBytes_of_length h]

/-- Four bytes make a half word. -/
theorem toBytes_half {bs : Bytes} (h : bs.length = 4) :
    toBytes 4 (UInt32.ofNat (ofBytes bs)).toNat = bs := by
  have hlt := ofBytes_lt bs
  rw [h] at hlt
  rw [UInt32.toNat_ofNat_of_lt' (by simpa using hlt), toBytes_ofBytes_of_length h]

theorem body_of_readBody {body : Bytes} {total : Nat} (h : readBody body total = .ok (r, n)) :
    r.body = body ∧ n = total := by
  unfold readBody at h
  split at h
  · cases h
  · next hlen =>
    split at h
    · cases h
    · next t ht =>
      cases h
      refine ⟨?_, rfl⟩
      have htag := RecordType.toU8_of_fromU8 ht
      have hsplit : body.drop 16 = body.getD 16 0 :: body.drop 17 := by
        have hlt : 16 < body.length := by omega
        rw [List.drop_eq_getElem_cons hlt, List.getD_eq_getElem?_getD,
          List.getElem?_eq_getElem hlt, Option.getD_some]
      unfold WalRecord.body
      dsimp only
      rw [toBytes_word (by simp; omega), toBytes_word (by simp; omega), htag, List.append_assoc,
        List.append_assoc, List.singleton_append, ← hsplit, ← List.drop_drop (i := 8) (j := 8),
        List.take_append_drop, List.take_append_drop]

/-- What is decoded is the encoding at the front of the bytes. -/
theorem encode_of_decode (h : decode crc b = .ok (r, n)) :
    n ≤ b.length ∧ r.encode crc = b.take n := by
  unfold decode at h
  dsimp only at h
  split at h
  · cases h
  · next hhead =>
    split at h
    · cases h
    · next htotal =>
      split at h
      · cases h
      · next hcrc =>
        have hread : readBody ((b.take (8 + ofBytes (b.take 4))).drop 8)
            (8 + ofBytes (b.take 4)) = .ok (r, n) := h
        obtain ⟨hbody, rfl⟩ := body_of_readBody hread
        have hsum := not_not.1 hcrc
        have hlen : r.body.length = ofBytes (b.take 4) := by
          rw [hbody, List.length_drop, List.length_take]
          omega
        have hpieces : b.take (8 + ofBytes (b.take 4)) =
            b.take 4 ++ (b.drop 4).take 4 ++ (b.take (8 + ofBytes (b.take 4))).drop 8 := by
          have hfront : b.take 4 ++ (b.drop 4).take 4 =
              (b.take (8 + ofBytes (b.take 4))).take 8 := by
            rw [List.take_take, Nat.min_eq_left (by omega), ← List.take_add]
          rw [hfront, List.take_append_drop]
        refine ⟨by omega, ?_⟩
        unfold encode
        rw [hlen, toBytes_half (by simp; omega), hbody, hsum, toBytes_half (by simp; omega),
          ← hpieces]

/-! ## Decoding stays in range -/

theorem slice?_of_le {buf : Bytes} {i j : Nat} (h : i ≤ j ∧ j ≤ buf.length) :
    slice? buf i j = some ((buf.take j).drop i) :=
  if_pos h

theorem array?_of_length {buf : Bytes} {width : Nat} (h : buf.length = width) :
    array? width buf = some buf :=
  if_pos h

/-- A fixed-width field that is in range is read. -/
theorem bind_field {α : Type} {buf : Bytes} (i j width : Nat) (f : Bytes → Option α)
    (hj : j = i + width) (h : j ≤ buf.length) :
    ((slice? buf i j).bind fun x => (array? width x).bind f) =
      f ((buf.drop i).take width) := by
  have hslice : (buf.take j).drop i = (buf.drop i).take width := by
    rw [List.drop_take, hj, Nat.add_sub_cancel_left]
  have hwidth : ((buf.drop i).take width).length = width := by
    rw [List.length_take, List.length_drop]
    omega
  rw [slice?_of_le ⟨by omega, h⟩, hslice, Option.bind_some, array?_of_length hwidth,
    Option.bind_some]

/-- No slice or index of `decode` is out of range, whatever the length field says. -/
theorem decode?_eq (b : Bytes) : decode? crc b = some (decode crc b) := by
  unfold decode? decode
  by_cases hhead : b.length < 8
  · rw [if_pos hhead, if_pos hhead]
  · rw [if_neg hhead, if_neg hhead]
    simp only [Option.bind_eq_bind]
    rw [bind_field 0 4 4 _ rfl (by omega), bind_field 4 8 4 _ rfl (by omega), List.drop_zero]
    by_cases htotal : b.length < 8 + ofBytes (b.take 4)
    · rw [if_pos htotal, if_pos htotal]
      rfl
    · rw [if_neg htotal, if_neg htotal, slice?_of_le ⟨by omega, by omega⟩, Option.bind_some]
      generalize (b.take (8 + ofBytes (b.take 4))).drop 8 = body
      by_cases hcrc : crc body ≠ UInt32.ofNat (ofBytes ((b.drop 4).take 4))
      · rw [if_pos hcrc, if_pos hcrc]
        rfl
      · rw [if_neg hcrc, if_neg hcrc]
        by_cases hshort : body.length < 17
        · rw [if_pos hshort, if_pos hshort]
          rfl
        · have hlt : 16 < body.length := by omega
          rw [if_neg hshort, if_neg hshort, bind_field 0 8 8 _ rfl (by omega),
            bind_field 8 16 8 _ rfl (by omega), List.drop_zero, List.getD_eq_getElem?_getD,
            List.getElem?_eq_getElem hlt, Option.bind_some, Option.getD_some]
          cases hfrom : RecordType.fromU8 body[16] with
          | none => rfl
          | some recType =>
            dsimp only
            rw [slice?_of_le ⟨by omega, le_refl _⟩, Option.bind_some, List.take_length]
            rfl

/-! ## A bijection onto its image -/

/-- Records and their encodings are one to one, and nothing else decodes. -/
structure ExactCodec (crc : Bytes → UInt32) : Prop where
  /-- A record is read back, whatever follows it. -/
  readBack : ∀ r : WalRecord, r.payload.length + 17 < 2 ^ 32 → ∀ s : Bytes,
    decode crc (r.encode crc ++ s) = .ok (r, (r.encode crc).length)
  /-- What ends before its encoding does is truncated. -/
  truncated : ∀ r : WalRecord, r.payload.length + 17 < 2 ^ 32 → ∀ p : Bytes,
    p <+: r.encode crc → p ≠ r.encode crc → ∃ offset, decode crc p = .error (.truncated offset)
  /-- What decodes starts with the encoding of the record. -/
  canonical : ∀ (b : Bytes) (r : WalRecord) (n : Nat),
    decode crc b = .ok (r, n) → n ≤ b.length ∧ r.encode crc = b.take n
  /-- No byte string makes a slice or an index panic. -/
  inRange : ∀ b : Bytes, decode? crc b = some (decode crc b)

theorem fits_of_lt (h : r.payload.length + 17 < 2 ^ 32) : r.Fits := by
  unfold WalRecord.Fits
  omega

/-- The record codec is exact, whatever the checksum. -/
theorem record_exactCodec (crc : Bytes → UInt32) : ExactCodec crc where
  readBack _ h s := Exchange.decode_encode (fits_of_lt h) s
  truncated r h p hp hne := by
    obtain ⟨s, hs⟩ := hp
    have hlt : p.length < (r.encode crc).length := by
      rw [← hs, List.length_append]
      have hrest : s ≠ [] := by
        rintro rfl
        exact hne (by rw [← hs, List.append_nil])
      have := List.length_pos_iff.2 hrest
      omega
    obtain ⟨e, he, htorn⟩ := Exchange.decode_take (fits_of_lt h) hlt
    have hp : (r.encode crc).take p.length = p := by rw [← hs, List.take_left]
    rw [hp] at he
    cases e with
    | truncated offset => exact ⟨offset, he⟩
    | io => cases htorn
    | crc expected actual => cases htorn
    | serialise message => cases htorn
  canonical _ _ _ h := encode_of_decode h
  inRange := decode?_eq

end Exchange
