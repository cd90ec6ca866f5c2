import Exchange.Protocol.Binary

/-!
# The outbound stream

No length stands in front of an outbound message: how long it is follows from its tag.
`decodeOutbound` reads one message off the front of a stream, as a client would, and finds
the message that was encoded and where it ends.
-/

namespace Exchange

open ByteReader LittleEndian

/-- The bytes of one message. -/
def OutboundMsg.word (m : OutboundMsg) : List UInt8 := encodeOutbound m []

theorem encodeOutbound_eq (m : OutboundMsg) (buf : List UInt8) :
    encodeOutbound m buf = buf ++ m.word := by
  cases m <;> simp [OutboundMsg.word, encodeOutbound, putU8, putU64Le, putI64Le]

/-- Successive calls concatenate the messages. -/
theorem foldl_encodeOutbound (ms : List OutboundMsg) (buf : List UInt8) :
    ms.foldl (fun buf m => encodeOutbound m buf) buf = buf ++ ms.flatMap (·.word) := by
  induction ms generalizing buf with
  | nil => simp
  | cons m ms ih =>
    rw [List.foldl_cons, ih, encodeOutbound_eq, List.append_assoc, List.flatMap_cons]

/-! ## The other end -/

/-- One message off the front of the stream. -/
def decodeOutbound : Reader ProtoError OutboundMsg := do
  let tag ← getU8
  if tag = tagAck then
    return .ack (← getU64Le) (← getU64Le) (← getU8)
  else if tag = tagReject then
    return .reject (← getU64Le) (← getU64Le) (← getU8)
  else if tag = tagFill then
    return .fill (← getU64Le) (← getU64Le) (← getI64Le) (← getU64Le) (← getU64Le) ((← getU8) = 1)
  else if tag = tagCancelled then
    return .cancelled (← getU64Le) (← getU64Le)
  else if tag = tagReplaced then
    return .replaced (← getU64Le) (← getU64Le)
  else throw (.unknownTag tag)

/-- The tags are told apart. -/
theorem tags_nodup : [tagAck, tagReject, tagFill, tagCancelled, tagReplaced].Nodup := by decide

theorem toUInt8_eq_one {b : Bool} : b.toUInt8 = 1 ↔ b = true := by
  cases b <;> decide

/-- A message is read back whatever follows it. -/
theorem decodeOutbound_word (m : OutboundMsg) (rest : List UInt8) :
    decodeOutbound.run (m.word ++ rest) = some (.ok m, rest) := by
  have htags := tags_nodup
  simp only [List.nodup_cons, List.mem_cons, List.not_mem_nil, not_or] at htags
  cases m <;>
    simp [decodeOutbound, OutboundMsg.word, encodeOutbound, putU8, putU64Le, putI64Le,
      Reader.run_bind, Reader.run_map, toUInt8_eq_one, Ne.symm, htags]

theorem word_ne_nil (m : OutboundMsg) : m.word ≠ [] := by
  cases m <;> simp [OutboundMsg.word, encodeOutbound, putU8, putU64Le, putI64Le]

/-! ## The stream -/

/-- **The outbound stream is uniquely decodable.** Lists of messages that are encoded into
an empty buffer with the same bytes are the same. -/
theorem encodeOutbound_unique {ms ms' : List OutboundMsg}
    (h : ms.foldl (fun buf m => encodeOutbound m buf) [] =
      ms'.foldl (fun buf m => encodeOutbound m buf) []) : ms = ms' := by
  rw [foldl_encodeOutbound, foldl_encodeOutbound, List.nil_append, List.nil_append] at h
  exact Reader.flatMap_injective decodeOutbound_word word_ne_nil h

/-- A message encoded behind another one, and the two encoded at once. -/
theorem encodeOutbound_unique_sample :
    encodeOutbound (.cancelled 1 3) (encodeOutbound (.ack 1 2 0) []) =
        [65, 1, 0, 0, 0, 0, 0, 0, 0, 2, 0, 0, 0, 0, 0, 0, 0, 0,
          88, 1, 0, 0, 0, 0, 0, 0, 0, 3, 0, 0, 0, 0, 0, 0, 0] ∧
      [OutboundMsg.ack 1 2 0] ++ [.cancelled 1 3] = [.ack 1 2 0, .cancelled 1 3] :=
  ⟨by decide, encodeOutbound_unique (by decide)⟩

end Exchange
