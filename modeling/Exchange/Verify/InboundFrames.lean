import Exchange.Protocol.Binary

/-!
# Inbound frames

A decoder first checks how many bytes are left, then reads fields of fixed width. The
checks are the sums of the widths, so each decoder is exact for one frame layout and reads
no byte that is not there.
-/

namespace Exchange

open ByteReader LittleEndian

/-! ## Layouts -/

def Side.toU8 : Side → UInt8
  | .buy => 0
  | .sell => 1

def OrderType.toU8 : OrderType → UInt8
  | .limit => 0
  | .market => 1
  | .ioc => 2
  | .fok => 3
  | .stopMarket => 4
  | .stopLimit => 5

def TimeInForce.toU8 : TimeInForce → UInt8
  | .gtc => 0
  | .day => 1

def BinNewOrder.body (m : BinNewOrder) : List UInt8 :=
  toBytes 8 m.orderId.toNat ++ toBytes 4 m.symbolId.toNat ++
    [m.side.toU8, m.orderType.toU8, m.tif.toU8] ++ toBytes 8 m.price.toUInt64.toNat ++
    toBytes 8 m.stopPrice.toUInt64.toNat ++ toBytes 8 m.qty.toNat

def BinCancel.body (m : BinCancel) : List UInt8 :=
  toBytes 8 m.orderId.toNat ++ toBytes 4 m.symbolId.toNat

def BinReplace.body (m : BinReplace) : List UInt8 :=
  toBytes 8 m.orderId.toNat ++ toBytes 4 m.symbolId.toNat ++
    toBytes 8 m.newPrice.toUInt64.toNat ++ toBytes 8 m.newQty.toNat

/-- The bytes of a message: its tag and its fields, little-endian. -/
def InboundMsg.frame : InboundMsg → List UInt8
  | .newOrder m => tagNewOrder :: m.body
  | .cancel m => tagCancel :: m.body
  | .replace m => tagReplace :: m.body

/-! ## Codes -/

theorem decodeSide_eq_ok {b : UInt8} {side : Side} : decodeSide b = .ok side ↔ b = side.toU8 := by
  unfold decodeSide
  cases side <;> grind [Side.toU8]

theorem decodeOrderType_eq_ok {b : UInt8} {kind : OrderType} :
    decodeOrderType b = .ok kind ↔ b = kind.toU8 := by
  unfold decodeOrderType
  cases kind <;> grind [OrderType.toU8]

theorem decodeTif_eq_ok {b : UInt8} {tif : TimeInForce} :
    decodeTif b = .ok tif ↔ b = tif.toU8 := by
  unfold decodeTif
  cases tif <;> grind [TimeInForce.toU8]

theorem decodeSide_error {b : UInt8} {e : ProtoError} (h : decodeSide b = .error e) :
    e = .badField "side" := by
  unfold decodeSide at h
  grind

theorem decodeOrderType_error {b : UInt8} {e : ProtoError} (h : decodeOrderType b = .error e) :
    e = .badField "order_type" := by
  unfold decodeOrderType at h
  grind

theorem decodeTif_error {b : UInt8} {e : ProtoError} (h : decodeTif b = .error e) :
    e = .badField "tif" := by
  unfold decodeTif at h
  grind

/-! ## The decoders -/

theorem guarded_decodeCancel :
    Guarded decodeCancel 12 (fun m bs => m.frame = tagCancel :: bs) .truncated := by
  refine Exact.guarded ?_ ?_
  · refine (exact_getU64Le.bind fun orderId => exact_getU32Le.bind fun symbolId =>
      Exact.pure (InboundMsg.cancel { orderId, symbolId })).congr fun m bs => ?_
    simp only [Format.andThen_encoded]
    constructor
    · rintro ⟨orderId, _, ⟨symbolId, _, ⟨rfl, rfl⟩, rfl⟩, rfl⟩
      simp [InboundMsg.frame, BinCancel.body]
    · intro h
      cases m with
      | cancel m =>
        obtain ⟨-, rfl⟩ := List.cons.inj h
        exact ⟨_, _, ⟨_, _, ⟨rfl, rfl⟩, rfl⟩, by simp [BinCancel.body]⟩
      | newOrder m => exact absurd (List.cons.inj h).1 (by decide)
      | replace m => exact absurd (List.cons.inj h).1 (by decide)
  · exact .bind .getU64Le fun _ => .bind .getU32Le fun _ => .pure _

theorem guarded_decodeReplace :
    Guarded decodeReplace 28 (fun m bs => m.frame = tagReplace :: bs) .truncated := by
  refine Exact.guarded ?_ ?_
  · refine (exact_getU64Le.bind fun orderId => exact_getU32Le.bind fun symbolId =>
      exact_getI64Le.bind fun newPrice => exact_getU64Le.bind fun newQty =>
      Exact.pure (InboundMsg.replace { orderId, symbolId, newPrice, newQty })).congr
      fun m bs => ?_
    simp only [Format.andThen_encoded]
    constructor
    · rintro ⟨orderId, _, ⟨symbolId, _, ⟨newPrice, _, ⟨newQty, _, ⟨rfl, rfl⟩, rfl⟩, rfl⟩, rfl⟩, rfl⟩
      simp [InboundMsg.frame, BinReplace.body]
    · intro h
      cases m with
      | replace m =>
        obtain ⟨-, rfl⟩ := List.cons.inj h
        exact ⟨_, _, ⟨_, _, ⟨_, _, ⟨_, _, ⟨rfl, rfl⟩, rfl⟩, rfl⟩, rfl⟩, by simp [BinReplace.body]⟩
      | newOrder m => exact absurd (List.cons.inj h).1 (by decide)
      | cancel m => exact absurd (List.cons.inj h).1 (by decide)
  · exact .bind .getU64Le fun _ => .bind .getU32Le fun _ => .bind .getI64Le fun _ =>
      .bind .getU64Le fun _ => .pure _

theorem guarded_decodeNewOrder :
    Guarded decodeNewOrder 39 (fun m bs => m.frame = tagNewOrder :: bs) .truncated := by
  refine Exact.guarded ?_ ?_
  · refine (exact_getU64Le.bind fun orderId => exact_getU32Le.bind fun symbolId =>
      exact_getU8.bind fun b₁ => (Exact.lift (decodeSide b₁)).bind fun side =>
      exact_getU8.bind fun b₂ => (Exact.lift (decodeOrderType b₂)).bind fun orderType =>
      exact_getU8.bind fun b₃ => (Exact.lift (decodeTif b₃)).bind fun tif =>
      exact_getI64Le.bind fun price => exact_getI64Le.bind fun stopPrice =>
      exact_getU64Le.bind fun qty => Exact.pure (InboundMsg.newOrder
        { orderId, symbolId, side, orderType, tif, price, stopPrice, qty })).congr fun m bs => ?_
    simp only [Format.andThen_encoded, Format.andThen_result, decodeSide_eq_ok,
      decodeOrderType_eq_ok, decodeTif_eq_ok]
    constructor
    · rintro ⟨orderId, _, ⟨symbolId, _, ⟨_, _, ⟨side, rfl, _, _, ⟨orderType, rfl, _, _,
        ⟨tif, rfl, price, _, ⟨stopPrice, _, ⟨qty, _, ⟨rfl, rfl⟩, rfl⟩, rfl⟩, rfl⟩, rfl⟩, rfl⟩,
        rfl⟩, rfl⟩, rfl⟩
      simp [InboundMsg.frame, BinNewOrder.body]
    · intro h
      cases m with
      | newOrder m =>
        obtain ⟨-, rfl⟩ := List.cons.inj h
        exact ⟨_, _, ⟨_, _, ⟨_, _, ⟨_, rfl, _, _, ⟨_, rfl, _, _, ⟨_, rfl, _, _, ⟨_, _,
          ⟨_, _, ⟨rfl, rfl⟩, rfl⟩, rfl⟩, rfl⟩, rfl⟩, rfl⟩, rfl⟩, rfl⟩, by simp [BinNewOrder.body]⟩
      | cancel m => exact absurd (List.cons.inj h).1 (by decide)
      | replace m => exact absurd (List.cons.inj h).1 (by decide)
  · exact .bind .getU64Le fun _ => .bind .getU32Le fun _ =>
      .bind .getU8 fun _ => .bind (.lift fun e h => by simp [decodeSide_error h]) fun _ =>
      .bind .getU8 fun _ => .bind (.lift fun e h => by simp [decodeOrderType_error h]) fun _ =>
      .bind .getU8 fun _ => .bind (.lift fun e h => by simp [decodeTif_error h]) fun _ =>
      .bind .getI64Le fun _ => .bind .getI64Le fun _ => .bind .getU64Le fun _ => .pure _

/-! ## One message -/

/-- What `decode_inbound` goes on with after a tag. -/
def decoderOf (tag : UInt8) : Reader ProtoError InboundMsg :=
  if tag = tagNewOrder then decodeNewOrder
  else if tag = tagCancel then decodeCancel
  else if tag = tagReplace then decodeReplace
  else throw (.unknownTag tag)

theorem run_decodeInbound_nil : decodeInbound.run [] = some (.error .truncated, []) := rfl

theorem run_decodeInbound_cons (tag : UInt8) (b : List UInt8) :
    decodeInbound.run (tag :: b) = (decoderOf tag).run b := by
  have htag : (getU8 : Reader ProtoError UInt8).run (tag :: b) = some (.ok tag, b) :=
    exact_getU8.reads rfl b
  change (getU8 >>= decoderOf).run (tag :: b) = _
  rw [Reader.run_bind, htag]

/-- A tag is that of one exact decoder, or of no frame. -/
theorem decoderOf_cases (tag : UInt8) :
    (∃ width, Guarded (decoderOf tag) width (fun m bs => m.frame = tag :: bs) .truncated) ∨
      (decoderOf tag = throw (.unknownTag tag) ∧ ∀ m bs, InboundMsg.frame m ≠ tag :: bs) := by
  unfold decoderOf
  split
  · next h =>
    subst h
    exact .inl ⟨39, guarded_decodeNewOrder⟩
  · next hn =>
    split
    · next h =>
      subst h
      exact .inl ⟨12, guarded_decodeCancel⟩
    · next hc =>
      split
      · next h =>
        subst h
        exact .inl ⟨28, guarded_decodeReplace⟩
      · next hr =>
        refine .inr ⟨rfl, fun m bs h => ?_⟩
        cases m with
        | newOrder m => exact hn (List.cons.inj h).1.symm
        | cancel m => exact hc (List.cons.inj h).1.symm
        | replace m => exact hr (List.cons.inj h).1.symm

theorem reads_frame (m : InboundMsg) (rest : List UInt8) :
    decodeInbound.run (m.frame ++ rest) = some (.ok m, rest) := by
  obtain ⟨tag, bs, hframe⟩ : ∃ tag bs, m.frame = tag :: bs := by
    cases m with
    | newOrder m => exact ⟨_, _, rfl⟩
    | cancel m => exact ⟨_, _, rfl⟩
    | replace m => exact ⟨_, _, rfl⟩
  rw [hframe, List.cons_append, run_decodeInbound_cons]
  rcases decoderOf_cases tag with ⟨width, hg⟩ | ⟨-, hnone⟩
  · exact hg.reads hframe rest
  · exact absurd hframe (hnone m bs)

theorem accepts_frame {b left : List UInt8} {m : InboundMsg}
    (h : decodeInbound.run b = some (.ok m, left)) : b = m.frame ++ left := by
  cases b with
  | nil =>
    rw [run_decodeInbound_nil] at h
    cases h
  | cons tag b =>
    rw [run_decodeInbound_cons] at h
    rcases decoderOf_cases tag with ⟨width, hg⟩ | ⟨hthrow, -⟩
    · obtain ⟨bs, hframe, rfl⟩ := hg.accepts h
      rw [show m.frame = tag :: bs from hframe]
      rfl
    · rw [hthrow] at h
      cases h

/-- On a buffer that is too short the tag is gone, and nothing else. -/
theorem left_of_truncated {b left : List UInt8}
    (h : decodeInbound.run b = some (.error .truncated, left)) : left = b.tail := by
  cases b with
  | nil =>
    cases h
    rfl
  | cons tag b =>
    rw [run_decodeInbound_cons] at h
    rcases decoderOf_cases tag with ⟨width, hg⟩ | ⟨hthrow, -⟩
    · exact (hg.short.1 h).2
    · rw [hthrow] at h
      cases h

theorem truncated_of_cut {m : InboundMsg} {p : List UInt8} (hp : p <+: m.frame)
    (hne : p ≠ m.frame) : decodeInbound.run p = some (.error .truncated, p.tail) := by
  cases p with
  | nil => rfl
  | cons tag p =>
    obtain ⟨rest, hrest⟩ := hp
    have hframe : m.frame = tag :: (p ++ rest) := hrest.symm
    rw [run_decodeInbound_cons]
    rcases decoderOf_cases tag with ⟨width, hg⟩ | ⟨-, hnone⟩
    · refine hg.short.2 ⟨?_, rfl⟩
      have hlen := hg.length hframe
      have hne : rest ≠ [] := fun e => hne (by rw [hframe, e, List.append_nil])
      have hpos := List.length_pos_iff.2 hne
      rw [List.length_append] at hlen
      omega
    · exact absurd hframe (hnone m _)

theorem isSome_decodeInbound (b : List UInt8) : (decodeInbound.run b).isSome := by
  cases b with
  | nil => rfl
  | cons tag b =>
    rw [run_decodeInbound_cons]
    rcases decoderOf_cases tag with ⟨width, hg⟩ | ⟨hthrow, -⟩
    · exact hg.safe b
    · rw [hthrow]
      rfl

/-! ## All messages -/

/-- A decoder accepts exactly the frames. -/
structure DecodesFrames (decode : Reader ProtoError InboundMsg) : Prop where
  sizes : ∀ m : InboundMsg, m.frame.length =
    match m with
    | .newOrder _ => 40
    | .cancel _ => 13
    | .replace _ => 29
  stream : ∀ ms : List InboundMsg,
    decode.runTimes ms.length (ms.flatMap (·.frame)) = some (ms.map .ok, [])
  cut : ∀ (m : InboundMsg) p, p <+: m.frame → p ≠ m.frame →
    ∃ left, decode.run p = some (.error .truncated, left)
  consumed : ∀ b m left, decode.run b = some (.ok m, left) → b = m.frame ++ left
  other : ∀ b, (∀ (m : InboundMsg) rest, b ≠ m.frame ++ rest) →
    ∃ e left, decode.run b = some (.error e, left)
  safe : ∀ b, (decode.run b).isSome

/-- **Inbound frames.** `decode_inbound` decodes the frames and nothing else. -/
theorem decodeInbound_frames : DecodesFrames decodeInbound where
  sizes := by
    intro m
    cases m with
    | newOrder m => simp [InboundMsg.frame, BinNewOrder.body]
    | cancel m => simp [InboundMsg.frame, BinCancel.body]
    | replace m => simp [InboundMsg.frame, BinReplace.body]
  stream := by
    intro ms
    simpa using Reader.runTimes_flatMap reads_frame ms []
  cut := fun m p hp hne => ⟨p.tail, truncated_of_cut hp hne⟩
  consumed := fun b m left h => accepts_frame h
  other := by
    intro b hb
    obtain ⟨⟨x, left⟩, hrun⟩ := Option.isSome_iff_exists.1 (isSome_decodeInbound b)
    cases x with
    | error e => exact ⟨e, left, hrun⟩
    | ok m => exact absurd (accepts_frame hrun) (hb m left)
  safe := isSome_decodeInbound

/-! ## Truncated frames -/

/-- What is left after a truncated frame can be completed only when there was nothing at
all: otherwise its tag is lost. -/
theorem decodeInbound_completed_iff {b left : List UInt8}
    (h : decodeInbound.run b = some (.error .truncated, left)) :
    (left = b ∧ ∀ c m rest, decodeInbound.run (b ++ c) = some (.ok m, rest) →
        decodeInbound.run (left ++ c) = some (.ok m, rest)) ↔
      b = [] := by
  rw [left_of_truncated h]
  constructor
  · rintro ⟨htail, -⟩
    cases b with
    | nil => rfl
    | cons tag b => exact absurd htail.symm (List.cons_ne_self tag b)
  · rintro rfl
    exact ⟨rfl, fun _ _ _ h => h⟩

/-- A replace that is cut inside its order id. -/
theorem decodeInbound_completed_iff_sample :
    decodeInbound.run [tagReplace, 7, 0] = some (.error .truncated, [7, 0]) ∧
      ¬([7, 0] = [tagReplace, 7, 0] ∧
        ∀ c m rest, decodeInbound.run ([tagReplace, 7, 0] ++ c) = some (.ok m, rest) →
          decodeInbound.run ([7, 0] ++ c) = some (.ok m, rest)) :=
  ⟨rfl, fun h => nomatch (decodeInbound_completed_iff (b := [tagReplace, 7, 0]) rfl).1 h⟩

/-- The cancel of order 0 arrives in two parts, cut after its tag. -/
theorem cancel_cut_after_tag :
    decodeInbound.run ([tagCancel] ++ List.replicate 12 0) = some (.ok (.cancel ⟨0, 0⟩), []) ∧
      decodeInbound.run [tagCancel] = some (.error .truncated, []) ∧
      decodeInbound.run ([] ++ List.replicate 12 0) =
        some (.error (.unknownTag 0), List.replicate 11 0) ∧
      ¬∀ b left, decodeInbound.run b = some (.error .truncated, left) →
        left = b ∧ ∀ c m rest, decodeInbound.run (b ++ c) = some (.ok m, rest) →
          decodeInbound.run (left ++ c) = some (.ok m, rest) :=
  ⟨rfl, rfl, rfl, fun h => nomatch (h [tagCancel] [] rfl).1⟩

end Exchange
