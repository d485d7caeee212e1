import SystemsStack.Sbe.Decode

/-!
# Round trips of the tick codec

`encode_tick` writes the message of the wire format into the first thirty-two bytes of a
destination that has room for it, and nothing else (`SystemsStack.Sbe.encodeTick_of_le`). With
what `decode_tick` does (`SystemsStack.Sbe.decodeTick_of_le`), encoding and decoding are inverse
to each other on the messages with the header of the schema, on hosts of either byte order.

## Main results

* `SystemsStack.Sbe.encodeTick_of_short`, `SystemsStack.Sbe.encodeTick_of_le`.
* `SystemsStack.Sbe.tickCodec_bijection`.

## References

* `include/ll/sbe_codec.hpp`, lines 28–64; `tests/test_roadmap_stack.cpp`, lines 22–41.
-/

namespace SystemsStack.Sbe

open Core

variable {order : ByteOrder} {dst : Span} {v : TickValues}

/-! ### What `encode_tick` writes -/

/-- A destination that is too short is left alone. -/
theorem encodeTick_of_short (h : dst.bytes.length < 32) (mem : List UInt8) :
    (encodeTick order dst v).run mem = (.ok 0, mem) := by
  rw [encodeTick, if_pos ((size_lt_iff _).mpr h)]
  rfl

/-- A setter that writes the next field, and what follows it. -/
theorem setField_bind_run {mem a : List UInt8} {p n value : ℕ} {β : Type}
    (f : Unit → Effect (List UInt8) β) (ha : a.length = p) (h : p + n ≤ mem.length) :
    (setField order p n value >>= f).run (a ++ mem.drop p) =
      (f ()).run ((a ++ leBytes n value) ++ mem.drop (p + n)) :=
  Effect.run_bind_ok (setField_append a ha h)

/-- The header is written, and the tick wrapped behind it. -/
theorem wrapAndApplyHeader_run (order : ByteOrder) (h : 32 ≤ dst.bytes.length) :
    ∃ tick : Tick, tick.offset = 8 ∧ (Tick.wrapAndApplyHeader order 0 dst.size).run dst.bytes =
      (.ok tick, wireHeader ++ dst.bytes.drop 8) := by
  have hlen (k : ℕ) (hk : k ≤ 32) : k ≤ dst.bytes.length := Nat.le_trans hk h
  let tick : Tick :=
    { bufferLength := dst.size
      offset := 0 + MessageHeader.encodedLength
      position := 0 + MessageHeader.encodedLength + Tick.sbeBlockLength.toUInt64
      actingBlockLength := Tick.sbeBlockLength.toUInt64
      actingVersion := Tick.sbeSchemaVersion.toUInt64 }
  have hcheck : ¬tick.position > dst.size := by
    rw [gt_iff_lt, size_lt_iff]
    exact Nat.not_lt.mpr h
  have hposition : Tick.sbeCheckPosition dst.size tick.position = .ok tick.position :=
    if_neg hcheck
  refine ⟨tick, rfl, ?_⟩
  rw [Tick.wrapAndApplyHeader, create_zero (hlen 8 (by decide)), Effect.run_bind_lift_ok]
  refine (setField_bind_run (p := 0) (n := 2) (a := []) _ rfl (hlen 2 (by decide))).trans ?_
  refine (setField_bind_run (p := 2) (n := 2) _ rfl (hlen 4 (by decide))).trans ?_
  refine (setField_bind_run (p := 4) (n := 2) _ rfl (hlen 6 (by decide))).trans ?_
  refine (setField_bind_run (p := 6) (n := 2) _ rfl (hlen 8 (by decide))).trans ?_
  exact Effect.run_bind_ok (congrArg (fun e => (e, _)) hposition)

/-- The message is written into the first thirty-two bytes of a destination that has room. -/
theorem encodeTick_of_le (h : 32 ≤ dst.bytes.length) :
    (encodeTick order dst v).run dst.bytes = (.ok 32, wireMessage v ++ dst.bytes.drop 32) := by
  have hlen (k : ℕ) (hk : k ≤ 32) : k ≤ dst.bytes.length := Nat.le_trans hk h
  obtain ⟨tick, hoff, hheader⟩ := wrapAndApplyHeader_run order h
  have hsize : ¬dst.size < kTickWireBytes := fun hlt =>
    absurd h (Nat.not_le.mpr ((size_lt_iff _).mp hlt))
  rw [encodeTick, if_neg hsize, Effect.run_bind_ok hheader, Tick.setInstrumentId,
    Tick.setPriceTicks, Tick.setQty, Tick.setSeq, Tick.setTsNs, hoff]
  refine (setField_bind_run (p := 8) (n := 4) _ (by simp) (hlen 12 (by decide))).trans ?_
  refine (setField_bind_run (p := 12) (n := 4) _ (by simp) (hlen 16 (by decide))).trans ?_
  refine (setField_bind_run (p := 16) (n := 4) _ (by simp) (hlen 20 (by decide))).trans ?_
  refine (setField_bind_run (p := 20) (n := 4) _ (by simp) (hlen 24 (by decide))).trans ?_
  refine (setField_bind_run (p := 24) (n := 8) _ (by simp) (hlen 32 (by decide))).trans ?_
  rw [Effect.run_pure, wireMessage, wireBody]
  simp only [List.append_assoc]
  rfl

/-! ### Round trips -/

/-- The values of a message, and of every span that starts with it. -/
theorem decodeTick_wireMessage {src : Span} {rest : List UInt8}
    (hsrc : src.bytes = wireMessage v ++ rest) (out : TickValues) :
    (decodeTick order src).run out = (.ok true, v) := by
  have hfield (p : ℕ) (hp : p + 2 ≤ 8) :
      wireField src.bytes p 2 = wireField wireHeader p 2 := by
    rw [wireField, wireField, hsrc, wireMessage, List.append_assoc,
      List.drop_append_of_le_length (by rw [length_wireHeader]; omega),
      List.take_append_of_le_length (by rw [List.length_drop, length_wireHeader]; omega)]
  have hlen : 32 ≤ src.bytes.length := by
    rw [hsrc, List.length_append, length_wireMessage]
    exact Nat.le_add_right _ _
  have hid : IsTickHeader src.bytes := by
    rw [IsTickHeader, wireSchemaId, wireTemplateId, hfield 4 (by decide), hfield 2 (by decide)]
    decide
  have hblock : wireBlockLength src.bytes = 24 := hfield 0 (by decide)
  rw [decodeTick_of_le order out hid (by rw [hblock]; exact hlen) hlen, hsrc, wireTick_wireMessage]

/-- **The codec is a bijection on canonical messages.** Encoding into thirty-two bytes or more
writes thirty-two and changes no other, and every span of the result that starts with them
decodes to the values; a shorter destination is left alone; and a message of thirty-two bytes
with the header of the schema is decoded, and encoded back. The hosts that encode and decode may
differ in their byte order. -/
theorem tickCodec_bijection (order order' : ByteOrder) :
    (∀ (v : TickValues) (dst : Span), 32 ≤ dst.bytes.length → ∃ bytes,
      (encodeTick order dst v).run dst.bytes = (.ok 32, bytes) ∧
      bytes.length = dst.bytes.length ∧ bytes.drop 32 = dst.bytes.drop 32 ∧
      ∀ (src : Span) (out : TickValues), src.bytes <+: bytes → 32 ≤ src.bytes.length →
        (decodeTick order' src).run out = (.ok true, v)) ∧
    (∀ (v : TickValues) (dst : Span), dst.bytes.length < 32 →
      (encodeTick order dst v).run dst.bytes = (.ok 0, dst.bytes)) ∧
    ∀ src : Span, src.bytes.length = 32 → wireBlockLength src.bytes = 24 →
      wireTemplateId src.bytes = 1 → wireSchemaId src.bytes = 77 → wireVersion src.bytes = 0 →
      ∃ v, (∀ out, (decodeTick order' src).run out = (.ok true, v)) ∧
        ∀ dst : Span, dst.bytes.length = 32 →
          (encodeTick order dst v).run dst.bytes = (.ok 32, src.bytes) := by
  refine ⟨fun v dst h => ?_, fun v dst h => encodeTick_of_short h _,
    fun src h hblock htemplate hschema hversion => ?_⟩
  · refine ⟨_, encodeTick_of_le h, ?_, ?_, fun src out hpre hlen => ?_⟩
    · rw [List.length_append, length_wireMessage, List.length_drop]
      omega
    · exact List.drop_left' (length_wireMessage v)
    · -- a prefix of at least thirty-two bytes starts with the message
      obtain ⟨rest, hrest⟩ := List.prefix_of_prefix_length_le (List.prefix_append _ _) hpre
        (by rw [length_wireMessage]; exact hlen)
      exact decodeTick_wireMessage hrest.symm out
  · have hle : 32 ≤ src.bytes.length := Nat.le_of_eq h.symm
    have hdecode (out : TickValues) := decodeTick_of_le order' out
      ⟨hschema, htemplate⟩ (by rw [hblock]; exact hle) hle
    refine ⟨_, hdecode, fun dst hdst => ?_⟩
    have hwire := wireMessage_wireTick hle hblock htemplate hschema hversion
    rw [List.drop_eq_nil_of_le (Nat.le_of_eq h), List.append_nil] at hwire
    rw [encodeTick_of_le (Nat.le_of_eq hdst.symm), List.drop_eq_nil_of_le (Nat.le_of_eq hdst),
      List.append_nil, hwire]

/-- A destination of forty bytes that are all set. -/
def setBuffer : Span where
  bytes := List.replicate 40 255
  length_lt := by decide

/-- Extreme values: the greatest identifier, the least price and the greatest time. -/
def extremeTick : TickValues where
  instrumentId := 0xffffffff
  priceTicks := -2147483648
  tsNs := 0xffffffffffffffff

/-- A message with the header of the schema and a zero body. -/
def zeroMessage : Span where
  bytes := wireMessage {}
  length_lt := by decide

/-- The codec on extreme values between hosts of different byte order, on a destination that is
too short, and on a canonical message. -/
theorem tickCodec_bijection_extremeTick :
    (∃ bytes, (encodeTick .big setBuffer extremeTick).run setBuffer.bytes = (.ok 32, bytes) ∧
      bytes.drop 32 = List.replicate 8 255) ∧
    (encodeTick .big cutMessage extremeTick).run cutMessage.bytes = (.ok 0, cutMessage.bytes) ∧
    ∃ v, (∀ out, (decodeTick .little zeroMessage).run out = (.ok true, v)) ∧
      (encodeTick .big zeroMessage v).run zeroMessage.bytes = (.ok 32, zeroMessage.bytes) := by
  obtain ⟨hencode, hshort, hconverse⟩ := tickCodec_bijection .big .little
  obtain ⟨bytes, hrun, -, hframe, -⟩ := hencode extremeTick setBuffer (by decide)
  obtain ⟨v, hdecode, hback⟩ :=
    hconverse zeroMessage (by decide) (by decide) (by decide) (by decide) (by decide)
  exact ⟨⟨bytes, hrun, hframe⟩, hshort extremeTick cutMessage (by decide), v, hdecode,
    hback zeroMessage (by decide)⟩

end SystemsStack.Sbe
