import SystemsStack.Sbe.Compatibility
import SystemsStack.Sbe.RoundTrip

/-!
# The packed tick message

`ll::sbe::TickMsg` is a packed structure of four words. It is encoded by a copy of its object
representation, and decoded by such a copy or by reading its members through a pointer into the
buffer. This file embeds the three functions. Unlike the generated flyweights they do not put a word
into little-endian order, so that the layout they agree on is that of a little-endian host: the
sixteen bytes are those of the same fields behind the header of a message of the generated codec
(`SystemsStack.Sbe.tickCodecs_agree`).

Source: `include/ll/sbe_style.hpp`, lines 18–55.

## Main definitions

* `SystemsStack.Sbe.TickMsg`, with `representation` and `ofRepresentation`.
* `SystemsStack.Sbe.encode`, `SystemsStack.Sbe.decodeView`, `SystemsStack.Sbe.decodeCopy`.

## Main results

* `SystemsStack.Sbe.decodeView_eq_decodeCopy`: the two ways to decode agree on every host.
* `SystemsStack.Sbe.tickCodecs_agree`.

## References

* `include/ll/sbe_codec.hpp`, lines 28–64; `tests/test_roadmap_stack.cpp`, lines 54–61.
-/

namespace SystemsStack.Sbe

open Core

/-! ### The structure -/

/-- The packed structure. -/
structure TickMsg where
  instrumentId : UInt32
  priceTicks : Int32
  qty : UInt32
  seq : UInt32
  deriving DecidableEq, Repr

namespace TickMsg

/-- `sizeof(TickMsg)`. -/
def size : UInt64 := 16

/-- The bytes of the structure in the memory of the host: its members in their order, without
padding. -/
def representation (order : ByteOrder) (msg : TickMsg) : List UInt8 :=
  nativeBytes order 4 msg.instrumentId.toNat ++
    (nativeBytes order 4 msg.priceTicks.toUInt32.toNat ++
      (nativeBytes order 4 msg.qty.toNat ++ nativeBytes order 4 msg.seq.toNat))

/-- The structure whose bytes these are. -/
def ofRepresentation (order : ByteOrder) (bytes : List UInt8) : TickMsg where
  instrumentId := .ofNat (nativeValue order (bytes.take 4))
  priceTicks := (UInt32.ofNat (nativeValue order ((bytes.drop 4).take 4))).toInt32
  qty := .ofNat (nativeValue order ((bytes.drop 8).take 4))
  seq := .ofNat (nativeValue order ((bytes.drop 12).take 4))

/-- The values of a tick with the fields of the structure. -/
def toTickValues (msg : TickMsg) (tsNs : UInt64) : TickValues where
  instrumentId := msg.instrumentId
  priceTicks := msg.priceTicks
  qty := msg.qty
  seq := msg.seq
  tsNs := tsNs

end TickMsg

/-- The fields that a tick shares with the structure. -/
def TickValues.toTickMsg (v : TickValues) : TickMsg where
  instrumentId := v.instrumentId
  priceTicks := v.priceTicks
  qty := v.qty
  seq := v.seq

/-! ### Encoding and decoding -/

/-- Copy the structure into the buffer `dst`. -/
def encode (order : ByteOrder) (dst : Span) (msg : TickMsg) : Effect (List UInt8) Bool := fun mem =>
  if dst.size < TickMsg.size then
    (.ok false, mem)
  else
    match writeBytes mem 0 (msg.representation order) with
    | .ok mem' => (.ok true, mem')
    | .error p => (.error (.outOfBounds p), mem)

/-- A pointer to a structure at the start of a buffer. -/
structure View where
  src : Span

/-- A pointer to the structure in the buffer `src`, or null. -/
def decodeView (src : Span) : Option View :=
  if src.size < TickMsg.size then none else some ⟨src⟩

/-- Read the word at a distance from a pointer. -/
def View.word (order : ByteOrder) (view : View) (distance : ℕ) : Except Fault UInt32 :=
  match readBytes view.src.bytes distance 4 with
  | .ok bs => .ok (.ofNat (nativeValue order bs))
  | .error p => .error (.outOfBounds p)

/-- Read the members through a pointer, one after the other. -/
def View.read (order : ByteOrder) (view : View) : Except Fault TickMsg := do
  let instrumentId ← view.word order 0
  let priceTicks ← view.word order 4
  let qty ← view.word order 8
  let seq ← view.word order 12
  return { instrumentId, priceTicks := priceTicks.toInt32, qty, seq }

/-- Copy the structure out of the buffer `src` into `out`. -/
def decodeCopy (order : ByteOrder) (src : Span) : Effect TickMsg Bool := fun out =>
  if src.size < TickMsg.size then
    (.ok false, out)
  else
    match readBytes src.bytes 0 16 with
    | .ok bs => (.ok true, .ofRepresentation order bs)
    | .error p => (.error (.outOfBounds p), out)

variable {order : ByteOrder} {src dst : Span} {msg : TickMsg}

@[simp] theorem length_nativeBytes (order : ByteOrder) (n v : ℕ) :
    (nativeBytes order n v).length = n := by
  cases order <;> simp [nativeBytes]

@[simp] theorem TickMsg.length_representation (order : ByteOrder) (msg : TickMsg) :
    (msg.representation order).length = 16 := by
  simp [TickMsg.representation]

theorem not_size_lt (h : 16 ≤ src.bytes.length) : ¬src.size < TickMsg.size := fun hlt =>
  absurd h (Nat.not_le.mpr ((size_lt_iff _).mp hlt))

/-- The structure is copied to the start of the buffer, and the rest of it stays. -/
theorem encode_of_le (h : 16 ≤ dst.bytes.length) : (encode order dst msg).run dst.bytes =
    (.ok true, msg.representation order ++ dst.bytes.drop 16) := by
  have hlen : (msg.representation order).length = 16 := msg.length_representation order
  have hwrite : writeBytes dst.bytes 0 (msg.representation order) =
      .ok (msg.representation order ++ dst.bytes.drop 16) := by
    rw [writeBytes, if_pos (by rwa [hlen, Nat.zero_add]), List.take_zero, List.nil_append, hlen]
  rw [Effect.run, encode, if_neg (not_size_lt h), hwrite]

theorem decodeView_of_le (h : 16 ≤ src.bytes.length) : decodeView src = some ⟨src⟩ :=
  if_neg (not_size_lt h)

theorem decodeCopy_of_le (h : 16 ≤ src.bytes.length) (out : TickMsg) :
    (decodeCopy order src).run out = (.ok true, .ofRepresentation order (src.bytes.take 16)) := by
  rw [Effect.run, decodeCopy, if_neg (not_size_lt h), readBytes_of_le h]
  rfl

/-- The members read through a pointer are those of the structure copied. -/
theorem View.read_of_le (h : 16 ≤ src.bytes.length) :
    View.read order ⟨src⟩ = .ok (.ofRepresentation order (src.bytes.take 16)) := by
  have hword (k : ℕ) (hk : k + 4 ≤ 16) : View.word order ⟨src⟩ k =
      .ok (.ofNat (nativeValue order (((src.bytes.take 16).drop k).take 4))) := by
    rw [View.word, readBytes_of_le (Nat.le_trans hk h), List.drop_take, List.take_take,
      Nat.min_eq_left (by omega)]
  rw [View.read, hword 0 (by decide), hword 4 (by decide), hword 8 (by decide),
    hword 12 (by decide)]
  rfl

/-- **Both ways to decode agree.** On every host and for every buffer either both fail, and nothing
is assigned, or the structure copied out is the one that the pointer points to. -/
theorem decodeView_eq_decodeCopy (order : ByteOrder) (src : Span) (out : TickMsg) :
    (decodeView src = none ∧ (decodeCopy order src).run out = (.ok false, out)) ∨
    ∃ view msg, decodeView src = some view ∧ view.read order = .ok msg ∧
      (decodeCopy order src).run out = (.ok true, msg) := by
  by_cases h : 16 ≤ src.bytes.length
  · exact .inr ⟨_, _, decodeView_of_le h, View.read_of_le h, decodeCopy_of_le h out⟩
  · have hshort : src.size < TickMsg.size := (size_lt_iff _).mpr (Nat.lt_of_not_le h)
    refine .inl ⟨if_pos hshort, ?_⟩
    rw [Effect.run, decodeCopy, if_pos hshort]

/-! ### The layout on a little-endian host -/

/-- The bytes of the structure are those of the fields of a message body. -/
theorem take_wireBody (msg : TickMsg) (tsNs : UInt64) :
    (wireBody (msg.toTickValues tsNs)).take 16 = msg.representation .little := by
  have htake : (msg.representation .little ++ leBytes 8 tsNs.toNat).take 16 =
      msg.representation .little := List.take_left' (msg.length_representation .little)
  rw [← htake]
  simp [wireBody, TickMsg.representation, TickMsg.toTickValues, nativeBytes]

/-- The structure behind a header has the fields of the message. -/
theorem ofRepresentation_wireTick (bytes : List UInt8) :
    TickMsg.ofRepresentation .little ((bytes.drop 8).take 16) = (wireTick bytes).toTickMsg := by
  have hfield (k : ℕ) (hk : k + 4 ≤ 16) :
      nativeValue .little ((((bytes.drop 8).take 16).drop k).take 4) =
        wireField bytes (8 + k) 4 := by
    rw [List.drop_take, List.take_take, Nat.min_eq_left (by omega), List.drop_drop]
    rfl
  have h₀ := hfield 0 (by decide)
  rw [List.drop_zero] at h₀
  rw [TickMsg.ofRepresentation, h₀, hfield 4 (by decide), hfield 8 (by decide),
    hfield 12 (by decide)]
  rfl

/-- **The two codecs agree.** On a little-endian host: the sixteen bytes written for a structure
are those that the generated codec writes behind the header, whatever the time; the structure behind
the header of an accepted message of at least thirty-two bytes, copied or pointed to, has the fields
that the generated codec reads; and the copy and the pointer agree for every buffer. -/
theorem tickCodecs_agree :
    (∀ (msg : TickMsg) (tsNs : UInt64) (dst dst' : Span), 16 ≤ dst.bytes.length →
      32 ≤ dst'.bytes.length → ∃ bytes bytes',
        (encode .little dst msg).run dst.bytes = (.ok true, bytes) ∧
        (encodeTick .little dst' (msg.toTickValues tsNs)).run dst'.bytes = (.ok 32, bytes') ∧
        bytes.take 16 = (bytes'.drop 8).take 16 ∧ bytes.drop 16 = dst.bytes.drop 16) ∧
    (∀ (src pod : Span) (out v : TickValues) (msg : TickMsg),
      (decodeTick .little src).run out = (.ok true, v) → 32 ≤ src.bytes.length →
      pod.bytes = src.bytes.drop 8 →
        (decodeCopy .little pod).run msg = (.ok true, v.toTickMsg) ∧
        ∃ view, decodeView pod = some view ∧ view.read .little = .ok v.toTickMsg) ∧
    ∀ (src : Span) (out : TickMsg),
      (decodeView src = none ∧ (decodeCopy .little src).run out = (.ok false, out)) ∨
      ∃ view msg, decodeView src = some view ∧ view.read .little = .ok msg ∧
        (decodeCopy .little src).run out = (.ok true, msg) := by
  refine ⟨fun msg tsNs dst dst' hdst hdst' => ?_, fun src pod out v msg haccepts hlen hpod => ?_,
    decodeView_eq_decodeCopy .little⟩
  · have hrep := msg.length_representation .little
    refine ⟨_, _, encode_of_le hdst, encodeTick_of_le hdst', ?_, List.drop_left' hrep⟩
    rw [List.take_left' hrep, wireMessage, List.append_assoc, List.drop_left' length_wireHeader,
      List.take_append_of_le_length (by simp), take_wireBody]
  · have h16 : 16 ≤ pod.bytes.length := by
      rw [hpod, List.length_drop]
      omega
    obtain rfl := eq_wireTick_of_accepts haccepts
    rw [← ofRepresentation_wireTick, ← hpod]
    exact ⟨decodeCopy_of_le h16 msg, ⟨pod⟩, decodeView_of_le h16, View.read_of_le h16⟩

/-- The structure with the fields of the extreme tick. -/
theorem tickCodecs_agree_extremeTick :
    (∃ bytes, (encode .little setBuffer extremeTick.toTickMsg).run setBuffer.bytes =
      (.ok true, bytes) ∧ bytes.drop 16 = setBuffer.bytes.drop 16) ∧
    ∃ view, decodeView ⟨zeroMessage.bytes.drop 8, by decide⟩ = some view ∧
      view.read .little = .ok (TickValues.toTickMsg {}) := by
  obtain ⟨hencode, hdecode, -⟩ := tickCodecs_agree
  obtain ⟨bytes, -, hrun, -, -, hrest⟩ :=
    hencode extremeTick.toTickMsg 0 setBuffer setBuffer (by decide) (by decide)
  have haccepts : (decodeTick .little zeroMessage).run {} = (.ok true, {}) := by decide +kernel
  exact ⟨⟨bytes, hrun, hrest⟩,
    (hdecode zeroMessage _ {} {} extremeTick.toTickMsg haccepts (by decide) rfl).2⟩

end SystemsStack.Sbe
