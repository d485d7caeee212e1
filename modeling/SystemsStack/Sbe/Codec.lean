import SystemsStack.Sbe.Flyweight

/-!
# The tick codec

`encode_tick` and `decode_tick` are thin helpers over the generated flyweights. Their steps are
those of the source: the size tests, the flyweights wrapped, the fields in the order in which they
are written and read, and for `decode_tick` the assignments to the caller's `out` in between. The
test of the header and the assignments have names of their own.

Source: `include/ll/sbe_codec.hpp`, lines 15–64.

## Main definitions

* `SystemsStack.Sbe.TickValues`, `SystemsStack.Sbe.kTickWireBytes`.
* `SystemsStack.Sbe.encodeTick`, `SystemsStack.Sbe.decodeTick`, with
  `SystemsStack.Sbe.headerMismatch`, `SystemsStack.Sbe.decodeFields`.
-/

namespace SystemsStack.Sbe

open Core

/-- The values of a tick message. -/
structure TickValues where
  instrumentId : UInt32 := 0
  priceTicks : Int32 := 0
  qty : UInt32 := 0
  seq : UInt32 := 0
  tsNs : UInt64 := 0
  deriving DecidableEq, Repr

/-- The size of a message: a header of eight bytes and a body of twenty-four. -/
def kTickWireBytes : UInt64 := Tick.sbeBlockAndHeaderLength

/-- Encode header and body into the bytes of `dst`; the result is the number of bytes written, or
zero. -/
def encodeTick (order : ByteOrder) (dst : Span) (v : TickValues) :
    Effect (List UInt8) UInt64 :=
  if dst.size < kTickWireBytes then
    pure 0
  else do
    let tick ← Tick.wrapAndApplyHeader order 0 dst.size
    tick.setInstrumentId order v.instrumentId
    tick.setPriceTicks order v.priceTicks
    tick.setQty order v.qty
    tick.setSeq order v.seq
    tick.setTsNs order v.tsNs
    return kTickWireBytes

/-- Whether the header is that of another message; the template is read only if the schema
matches. -/
def headerMismatch (order : ByteOrder) (hdr : MessageHeader) (mem : List UInt8) :
    Except Fault Bool := do
  let schemaId ← hdr.schemaId order mem
  if schemaId ≠ Tick.sbeSchemaId then
    return true
  else
    let templateId ← hdr.templateId order mem
    return templateId ≠ Tick.sbeTemplateId

/-- Assign the fields of the wrapped tick to `out`, one after the other. -/
def decodeFields (order : ByteOrder) (tick : Tick) (mem : List UInt8) :
    Effect TickValues Unit := do
  let instrumentId ← tick.instrumentId order mem
  .modify ({ · with instrumentId })
  let priceTicks ← tick.priceTicks order mem
  .modify ({ · with priceTicks })
  let qty ← tick.qty order mem
  .modify ({ · with qty })
  let seq ← tick.seq order mem
  .modify ({ · with seq })
  let tsNs ← tick.tsNs order mem
  .modify ({ · with tsNs })

/-- Decode the buffer `src`, which starts with the message header, into `out`. -/
def decodeTick (order : ByteOrder) (src : Span) : Effect TickValues Bool :=
  if src.size < MessageHeader.encodedLength then
    pure false
  else do
    let hdr ← MessageHeader.create 0 src.size Tick.sbeSchemaVersion.toUInt64
    let mismatch ← headerMismatch order hdr src.bytes
    if mismatch then
      pure false
    else
      let blockLength ← hdr.blockLength order src.bytes
      let version ← hdr.version order src.bytes
      let tick ← Tick.wrapForDecode MessageHeader.encodedLength blockLength.toUInt64
        version.toUInt64 src.size
      decodeFields order tick src.bytes
      return true

end SystemsStack.Sbe
