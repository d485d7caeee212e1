import SystemsStack.Core.ByteMemory
import SystemsStack.Core.LittleEndian

/-!
# The generated flyweights of the tick message

The classes that the schema compiler generates hold a pointer into a buffer, an offset, and the
length of the buffer. Their getters and setters copy a fixed number of bytes at a fixed distance
from the offset, without a check; only wrapping a buffer compares a position with its length, and
throws. This file embeds `MessageHeader` and `Tick` with the members that the codec uses.

A program over flyweights may throw an exception, or access a position outside the buffer, where
the behaviour of the source is undefined. Both are faults here; what has been written before a
fault stays written (`SystemsStack.Sbe.Effect`).

The flyweights keep the lengths and offsets in `std::uint64_t`, and compare them there. The
pointer `m_buffer + m_offset + k` is the position `m_offset + k` of the buffer, not reduced.

Source: `generated/sbe/market_sbe/MessageHeader.h`, `generated/sbe/market_sbe/Tick.h`.

## Main definitions

* `SystemsStack.Sbe.Fault`, `SystemsStack.Sbe.Effect`, `SystemsStack.Sbe.Span`.
* `SystemsStack.Sbe.getField`, `SystemsStack.Sbe.setField`: the access shared by all fields.
* `SystemsStack.Sbe.MessageHeader`, `SystemsStack.Sbe.Tick`.

## Main results

* `SystemsStack.Sbe.getField_of_le`, `SystemsStack.Sbe.getField_of_lt`,
  `SystemsStack.Sbe.setField_append`: what an access does, whatever the byte order of the host.
-/

namespace SystemsStack.Sbe

open Core

/-! ### Faults and effects -/

/-- Why a program over flyweights does not return. -/
inductive Fault where
  /-- A `std::runtime_error` with this text is thrown. -/
  | runtimeError (what : String)
  /-- The byte at this position, outside the buffer, is accessed. -/
  | outOfBounds (position : ℕ)
  deriving DecidableEq, Repr

/-- A program with a state that may stop with a fault; the state it has reached then stays. -/
def Effect (σ α : Type) : Type := σ → Except Fault α × σ

namespace Effect

variable {σ α β : Type}

/-- The result of the program and the state it leaves. -/
def run (x : Effect σ α) (s : σ) : Except Fault α × σ := x s

instance : Monad (Effect σ) where
  pure a s := (.ok a, s)
  bind x f s :=
    match x s with
    | (.ok a, s') => f a s'
    | (.error e, s') => (.error e, s')

instance : MonadLift (Except Fault) (Effect σ) where
  monadLift e s := (e, s)

/-- Assign to the state. -/
def modify (f : σ → σ) : Effect σ Unit := fun s => (.ok (), f s)

@[simp] theorem run_pure (a : α) (s : σ) : (pure a : Effect σ α).run s = (.ok a, s) := rfl

@[simp] theorem run_bind_lift_ok (a : α) (f : α → Effect σ β) (s : σ) :
    ((liftM (.ok a : Except Fault α) : Effect σ α) >>= f).run s = (f a).run s := rfl

theorem run_bind_ok {x : Effect σ α} {f : α → Effect σ β} {s s' : σ} {a : α}
    (h : x.run s = (.ok a, s')) : (x >>= f).run s = (f a).run s' := by
  change (match x.run s with | (.ok a, s') => f a s' | (.error e, s') => (.error e, s')) = _
  rw [h]
  rfl

theorem run_bind_error {x : Effect σ α} {f : α → Effect σ β} {s s' : σ} {e : Fault}
    (h : x.run s = (.error e, s')) : (x >>= f).run s = (.error e, s') := by
  change (match x.run s with | (.ok a, s') => f a s' | (.error e, s') => (.error e, s')) = _
  rw [h]

end Effect

/-! ### Buffers -/

/-- A `std::span` of `char`: its length is a `std::size_t`. -/
structure Span where
  bytes : List UInt8
  length_lt : bytes.length < 2 ^ 64

/-- The length of the span. -/
def Span.size (s : Span) : UInt64 := .ofNat s.bytes.length

@[simp] theorem Span.toNat_size (s : Span) : s.size.toNat = s.bytes.length :=
  UInt64.toNat_ofNat_of_lt' s.length_lt

/-- Read the field of `n` bytes at the position and put it into the order of the host. -/
def getField (order : ByteOrder) (mem : List UInt8) (position n : ℕ) : Except Fault ℕ :=
  match readBytes mem position n with
  | .ok bs => .ok (toLittleEndian order n (nativeValue order bs))
  | .error p => .error (.outOfBounds p)

/-- Put the value into little-endian order and write it to the field of `n` bytes at the
position. -/
def setField (order : ByteOrder) (position n value : ℕ) : Effect (List UInt8) Unit := fun mem =>
  match writeBytes mem position (nativeBytes order n (toLittleEndian order n value)) with
  | .ok mem' => (.ok (), mem')
  | .error p => (.error (.outOfBounds p), mem)

variable {order : ByteOrder} {mem : List UInt8} {p n v : ℕ}

theorem getField_of_le (h : p + n ≤ mem.length) :
    getField order mem p n = .ok (leValue ((mem.drop p).take n)) := by
  have hlen : ((mem.drop p).take n).length = n := by
    rw [List.length_take, List.length_drop]
    omega
  rw [getField, readBytes_of_le h]
  exact congrArg Except.ok (toLittleEndian_nativeValue order hlen)

theorem getField_of_lt (h : mem.length < p + n) :
    getField order mem p n = .error (.outOfBounds (max p mem.length)) := by
  rw [getField, readBytes_of_lt h]

/-- Writing the field that follows the part `a` of the buffer. -/
theorem setField_append (a : List UInt8) (ha : a.length = p) (h : p + n ≤ mem.length) :
    (setField order p n v).run (a ++ mem.drop p) =
      (.ok (), (a ++ leBytes n v) ++ mem.drop (p + n)) := by
  have hlen : (leBytes n v).length = n := length_leBytes n v
  rw [Effect.run, setField, nativeBytes_toLittleEndian,
    writeBytes_append a (leBytes n v) ha (by rwa [hlen]), hlen]

/-! ### The message header -/

/-- The members of `market::sbe::MessageHeader` besides the buffer. -/
structure MessageHeader where
  bufferLength : UInt64 := 0
  offset : UInt64 := 0
  actingVersion : UInt64 := 0
  deriving DecidableEq, Repr

namespace MessageHeader

def encodedLength : UInt64 := 8

/-- The constructor. -/
def create (offset bufferLength actingVersion : UInt64) : Except Fault MessageHeader :=
  if offset + 8 > bufferLength then
    .error (.runtimeError "buffer too short for flyweight [E107]")
  else
    .ok { bufferLength, offset, actingVersion }

variable (order : ByteOrder) (hdr : MessageHeader) (mem : List UInt8)

def blockLength : Except Fault UInt16 :=
  UInt16.ofNat <$> getField order mem (hdr.offset.toNat + 0) 2

def templateId : Except Fault UInt16 :=
  UInt16.ofNat <$> getField order mem (hdr.offset.toNat + 2) 2

def schemaId : Except Fault UInt16 :=
  UInt16.ofNat <$> getField order mem (hdr.offset.toNat + 4) 2

def version : Except Fault UInt16 :=
  UInt16.ofNat <$> getField order mem (hdr.offset.toNat + 6) 2

def setBlockLength (value : UInt16) : Effect (List UInt8) Unit :=
  setField order (hdr.offset.toNat + 0) 2 value.toNat

def setTemplateId (value : UInt16) : Effect (List UInt8) Unit :=
  setField order (hdr.offset.toNat + 2) 2 value.toNat

def setSchemaId (value : UInt16) : Effect (List UInt8) Unit :=
  setField order (hdr.offset.toNat + 4) 2 value.toNat

def setVersion (value : UInt16) : Effect (List UInt8) Unit :=
  setField order (hdr.offset.toNat + 6) 2 value.toNat

end MessageHeader

/-! ### The tick -/

/-- The members of `market::sbe::Tick` besides the buffer. -/
structure Tick where
  bufferLength : UInt64 := 0
  offset : UInt64 := 0
  position : UInt64 := 0
  actingBlockLength : UInt64 := 0
  actingVersion : UInt64 := 0
  deriving DecidableEq, Repr

namespace Tick

def sbeBlockLength : UInt16 := 24

def sbeTemplateId : UInt16 := 1

def sbeSchemaId : UInt16 := 77

def sbeSchemaVersion : UInt16 := 0

def sbeBlockAndHeaderLength : UInt64 := MessageHeader.encodedLength + sbeBlockLength.toUInt64

/-- `sbeCheckPosition` of a flyweight over a buffer of this length. -/
def sbeCheckPosition (bufferLength position : UInt64) : Except Fault UInt64 :=
  if position > bufferLength then .error (.runtimeError "buffer too short [E100]")
  else .ok position

variable (order : ByteOrder) (tick : Tick) (mem : List UInt8)

/-- Write the header and wrap the buffer behind it. -/
def wrapAndApplyHeader (offset bufferLength : UInt64) : Effect (List UInt8) Tick := do
  let hdr ← MessageHeader.create offset bufferLength sbeSchemaVersion.toUInt64
  hdr.setBlockLength order sbeBlockLength
  hdr.setTemplateId order sbeTemplateId
  hdr.setSchemaId order sbeSchemaId
  hdr.setVersion order sbeSchemaVersion
  let offset := offset + MessageHeader.encodedLength
  let actingBlockLength := sbeBlockLength.toUInt64
  let position ← sbeCheckPosition bufferLength (offset + actingBlockLength)
  return { bufferLength, offset, position, actingBlockLength,
           actingVersion := sbeSchemaVersion.toUInt64 }

/-- Wrap a buffer whose body starts at the offset. -/
def wrapForDecode (offset actingBlockLength actingVersion bufferLength : UInt64) :
    Except Fault Tick := do
  let position ← sbeCheckPosition bufferLength (offset + actingBlockLength)
  return { bufferLength, offset, position, actingBlockLength, actingVersion }

def instrumentId : Except Fault UInt32 :=
  UInt32.ofNat <$> getField order mem (tick.offset.toNat + 0) 4

def priceTicks : Except Fault Int32 :=
  (fun val => (UInt32.ofNat val).toInt32) <$> getField order mem (tick.offset.toNat + 4) 4

def qty : Except Fault UInt32 :=
  UInt32.ofNat <$> getField order mem (tick.offset.toNat + 8) 4

def seq : Except Fault UInt32 :=
  UInt32.ofNat <$> getField order mem (tick.offset.toNat + 12) 4

def tsNs : Except Fault UInt64 :=
  UInt64.ofNat <$> getField order mem (tick.offset.toNat + 16) 8

def setInstrumentId (value : UInt32) : Effect (List UInt8) Unit :=
  setField order (tick.offset.toNat + 0) 4 value.toNat

def setPriceTicks (value : Int32) : Effect (List UInt8) Unit :=
  setField order (tick.offset.toNat + 4) 4 value.toUInt32.toNat

def setQty (value : UInt32) : Effect (List UInt8) Unit :=
  setField order (tick.offset.toNat + 8) 4 value.toNat

def setSeq (value : UInt32) : Effect (List UInt8) Unit :=
  setField order (tick.offset.toNat + 12) 4 value.toNat

def setTsNs (value : UInt64) : Effect (List UInt8) Unit :=
  setField order (tick.offset.toNat + 16) 8 value.toNat

end Tick

end SystemsStack.Sbe
