import SystemsStack.Sbe.RoundTrip

/-!
# Messages in a buffer as records

The getters and setters of the generated flyweights copy a few bytes at a distance from the offset,
and check nothing. This file shows that they are those of a record. A buffer with several messages,
each wrapped by a header and a tick behind it, behaves like a family of records: whatever setters
are called, and in whatever order, each message has the values that its own setters have given it,
and nothing else in the buffer changes (`SystemsStack.Sbe.accessors_refine`). It does not matter
whether the host that reads has the byte order of the one that has written.

This holds for messages that do not overlap and end in the buffer. For a message wrapped for
encoding, `SystemsStack.Sbe.wrapAndApplyHeader_cases` says when it does.

## Main definitions

* `SystemsStack.Sbe.MessageValues`: the record of a message, with its bytes.
* `SystemsStack.Sbe.Flyweights`: a header and a tick that wrap one message.
* `SystemsStack.Sbe.Setter`, with `run` and `assign`; `SystemsStack.Sbe.Flyweights.read`.

## Main results

* `SystemsStack.Sbe.accessors_refine`, `SystemsStack.Sbe.wrapAndApplyHeader_cases`.

## References

* `generated/sbe/market_sbe/Tick.h`, lines 175–222 and 370–620;
  `generated/sbe/market_sbe/MessageHeader.h`, lines 120–410.
-/

namespace SystemsStack.Sbe

open Core

/-! ### The record of a message -/

/-- The values of a message header. -/
structure HeaderValues where
  blockLength : UInt16 := 0
  templateId : UInt16 := 0
  schemaId : UInt16 := 0
  version : UInt16 := 0
  deriving DecidableEq, Repr

/-- The values of a message. -/
structure MessageValues where
  header : HeaderValues := {}
  tick : TickValues := {}
  deriving DecidableEq, Repr

/-- The bytes of a header. -/
def HeaderValues.bytes (h : HeaderValues) : List UInt8 :=
  leBytes 2 h.blockLength.toNat ++ (leBytes 2 h.templateId.toNat ++
    (leBytes 2 h.schemaId.toNat ++ leBytes 2 h.version.toNat))

namespace MessageValues

/-- The bytes of a message. -/
def bytes (m : MessageValues) : List UInt8 := m.header.bytes ++ wireBody m.tick

/-- The bytes of the fields, one after the other. -/
def fields (m : MessageValues) : List (List UInt8) :=
  [leBytes 2 m.header.blockLength.toNat, leBytes 2 m.header.templateId.toNat,
    leBytes 2 m.header.schemaId.toNat, leBytes 2 m.header.version.toNat,
    leBytes 4 m.tick.instrumentId.toNat, leBytes 4 m.tick.priceTicks.toUInt32.toNat,
    leBytes 4 m.tick.qty.toNat, leBytes 4 m.tick.seq.toNat, leBytes 8 m.tick.tsNs.toNat]

theorem flatten_fields (m : MessageValues) : m.fields.flatten = m.bytes := by
  simp [fields, bytes, HeaderValues.bytes, wireBody]

/-- The values that the first bytes of a buffer stand for. -/
def ofBytes (bytes : List UInt8) : MessageValues where
  header := {
    blockLength := .ofNat (wireBlockLength bytes)
    templateId := .ofNat (wireTemplateId bytes)
    schemaId := .ofNat (wireSchemaId bytes)
    version := .ofNat (wireVersion bytes) }
  tick := wireTick bytes

end MessageValues

@[simp] theorem HeaderValues.length_bytes (h : HeaderValues) : h.bytes.length = 8 := by
  simp [bytes]

@[simp] theorem MessageValues.length_bytes (m : MessageValues) : m.bytes.length = 32 := by
  simp [bytes]

/-- The values of a message do not depend on what follows it. -/
theorem MessageValues.ofBytes_bytes (m : MessageValues) (rest : List UInt8) :
    ofBytes (m.bytes ++ rest) = m := by
  have htick := wireTick_wireBody m.header.bytes m.header.length_bytes m.tick rest
  have hfield (x k l : ℕ) (c : List UInt8) :
      wireField (leBytes 2 x ++ c) (2 + k) l = wireField c k l := by
    rw [wireField_skip _ _ (by simp), length_leBytes, Nat.add_sub_cancel_left]
  have hhead (x : UInt16) (c : List UInt8) : wireField (leBytes 2 x.toNat ++ c) 0 2 = x.toNat :=
    wireField_head c x.toNat_lt
  rw [ofBytes, bytes, List.append_assoc, htick]
  simp only [HeaderValues.bytes, List.append_assoc, wireBlockLength, wireTemplateId,
    wireSchemaId, wireVersion]
  have e₁ := (hfield m.header.blockLength.toNat 0 2 _).trans (hhead m.header.templateId
    (leBytes 2 m.header.schemaId.toNat ++ (leBytes 2 m.header.version.toNat ++
      (wireBody m.tick ++ rest))))
  have e₂ := (hfield m.header.blockLength.toNat 2 2 _).trans
    ((hfield m.header.templateId.toNat 0 2 _).trans (hhead m.header.schemaId
      (leBytes 2 m.header.version.toNat ++ (wireBody m.tick ++ rest))))
  have e₃ := (hfield m.header.blockLength.toNat 4 2 _).trans
    ((hfield m.header.templateId.toNat 2 2 _).trans
      ((hfield m.header.schemaId.toNat 0 2 _).trans (hhead m.header.version
        (wireBody m.tick ++ rest))))
  rw [hhead, e₁, e₂, e₃]
  simp

/-- A buffer of at least thirty-two bytes starts with the bytes of its values. -/
theorem MessageValues.bytes_ofBytes {bytes : List UInt8} (h : 32 ≤ bytes.length) :
    (ofBytes bytes).bytes ++ bytes.drop 32 = bytes := by
  have h16 (p : ℕ) : (UInt16.ofNat (wireField bytes p 2)).toNat = wireField bytes p 2 :=
    toNat_wireField_two bytes p
  have h32 (p : ℕ) : (UInt32.ofNat (wireField bytes p 4)).toNat = wireField bytes p 4 :=
    UInt32.toNat_ofNat_of_lt' wireField_lt
  have h64 (p : ℕ) : (UInt64.ofNat (wireField bytes p 8)).toNat = wireField bytes p 8 :=
    UInt64.toNat_ofNat_of_lt' wireField_lt
  have hfield (q m : ℕ) (hq : q + m ≤ 32) :
      leBytes m (wireField bytes q m) ++ bytes.drop (q + m) = bytes.drop q :=
    leBytes_wireField_append (Nat.le_trans hq h)
  simp only [MessageValues.bytes, HeaderValues.bytes, ofBytes, wireBody, wireTick,
    wireBlockLength, wireTemplateId, wireSchemaId, wireVersion, UInt32.toUInt32_toInt32, h16, h32,
    h64, List.append_assoc]
  -- from the last field to the first
  rw [hfield 24 8 (by decide), hfield 20 4 (by decide), hfield 16 4 (by decide),
    hfield 12 4 (by decide), hfield 8 4 (by decide), hfield 6 2 (by decide),
    hfield 4 2 (by decide), hfield 2 2 (by decide), hfield 0 2 (by decide), List.drop_zero]

/-- The values of the message at a position of a buffer. -/
def messageAt (mem : List UInt8) (start : ℕ) : MessageValues := .ofBytes (mem.drop start)

/-! ### Getters and setters -/

/-- A header and a tick that wrap one message. -/
structure Flyweights where
  hdr : MessageHeader
  tick : Tick
  tick_offset : tick.offset.toNat = hdr.offset.toNat + 8

/-- Where the message starts. -/
def Flyweights.start (f : Flyweights) : ℕ := f.hdr.offset.toNat

/-- The message ends in the buffer. -/
def Flyweights.Fits (f : Flyweights) (mem : List UInt8) : Prop := f.start + 32 ≤ mem.length

/-- The messages do not overlap. -/
def Flyweights.Disjoint (f g : Flyweights) : Prop :=
  f.start + 32 ≤ g.start ∨ g.start + 32 ≤ f.start

/-- A setter of the header or of the tick, with its argument. -/
inductive Setter where
  | blockLength (value : UInt16)
  | templateId (value : UInt16)
  | schemaId (value : UInt16)
  | version (value : UInt16)
  | instrumentId (value : UInt32)
  | priceTicks (value : Int32)
  | qty (value : UInt32)
  | seq (value : UInt32)
  | tsNs (value : UInt64)
  deriving DecidableEq, Repr

namespace Setter

/-- Call the setter of a flyweight. -/
def run (order : ByteOrder) (f : Flyweights) : Setter → Effect (List UInt8) Unit
  | blockLength value => f.hdr.setBlockLength order value
  | templateId value => f.hdr.setTemplateId order value
  | schemaId value => f.hdr.setSchemaId order value
  | version value => f.hdr.setVersion order value
  | instrumentId value => f.tick.setInstrumentId order value
  | priceTicks value => f.tick.setPriceTicks order value
  | qty value => f.tick.setQty order value
  | seq value => f.tick.setSeq order value
  | tsNs value => f.tick.setTsNs order value

/-- Assign to the field of the record. -/
def assign (m : MessageValues) : Setter → MessageValues
  | blockLength value => { m with header.blockLength := value }
  | templateId value => { m with header.templateId := value }
  | schemaId value => { m with header.schemaId := value }
  | version value => { m with header.version := value }
  | instrumentId value => { m with tick.instrumentId := value }
  | priceTicks value => { m with tick.priceTicks := value }
  | qty value => { m with tick.qty := value }
  | seq value => { m with tick.seq := value }
  | tsNs value => { m with tick.tsNs := value }

/-- The place of the field in the message. -/
def index : Setter → ℕ
  | blockLength _ => 0
  | templateId _ => 1
  | schemaId _ => 2
  | version _ => 3
  | instrumentId _ => 4
  | priceTicks _ => 5
  | qty _ => 6
  | seq _ => 7
  | tsNs _ => 8

/-- Where the field starts in the message. -/
def distance (s : Setter) : ℕ := [0, 2, 4, 6, 8, 12, 16, 20, 24].getD s.index 0

/-- The number of bytes of the field. -/
def width (s : Setter) : ℕ := [2, 2, 2, 2, 4, 4, 4, 4, 8].getD s.index 0

/-- The argument, as it is written. -/
def value : Setter → ℕ
  | blockLength value | templateId value | schemaId value | version value => value.toNat
  | instrumentId value | qty value | seq value => value.toNat
  | priceTicks value => value.toUInt32.toNat
  | tsNs value => value.toNat

theorem run_eq (order : ByteOrder) (f : Flyweights) (s : Setter) :
    s.run order f = setField order (f.start + s.distance) s.width s.value := by
  have hoff (k : ℕ) : f.tick.offset.toNat + k = f.start + (8 + k) := by
    rw [f.tick_offset, Nat.add_assoc, Flyweights.start]
  cases s with
  | blockLength | templateId | schemaId | version => rfl
  | instrumentId v => exact congrArg (setField order · 4 v.toNat) (hoff 0)
  | priceTicks v => exact congrArg (setField order · 4 v.toUInt32.toNat) (hoff 4)
  | qty v => exact congrArg (setField order · 4 v.toNat) (hoff 8)
  | seq v => exact congrArg (setField order · 4 v.toNat) (hoff 12)
  | tsNs v => exact congrArg (setField order · 8 v.toNat) (hoff 16)

/-- An assignment replaces the bytes of one field. -/
theorem fields_assign (s : Setter) (m : MessageValues) :
    (s.assign m).fields = m.fields.set s.index (leBytes s.width s.value) := by
  cases s <;> rfl

/-- What an assignment does to the bytes of the message. -/
theorem exists_bytes (s : Setter) (m : MessageValues) : ∃ before old after,
    before.length = s.distance ∧ old.length = s.width ∧ m.bytes = before ++ (old ++ after) ∧
      (s.assign m).bytes = before ++ (leBytes s.width s.value ++ after) := by
  have hlt : s.index < m.fields.length := by cases s <;> simp [index, MessageValues.fields]
  refine ⟨(m.fields.take s.index).flatten, m.fields[s.index], (m.fields.drop (s.index + 1)).flatten,
    ?_, ?_, ?_, ?_⟩
  · cases s <;> simp [index, distance, MessageValues.fields]
  · cases s <;> simp [index, width, MessageValues.fields]
  · rw [← List.flatten_cons, ← List.flatten_append, ← List.drop_eq_getElem_cons hlt,
      List.take_append_drop, MessageValues.flatten_fields]
  · rw [← List.flatten_cons, ← List.flatten_append, ← MessageValues.flatten_fields, fields_assign,
      List.set_eq_take_append_cons_drop, if_pos hlt]

end Setter

namespace Flyweights

variable (order : ByteOrder) (f : Flyweights) (mem : List UInt8)

/-- Call all getters. -/
def read : Except Fault MessageValues := do
  let blockLength ← f.hdr.blockLength order mem
  let templateId ← f.hdr.templateId order mem
  let schemaId ← f.hdr.schemaId order mem
  let version ← f.hdr.version order mem
  let instrumentId ← f.tick.instrumentId order mem
  let priceTicks ← f.tick.priceTicks order mem
  let qty ← f.tick.qty order mem
  let seq ← f.tick.seq order mem
  let tsNs ← f.tick.tsNs order mem
  return { header := { blockLength, templateId, schemaId, version }
           tick := { instrumentId, priceTicks, qty, seq, tsNs } }

end Flyweights

/-! ### One message -/

variable {order : ByteOrder} {f g : Flyweights} {mem mem' : List UInt8}

/-- The getters read the values of the message at the offset. -/
theorem Flyweights.read_of_fits (order : ByteOrder) (h : f.Fits mem) :
    f.read order mem = .ok (messageAt mem f.start) := by
  have hlen : f.hdr.offset.toNat + 32 ≤ mem.length := h
  have hfield (k n : ℕ) (hk : k + n ≤ 32) : getField order mem (f.hdr.offset.toNat + k) n =
      .ok (wireField (mem.drop f.start) k n) := by
    rw [getField_of_le (by omega), wireField, List.drop_drop, start]
  have htick (k n : ℕ) (hk : 8 + k + n ≤ 32) : getField order mem (f.tick.offset.toNat + k) n =
      .ok (wireField (mem.drop f.start) (8 + k) n) := by
    rw [f.tick_offset, Nat.add_assoc]
    exact hfield (8 + k) n hk
  rw [read, MessageHeader.blockLength, MessageHeader.templateId, MessageHeader.schemaId,
    MessageHeader.version, Tick.instrumentId, Tick.priceTicks, Tick.qty, Tick.seq, Tick.tsNs,
    hfield 0 2 (by decide), hfield 2 2 (by decide), hfield 4 2 (by decide), hfield 6 2 (by decide),
    htick 0 4 (by decide), htick 4 4 (by decide), htick 8 4 (by decide), htick 12 4 (by decide),
    htick 16 8 (by decide)]
  rfl

/-- A setter assigns to the record of its message, and changes no byte outside of it. -/
theorem Setter.exists_run (order : ByteOrder) (s : Setter) (h : f.Fits mem) :
    ∃ mem', (s.run order f).run mem = (.ok (), mem') ∧ mem'.length = mem.length ∧
      messageAt mem' f.start = s.assign (messageAt mem f.start) ∧
      mem'.take f.start = mem.take f.start ∧
      mem'.drop (f.start + 32) = mem.drop (f.start + 32) := by
  have hlen : f.start + 32 ≤ mem.length := h
  have hstart : (mem.take f.start).length = f.start := List.length_take_of_le (by omega)
  obtain ⟨before, old, after, hbefore, hold, hbytes, hassign⟩ :=
    s.exists_bytes (messageAt mem f.start)
  set m' := s.assign (messageAt mem f.start) with hm'
  have hmem : mem = mem.take f.start ++
      ((messageAt mem f.start).bytes ++ mem.drop (f.start + 32)) := by
    rw [← List.drop_drop, messageAt, MessageValues.bytes_ofBytes (by simp; omega),
      List.take_append_drop]
  have hwrite : writeBytes mem (f.start + s.distance) (leBytes s.width s.value) =
      .ok (mem.take f.start ++ (m'.bytes ++ mem.drop (f.start + 32))) := by
    have hmiddle := writeBytes_middle (mem.take f.start ++ before) old (leBytes s.width s.value)
      (after ++ mem.drop (f.start + 32)) (p := f.start + s.distance)
      (by rw [List.length_append, hstart, hbefore]) (by rw [hold, length_leBytes])
    nth_rewrite 1 [hmem]
    rw [hbytes, hassign]
    simpa only [List.append_assoc] using hmiddle
  refine ⟨mem.take f.start ++ (m'.bytes ++ mem.drop (f.start + 32)), ?_, ?_, ?_,
    List.take_left' hstart, ?_⟩
  · rw [run_eq, Effect.run, setField, nativeBytes_toLittleEndian, hwrite]
  · simp only [List.length_append, hstart, MessageValues.length_bytes, List.length_drop]
    omega
  · rw [messageAt, List.drop_left' hstart, MessageValues.ofBytes_bytes]
  · rw [← List.drop_drop, List.drop_left' hstart, List.drop_left' m'.length_bytes]

/-! ### Several messages -/

/-- The values of a message depend on its bytes alone. -/
theorem messageAt_congr {p : ℕ} (h : (mem'.drop p).take 32 = (mem.drop p).take 32)
    (hfits : p + 32 ≤ mem.length) : messageAt mem' p = messageAt mem p := by
  have hbytes : (mem.drop p).take 32 = (messageAt mem p).bytes := by
    have hlength : 32 ≤ (mem.drop p).length := by rw [List.length_drop]; omega
    have hsplit := MessageValues.bytes_ofBytes hlength
    rw [messageAt, ← hsplit, MessageValues.ofBytes_bytes]
    exact List.take_left' (MessageValues.length_bytes _)
  rw [messageAt, ← List.take_append_drop 32 (mem'.drop p), h, hbytes, MessageValues.ofBytes_bytes]

/-- A message that does not overlap with the one that is changed stays as it is. -/
theorem messageAt_of_disjoint (h : f.Disjoint g) (hfits : g.Fits mem)
    (htake : mem'.take f.start = mem.take f.start)
    (hdrop : mem'.drop (f.start + 32) = mem.drop (f.start + 32)) :
    messageAt mem' g.start = messageAt mem g.start := by
  refine messageAt_congr ?_ hfits
  rcases h with hafter | hbefore
  · obtain ⟨k, hk⟩ := Nat.exists_eq_add_of_le hafter
    rw [hk, ← List.drop_drop, hdrop, List.drop_drop]
  · have hcut (l : List UInt8) : (l.drop g.start).take 32 =
        ((l.take f.start).drop g.start).take 32 := by
      rw [List.drop_take, List.take_take, Nat.min_eq_left (by omega)]
    rw [hcut mem', htake, ← hcut]

variable {ι : Type*} [DecidableEq ι]

/-- Assign to a field of one of the records. -/
def Setter.assignAt (values : ι → MessageValues) (call : ι × Setter) : ι → MessageValues :=
  Function.update values call.1 (call.2.assign (values call.1))

/-- Call the setters one after the other, each of its message. -/
def runSetters (order : ByteOrder) (messages : ι → Flyweights) :
    List (ι × Setter) → Effect (List UInt8) Unit
  | [] => pure ()
  | call :: calls => do
      call.2.run order (messages call.1)
      runSetters order messages calls

/-- The setters assign to the records, and change no byte outside of the messages. -/
theorem exists_runSetters (order : ByteOrder) {messages : ι → Flyweights}
    (hfits : ∀ i, (messages i).Fits mem)
    (hdisjoint : ∀ i j, i ≠ j → (messages i).Disjoint (messages j)) (calls : List (ι × Setter)) :
    ∃ mem', (runSetters order messages calls).run mem = (.ok (), mem') ∧
      mem'.length = mem.length ∧
      (∀ i, messageAt mem' (messages i).start =
        calls.foldl Setter.assignAt (fun i => messageAt mem (messages i).start) i) ∧
      ∀ p, (∀ i, p < (messages i).start ∨ (messages i).start + 32 ≤ p) → mem'[p]? = mem[p]? := by
  induction calls generalizing mem with
  | nil => exact ⟨mem, rfl, rfl, fun _ => rfl, fun _ _ => rfl⟩
  | cons call calls ih =>
    obtain ⟨mem₁, hrun, hlen, hassign, htake, hdrop⟩ := call.2.exists_run order (hfits call.1)
    have hvalues : (fun i => messageAt mem₁ (messages i).start) =
        Setter.assignAt (fun i => messageAt mem (messages i).start) call := by
      funext i
      by_cases hi : i = call.1
      · subst hi
        rw [Setter.assignAt, Function.update_self, hassign]
      · rw [Setter.assignAt, Function.update_of_ne hi]
        exact messageAt_of_disjoint (hdisjoint _ _ (Ne.symm hi)) (hfits i) htake hdrop
    obtain ⟨mem', hrest, hlen', hread, hframe⟩ :=
      ih fun i => (congrArg ((messages i).start + 32 ≤ ·) hlen).mpr (hfits i)
    refine ⟨mem', (Effect.run_bind_ok hrun).trans hrest, hlen'.trans hlen, fun i => ?_,
      fun p hp => (hframe p hp).trans ?_⟩
    · rw [hread i, hvalues]
      rfl
    · rcases hp call.1 with hbefore | hafter
      · rw [← List.getElem?_take_of_lt hbefore, htake, List.getElem?_take_of_lt hbefore]
      · obtain ⟨k, rfl⟩ := Nat.exists_eq_add_of_le hafter
        rw [← List.getElem?_drop, hdrop, List.getElem?_drop]

/-- **Messages are records.** In a buffer with messages that do not overlap, whatever setters are
called of them, in whatever order: none of them fails, the getters of each message, called on a host
of either byte order, return the record that its setters have assigned to, and no byte outside of
the messages changes. -/
theorem accessors_refine (messages : ι → Flyweights) (mem : List UInt8)
    (hfits : ∀ i, (messages i).Fits mem)
    (hdisjoint : ∀ i j, i ≠ j → (messages i).Disjoint (messages j)) :
    ∃ values : ι → MessageValues, (∀ order i, (messages i).read order mem = .ok (values i)) ∧
      ∀ order (calls : List (ι × Setter)), ∃ mem',
        (runSetters order messages calls).run mem = (.ok (), mem') ∧ mem'.length = mem.length ∧
        (∀ order' i, (messages i).read order' mem' =
          .ok (calls.foldl Setter.assignAt values i)) ∧
        ∀ p, (∀ i, p < (messages i).start ∨ (messages i).start + 32 ≤ p) → mem'[p]? = mem[p]? := by
  refine ⟨fun i => messageAt mem (messages i).start,
    fun order i => Flyweights.read_of_fits order (hfits i), fun order calls => ?_⟩
  obtain ⟨mem', hrun, hlen, hread, hframe⟩ := exists_runSetters order hfits hdisjoint calls
  refine ⟨mem', hrun, hlen, fun order' i => ?_, hframe⟩
  have hfits' : (messages i).Fits mem' :=
    (congrArg ((messages i).start + 32 ≤ ·) hlen).mpr (hfits i)
  rw [Flyweights.read_of_fits order' hfits', hread]

/-- Two messages of a buffer, one behind the other. -/
def twoMessages (second : Bool) : Flyweights where
  hdr := { offset := if second then 32 else 0 }
  tick := { offset := if second then 40 else 8 }
  tick_offset := by cases second <;> rfl

/-- Setters of both messages in turn, and a getter on a host of the other byte order. -/
theorem accessors_refine_twoMessages : ∃ mem',
    (runSetters .big twoMessages [(true, .qty 5), (false, .priceTicks (-1)), (true, .qty 6),
      (false, .schemaId 77)]).run (List.replicate 64 0) = (.ok (), mem') ∧
    (twoMessages true).read .little mem' = .ok { tick := { qty := 6 } } := by
  have hfits (i : Bool) : (twoMessages i).Fits (List.replicate 64 0) := by
    cases i <;> exact show _ ≤ _ by decide
  have hdisjoint (i j : Bool) (h : i ≠ j) : (twoMessages i).Disjoint (twoMessages j) := by
    cases i <;> cases j <;> first | exact absurd rfl h | exact show _ ∨ _ by decide
  obtain ⟨values, hvalues, hrefine⟩ := accessors_refine twoMessages _ hfits hdisjoint
  obtain ⟨mem', hrun, -, hread, -⟩ := hrefine .big
    [(true, .qty 5), (false, .priceTicks (-1)), (true, .qty 6), (false, .schemaId 77)]
  have hzero : values true = {} := by
    have hread : (twoMessages true).read .little (List.replicate 64 0) = .ok {} := by
      decide +kernel
    exact Except.ok.inj ((hvalues .little true).symm.trans hread)
  refine ⟨mem', hrun, (hread .little true).trans ?_⟩
  simp [Setter.assignAt, Setter.assign, hzero]

/-! ### Wrapping -/

/-- The header of the schema. -/
def schemaHeader : HeaderValues where
  blockLength := Tick.sbeBlockLength
  templateId := Tick.sbeTemplateId
  schemaId := Tick.sbeSchemaId
  version := Tick.sbeSchemaVersion

theorem bytes_schemaHeader : schemaHeader.bytes = wireHeader := rfl

/-- The bytes with the header of the schema at an offset. -/
def withHeader (mem : List UInt8) (offset : ℕ) : List UInt8 :=
  mem.take offset ++ (schemaHeader.bytes ++ mem.drop (offset + 8))

/-- The header is replaced, and the tick behind it stays. -/
theorem messageAt_withHeader {offset : ℕ} (h : offset + 32 ≤ mem.length) :
    messageAt (withHeader mem offset) offset =
      { messageAt mem offset with header := schemaHeader } := by
  have hstart : (mem.take offset).length = offset := List.length_take_of_le (by omega)
  have hbody : mem.drop (offset + 8) =
      wireBody (messageAt mem offset).tick ++ (mem.drop offset).drop 32 := by
    have hlength : 32 ≤ (mem.drop offset).length := by rw [List.length_drop]; omega
    have hbytes := MessageValues.bytes_ofBytes hlength
    rw [← List.drop_drop, ← hbytes, ← messageAt, MessageValues.bytes, List.append_assoc,
      List.drop_left' (HeaderValues.length_bytes _), ← List.append_assoc,
      ← MessageValues.bytes, List.drop_left' (MessageValues.length_bytes _)]
  rw [messageAt, withHeader, List.drop_left' hstart, hbody, ← List.append_assoc]
  exact MessageValues.ofBytes_bytes { messageAt mem offset with header := schemaHeader } _

/-- The tick wrapped behind the header at an offset. -/
def wrappedTick (offset bufferLength : UInt64) : Tick where
  bufferLength := bufferLength
  offset := offset + MessageHeader.encodedLength
  position := offset + MessageHeader.encodedLength + Tick.sbeBlockLength.toUInt64
  actingBlockLength := Tick.sbeBlockLength.toUInt64
  actingVersion := Tick.sbeSchemaVersion.toUInt64

theorem sbeCheckPosition_of_le {bufferLength position : UInt64} (h : position ≤ bufferLength) :
    Tick.sbeCheckPosition bufferLength position = .ok position :=
  if_neg (UInt64.not_lt.mpr h)

theorem sbeCheckPosition_of_not_le {bufferLength position : UInt64}
    (h : ¬position ≤ bufferLength) :
    Tick.sbeCheckPosition bufferLength position =
      .error (.runtimeError "buffer too short [E100]") :=
  if_pos (UInt64.not_le.mp h)

section Header

variable {dst : Span} {offset : UInt64} (hoffset : (offset + 8).toNat = offset.toNat + 8)
include hoffset

/-- A flyweight for a header that ends in the buffer. -/
theorem create_of_le (h : offset.toNat + 8 ≤ dst.bytes.length) (actingVersion : UInt64) :
    MessageHeader.create offset dst.size actingVersion =
      .ok { bufferLength := dst.size, offset, actingVersion } := by
  refine if_neg ?_
  rw [gt_iff_lt, size_lt_iff, hoffset]
  exact Nat.not_lt.mpr h

theorem create_of_lt (h : dst.bytes.length < offset.toNat + 8) (actingVersion : UInt64) :
    MessageHeader.create offset dst.size actingVersion =
      .error (.runtimeError "buffer too short for flyweight [E107]") :=
  if_pos ((size_lt_iff _).mpr (hoffset ▸ h))

end Header

/-- The header is written, and then the position behind the tick is checked. -/
theorem wrapAndApplyHeader_run_at (order : ByteOrder) (dst : Span) {offset : UInt64}
    (hoffset : (offset + 8).toNat = offset.toNat + 8)
    (hlen : offset.toNat + 8 ≤ dst.bytes.length) :
    (Tick.wrapAndApplyHeader order offset dst.size).run dst.bytes =
      ((fun _ => wrappedTick offset dst.size) <$> Tick.sbeCheckPosition dst.size
        (wrappedTick offset dst.size).position, withHeader dst.bytes offset.toNat) := by
  have hstart : (dst.bytes.take offset.toNat).length = offset.toNat :=
    List.length_take_of_le (by omega)
  have hsplit : dst.bytes = dst.bytes.take offset.toNat ++ dst.bytes.drop (offset.toNat + 0) :=
    (List.take_append_drop _ _).symm
  rw [Tick.wrapAndApplyHeader, create_of_le hoffset hlen, Effect.run_bind_lift_ok]
  refine (congrArg (Effect.run _) hsplit).trans ?_
  refine (setField_bind_run (n := 2) _ hstart (by omega)).trans ?_
  refine (setField_bind_run (p := offset.toNat + 2) (n := 2) _ (by simp; omega) (by omega)).trans ?_
  refine (setField_bind_run (p := offset.toNat + 4) (n := 2) _ (by simp; omega) (by omega)).trans ?_
  refine (setField_bind_run (p := offset.toNat + 6) (n := 2) _ (by simp; omega) (by omega)).trans ?_
  have hheader (a c : List UInt8) : a ++ leBytes 2 24 ++ leBytes 2 1 ++ leBytes 2 77 ++
      leBytes 2 0 ++ c = a ++ (schemaHeader.bytes ++ c) := by
    simp only [bytes_schemaHeader, wireHeader, List.append_assoc]
  cases hposition : Tick.sbeCheckPosition dst.size (wrappedTick offset dst.size).position with
  | ok position =>
    obtain rfl : (wrappedTick offset dst.size).position = position := by
      rw [Tick.sbeCheckPosition] at hposition
      split_ifs at hposition
      exact Except.ok.inj hposition
    refine (Effect.run_bind_ok (congrArg (fun e => (e, _)) hposition)).trans ?_
    exact congrArg (Prod.mk _) (hheader _ _)
  | error e =>
    refine (Effect.run_bind_error (congrArg (fun e => (e, _)) hposition)).trans ?_
    exact congrArg (Prod.mk _) (hheader _ _)

/-- **Wrapping for encoding.** At any offset that leaves room for a message in `std::uint64_t`: if
the message ends in the buffer, its header is written, and the flyweights read it and the tick that
has been there; if only the header does, it is written, and then the wrap throws; else the wrap
throws and writes nothing. -/
theorem wrapAndApplyHeader_cases (order : ByteOrder) (dst : Span) {offset : UInt64}
    (h : offset.toNat + 32 < 2 ^ 64) :
    (offset.toNat + 32 ≤ dst.bytes.length ∧ ∃ f : Flyweights,
      f.start = offset.toNat ∧ f.Fits (withHeader dst.bytes offset.toNat) ∧
      (Tick.wrapAndApplyHeader order offset dst.size).run dst.bytes =
        (.ok f.tick, withHeader dst.bytes offset.toNat) ∧
      ∀ order', f.read order' (withHeader dst.bytes offset.toNat) =
        .ok { messageAt dst.bytes offset.toNat with header := schemaHeader }) ∨
    (dst.bytes.length < offset.toNat + 32 ∧ offset.toNat + 8 ≤ dst.bytes.length ∧
      (Tick.wrapAndApplyHeader order offset dst.size).run dst.bytes =
        (.error (.runtimeError "buffer too short [E100]"), withHeader dst.bytes offset.toNat)) ∨
    (dst.bytes.length < offset.toNat + 8 ∧
      (Tick.wrapAndApplyHeader order offset dst.size).run dst.bytes =
        (.error (.runtimeError "buffer too short for flyweight [E107]"), dst.bytes)) := by
  have hoffset : (offset + 8).toNat = offset.toNat + 8 := by
    rw [UInt64.toNat_add]
    exact Nat.mod_eq_of_lt (show offset.toNat + 8 < 2 ^ 64 by omega)
  have hposition : (offset + 8 + 24).toNat = offset.toNat + 32 := by
    rw [UInt64.toNat_add, hoffset]
    exact Nat.mod_eq_of_lt (show offset.toNat + 8 + 24 < 2 ^ 64 by omega)
  rcases Nat.lt_or_ge dst.bytes.length (offset.toNat + 8) with hheader | hheader
  · -- the constructor of the header throws
    refine .inr (.inr ⟨hheader, ?_⟩)
    rw [Tick.wrapAndApplyHeader, create_of_lt hoffset hheader]
    rfl
  have hrun := wrapAndApplyHeader_run_at order dst hoffset hheader
  rcases Nat.lt_or_ge dst.bytes.length (offset.toNat + 32) with hbody | hbody
  · -- the check of the position behind the tick throws
    refine .inr (.inl ⟨hbody, hheader, hrun.trans ?_⟩)
    have hlt : dst.size < offset + 8 + 24 := (size_lt_iff _).mpr (hposition ▸ hbody)
    exact congrArg (fun e => (Functor.map _ e, _))
      (sbeCheckPosition_of_not_le (UInt64.not_le.mpr hlt))
  · have hle : offset + 8 + 24 ≤ dst.size := by
      rw [← UInt64.not_lt, size_lt_iff, hposition]
      exact Nat.not_lt.mpr hbody
    let f : Flyweights :=
      { hdr := { bufferLength := dst.size, offset }
        tick := wrappedTick offset dst.size
        tick_offset := hoffset }
    have hfits : f.Fits (withHeader dst.bytes offset.toNat) := by
      have hlen : (withHeader dst.bytes offset.toNat).length = dst.bytes.length := by
        simp only [withHeader, List.length_append, List.length_take, List.length_drop,
          HeaderValues.length_bytes]
        omega
      exact (congrArg (offset.toNat + 32 ≤ ·) hlen).mpr hbody
    refine .inl ⟨hbody, f, rfl, hfits, hrun.trans ?_, fun order' => ?_⟩
    · exact congrArg (fun e => (Functor.map _ e, _)) (sbeCheckPosition_of_le hle)
    · exact (Flyweights.read_of_fits order' hfits).trans
        (congrArg Except.ok (messageAt_withHeader hbody))

/-- A buffer of eighty bytes. -/
def eightyBytes : Span where
  bytes := List.replicate 80 0
  length_lt := by decide

/-- At offset `40` of a buffer of eighty bytes there is room for a message, and at offset `60` for
a header. -/
theorem wrapAndApplyHeader_cases_eighty :
    (∃ f : Flyweights, (Tick.wrapAndApplyHeader .big 40 eightyBytes.size).run eightyBytes.bytes =
      (.ok f.tick, withHeader eightyBytes.bytes 40)) ∧
    (Tick.wrapAndApplyHeader .big 60 eightyBytes.size).run eightyBytes.bytes =
      (.error (.runtimeError "buffer too short [E100]"), withHeader eightyBytes.bytes 60) := by
  have hforty : (40 : UInt64).toNat + 32 < 2 ^ 64 := by decide
  have hsixty : (60 : UInt64).toNat + 32 < 2 ^ 64 := by decide
  refine ⟨?_, ?_⟩
  · rcases wrapAndApplyHeader_cases .big eightyBytes hforty with
      ⟨-, f, -, -, hrun, -⟩ | ⟨hlt, -⟩ | ⟨hlt, -⟩
    · exact ⟨f, hrun⟩
    all_goals exact absurd hlt (by decide)
  · rcases wrapAndApplyHeader_cases .big eightyBytes hsixty with
      ⟨hle, -⟩ | ⟨-, -, hrun⟩ | ⟨hlt, -⟩
    · exact absurd hle (by decide)
    · exact hrun
    · exact absurd hlt (by decide)

end SystemsStack.Sbe
