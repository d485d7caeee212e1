import SystemsStack.Sbe.Wire

/-!
# What `decode_tick` does with an arbitrary buffer

The buffer decides between five outcomes: too short for a header, a header of another message, a
block that the header says to end behind the buffer, a body that is cut off, and a body that can
be read. The second bound comes from the block length of the header, the last from the fixed
twenty-four bytes that the getters read: with a block length below twenty-four the getters leave
the block, and can leave the buffer.

## Main definitions

* `SystemsStack.Sbe.IsTickHeader`: the header names the schema and the template of the tick.

## Main results

* `SystemsStack.Sbe.decodeTick_of_short`, `SystemsStack.Sbe.decodeTick_of_not_isTickHeader`,
  `SystemsStack.Sbe.decodeTick_of_blockLength`, `SystemsStack.Sbe.decodeTick_of_cut`,
  `SystemsStack.Sbe.decodeTick_of_le`: the five outcomes.
* `SystemsStack.Sbe.decodeTick_inBounds_iff`: when all reads stay in the buffer.
* `SystemsStack.Sbe.decodeTick_contract_iff`: when the answer is the one the comment promises.

## References

* `include/ll/sbe_codec.hpp`, lines 42–64; `generated/sbe/market_sbe/Tick.h`, lines 240–274.
-/

namespace SystemsStack.Sbe

open Core

variable {order : ByteOrder} {src : Span} {out : TickValues}

/-! ### The header -/

/-- The header of the buffer names the schema and the template of the tick. -/
def IsTickHeader (bytes : List UInt8) : Prop :=
  wireSchemaId bytes = 77 ∧ wireTemplateId bytes = 1

instance (bytes : List UInt8) : Decidable (IsTickHeader bytes) :=
  inferInstanceAs (Decidable (_ ∧ _))

theorem size_lt_iff (n : UInt64) : src.size < n ↔ src.bytes.length < n.toNat := by
  rw [UInt64.lt_iff_toNat_lt, Span.toNat_size]

theorem getField_eq {bytes : List UInt8} {p n : ℕ} (h : p + n ≤ bytes.length) :
    getField order bytes p n = .ok (wireField bytes p n) :=
  getField_of_le h

theorem create_zero (h : 8 ≤ src.bytes.length) (v : UInt64) :
    MessageHeader.create 0 src.size v =
      .ok { bufferLength := src.size, offset := 0, actingVersion := v } := by
  refine if_neg fun hlt => ?_
  have hlt : src.size < 8 := hlt
  rw [size_lt_iff] at hlt
  exact absurd h (Nat.not_le.mpr hlt)

theorem toNat_wireField_two (bytes : List UInt8) (p : ℕ) :
    (UInt16.ofNat (wireField bytes p 2)).toNat = wireField bytes p 2 :=
  UInt16.toNat_ofNat_of_lt' wireField_lt

variable {hdr : MessageHeader}

theorem headerMismatch_eq (h : 8 ≤ src.bytes.length) (hoff : hdr.offset = 0) :
    headerMismatch order hdr src.bytes = .ok (decide ¬IsTickHeader src.bytes) := by
  have hschema : hdr.schemaId order src.bytes = .ok (.ofNat (wireSchemaId src.bytes)) := by
    rw [MessageHeader.schemaId, hoff, getField_eq (by simpa using by omega)]
    rfl
  have htemplate : hdr.templateId order src.bytes = .ok (.ofNat (wireTemplateId src.bytes)) := by
    rw [MessageHeader.templateId, hoff, getField_eq (by simpa using by omega)]
    rfl
  have hs : UInt16.ofNat (wireSchemaId src.bytes) = Tick.sbeSchemaId ↔
      wireSchemaId src.bytes = 77 := by
    rw [← UInt16.toNat_inj, wireSchemaId, toNat_wireField_two]
    rfl
  have ht : UInt16.ofNat (wireTemplateId src.bytes) = Tick.sbeTemplateId ↔
      wireTemplateId src.bytes = 1 := by
    rw [← UInt16.toNat_inj, wireTemplateId, toNat_wireField_two]
    rfl
  rw [headerMismatch, hschema, htemplate]
  simp only [bind, Except.bind, pure, Except.pure, ne_eq, hs, ht, IsTickHeader]
  by_cases h77 : wireSchemaId src.bytes = 77 <;> simp [h77]

theorem blockLength_eq (h : 8 ≤ src.bytes.length) (hoff : hdr.offset = 0) :
    hdr.blockLength order src.bytes = .ok (.ofNat (wireBlockLength src.bytes)) := by
  rw [MessageHeader.blockLength, hoff, getField_eq (by simpa using by omega)]
  rfl

theorem version_eq (h : 8 ≤ src.bytes.length) (hoff : hdr.offset = 0) :
    hdr.version order src.bytes = .ok (.ofNat (wireVersion src.bytes)) := by
  rw [MessageHeader.version, hoff, getField_eq (by simpa using by omega)]
  rfl

/-- The check that the block of the header ends in the buffer does not wrap around. -/
theorem position_gt_iff (bytes : List UInt8) :
    MessageHeader.encodedLength + (UInt16.ofNat (wireBlockLength bytes)).toUInt64 > src.size ↔
      src.bytes.length < 8 + wireBlockLength bytes := by
  have hlt : wireBlockLength bytes < 256 ^ 2 := wireField_lt
  rw [gt_iff_lt, size_lt_iff, UInt64.toNat_add, UInt16.toNat_toUInt64, wireBlockLength,
    toNat_wireField_two, Nat.mod_eq_of_lt]
  · rfl
  · exact Nat.lt_of_lt_of_le (Nat.add_lt_add_left hlt _) (by decide)

/-! ### The body -/

section Body

variable {tick : Tick} (mem : List UInt8) (hoff : tick.offset = 8)
include hoff

theorem getField_body {k n : ℕ} (h : 8 + k + n ≤ mem.length) :
    getField order mem (tick.offset.toNat + k) n = .ok (wireField mem (8 + k) n) := by
  rw [hoff]
  exact getField_eq h

theorem getField_body_of_lt {k n : ℕ} (h : mem.length < 8 + k + n) :
    getField order mem (tick.offset.toNat + k) n =
      .error (.outOfBounds (max (8 + k) mem.length)) := by
  rw [hoff]
  exact getField_of_lt h

/-- A body that is not cut off is read as the wire format says. -/
theorem decodeFields_of_le (h : 32 ≤ mem.length) :
    (decodeFields order tick mem).run out = (.ok (), wireTick mem) := by
  rw [decodeFields, Tick.instrumentId, Tick.priceTicks, Tick.qty, Tick.seq, Tick.tsNs,
    getField_body mem hoff (by omega), getField_body mem hoff (by omega),
    getField_body mem hoff (by omega), getField_body mem hoff (by omega),
    getField_body mem hoff (by omega)]
  rfl

/-- In a body that is cut off, the first getter that needs the missing bytes reads behind the
buffer. -/
theorem decodeFields_of_cut (h : mem.length < 32) :
    ∃ p out', mem.length ≤ p ∧
      (decodeFields order tick mem).run out = (.error (.outOfBounds p), out') := by
  rw [decodeFields, Tick.instrumentId, Tick.priceTicks, Tick.qty, Tick.seq, Tick.tsNs]
  by_cases h₁ : mem.length < 12
  · rw [getField_body_of_lt mem hoff (k := 0) (by omega)]
    exact ⟨_, _, Nat.le_max_right _ _, rfl⟩
  rw [getField_body mem hoff (k := 0) (by omega)]
  by_cases h₂ : mem.length < 16
  · rw [getField_body_of_lt mem hoff (k := 4) (by omega)]
    exact ⟨_, _, Nat.le_max_right _ _, rfl⟩
  rw [getField_body mem hoff (k := 4) (by omega)]
  by_cases h₃ : mem.length < 20
  · rw [getField_body_of_lt mem hoff (k := 8) (by omega)]
    exact ⟨_, _, Nat.le_max_right _ _, rfl⟩
  rw [getField_body mem hoff (k := 8) (by omega)]
  by_cases h₄ : mem.length < 24
  · rw [getField_body_of_lt mem hoff (k := 12) (by omega)]
    exact ⟨_, _, Nat.le_max_right _ _, rfl⟩
  rw [getField_body mem hoff (k := 12) (by omega),
    getField_body_of_lt mem hoff (k := 16) (by omega)]
  exact ⟨_, _, Nat.le_max_right _ _, rfl⟩

end Body

/-! ### The five outcomes -/

section Outcomes

variable (order out)

/-- A buffer without a header is refused. -/
theorem decodeTick_of_short (h : src.bytes.length < 8) :
    (decodeTick order src).run out = (.ok false, out) := by
  rw [decodeTick, if_pos ((size_lt_iff _).mpr h)]
  rfl

/-- What is left of `decode_tick` once the header has been read. -/
theorem decodeTick_of_header (h : 8 ≤ src.bytes.length) :
    ∃ hdr : MessageHeader, hdr.offset = 0 ∧ (decodeTick order src).run out =
      (if ¬IsTickHeader src.bytes then pure false
      else do
        let blockLength ← hdr.blockLength order src.bytes
        let version ← hdr.version order src.bytes
        let tick ← Tick.wrapForDecode MessageHeader.encodedLength blockLength.toUInt64
          version.toUInt64 src.size
        decodeFields order tick src.bytes
        return true : Effect TickValues Bool).run out := by
  refine ⟨⟨src.size, 0, Tick.sbeSchemaVersion.toUInt64⟩, rfl, ?_⟩
  have hsize : ¬src.size < MessageHeader.encodedLength := fun hlt =>
    absurd h (Nat.not_le.mpr ((size_lt_iff _).mp hlt))
  rw [decodeTick, if_neg hsize, create_zero h]
  simp only [Effect.run_bind_lift_ok, headerMismatch_eq h, decide_eq_true_eq]

/-- The header of another message is refused. -/
theorem decodeTick_of_not_isTickHeader (h : 8 ≤ src.bytes.length)
    (hid : ¬IsTickHeader src.bytes) : (decodeTick order src).run out = (.ok false, out) := by
  obtain ⟨hdr, -, hrun⟩ := decodeTick_of_header order out h
  rw [hrun, if_pos hid]
  rfl

/-- A block that ends behind the buffer throws. -/
theorem decodeTick_of_blockLength (h : 8 ≤ src.bytes.length) (hid : IsTickHeader src.bytes)
    (hblock : src.bytes.length < 8 + wireBlockLength src.bytes) :
    (decodeTick order src).run out =
      (.error (.runtimeError "buffer too short [E100]"), out) := by
  obtain ⟨hdr, hoff, hrun⟩ := decodeTick_of_header order out h
  rw [hrun, if_neg (not_not_intro hid), blockLength_eq h hoff, version_eq h hoff,
    Effect.run_bind_lift_ok, Effect.run_bind_lift_ok, Tick.wrapForDecode, Tick.sbeCheckPosition,
    if_pos ((position_gt_iff _).mpr hblock)]
  rfl

theorem wrapForDecode_of_le (hblock : 8 + wireBlockLength src.bytes ≤ src.bytes.length)
    (version : UInt64) : ∃ tick : Tick, tick.offset = 8 ∧
      Tick.wrapForDecode MessageHeader.encodedLength
        (UInt16.ofNat (wireBlockLength src.bytes)).toUInt64 version src.size = .ok tick := by
  have hcheck : ¬MessageHeader.encodedLength +
      (UInt16.ofNat (wireBlockLength src.bytes)).toUInt64 > src.size :=
    mt (position_gt_iff src.bytes).mp (Nat.not_lt.mpr hblock)
  rw [Tick.wrapForDecode, Tick.sbeCheckPosition, if_neg hcheck]
  exact ⟨_, rfl, rfl⟩

/-- A block that ends in the buffer is read field by field. -/
theorem decodeTick_of_body (h : 8 ≤ src.bytes.length) (hid : IsTickHeader src.bytes)
    (hblock : 8 + wireBlockLength src.bytes ≤ src.bytes.length) :
    ∃ tick : Tick, tick.offset = 8 ∧ (decodeTick order src).run out =
      (do decodeFields order tick src.bytes; return true : Effect TickValues Bool).run out := by
  obtain ⟨hdr, hoff, hrun⟩ := decodeTick_of_header order out h
  obtain ⟨tick, htick, hwrap⟩ :=
    wrapForDecode_of_le hblock (UInt16.ofNat (wireVersion src.bytes)).toUInt64
  refine ⟨tick, htick, ?_⟩
  rw [hrun, if_neg (not_not_intro hid), blockLength_eq h hoff, version_eq h hoff,
    Effect.run_bind_lift_ok, Effect.run_bind_lift_ok, hwrap, Effect.run_bind_lift_ok]

/-- **A body in the buffer is decoded**, whatever the block length says. -/
theorem decodeTick_of_le (hid : IsTickHeader src.bytes)
    (hblock : 8 + wireBlockLength src.bytes ≤ src.bytes.length) (h : 32 ≤ src.bytes.length) :
    (decodeTick order src).run out = (.ok true, wireTick src.bytes) := by
  obtain ⟨tick, hoff, hrun⟩ := decodeTick_of_body order out (by omega) hid hblock
  rw [hrun, Effect.run_bind_ok (decodeFields_of_le src.bytes hoff h), Effect.run_pure]

/-- **A body that is cut off is read behind the buffer**, when the block length does not
tell. -/
theorem decodeTick_of_cut (hid : IsTickHeader src.bytes)
    (hblock : 8 + wireBlockLength src.bytes ≤ src.bytes.length) (h : src.bytes.length < 32) :
    ∃ p out', src.bytes.length ≤ p ∧
      (decodeTick order src).run out = (.error (.outOfBounds p), out') := by
  obtain ⟨tick, hoff, hrun⟩ := decodeTick_of_body order out (by omega) hid hblock
  have ⟨p, out', hp, hfields⟩ : ∃ p out', src.bytes.length ≤ p ∧
      (decodeFields order tick src.bytes).run out = (.error (.outOfBounds p), out') :=
    decodeFields_of_cut src.bytes hoff h
  refine ⟨p, out', hp, ?_⟩
  rw [hrun, Effect.run_bind_error hfields]

end Outcomes

/-! ### Reads in bounds -/

/-- **When every read stays in the buffer.** The reads of `decode_tick` leave the buffer exactly
when the header is that of a tick, the block ends in the buffer, and the buffer is shorter than a
message. -/
theorem decodeTick_inBounds_iff (order : ByteOrder) (src : Span) (out : TickValues) :
    (∀ p, ((decodeTick order src).run out).1 ≠ .error (.outOfBounds p)) ↔
      src.bytes.length < 8 ∨ wireSchemaId src.bytes ≠ 77 ∨ wireTemplateId src.bytes ≠ 1 ∨
        src.bytes.length < 8 + wireBlockLength src.bytes ∨ 32 ≤ src.bytes.length := by
  constructor
  · intro hbounds
    by_contra hcond
    simp only [not_or, ne_eq, not_not, Nat.not_lt, Nat.not_le] at hcond
    obtain ⟨-, hschema, htemplate, hblock, hlen⟩ := hcond
    obtain ⟨p, out', -, hrun⟩ := decodeTick_of_cut order out ⟨hschema, htemplate⟩ hblock hlen
    exact hbounds p (by rw [hrun])
  · intro hcond p
    by_cases hshort : src.bytes.length < 8
    · simp [decodeTick_of_short order out hshort]
    have hlen := Nat.le_of_not_lt hshort
    by_cases hid : IsTickHeader src.bytes
    · by_cases hblock : src.bytes.length < 8 + wireBlockLength src.bytes
      · simp [decodeTick_of_blockLength order out hlen hid hblock]
      · have h32 : 32 ≤ src.bytes.length := by
          rcases hcond with h | h | h | h | h
          · exact absurd h hshort
          · exact absurd hid.1 h
          · exact absurd hid.2 h
          · exact absurd h hblock
          · exact h
        simp [decodeTick_of_le order out hid (Nat.le_of_not_lt hblock) h32]
    · simp [decodeTick_of_not_isTickHeader order out hlen hid]

/-- Eight bytes, the header of a tick with an empty block. -/
def emptyBlock : Span where
  bytes := [0, 0, 1, 0, 77, 0, 0, 0]
  length_lt := by decide

/-- The first getter reads behind a header with an empty block. -/
theorem decodeTick_emptyBlock : ¬ ∀ order src out p,
    ((decodeTick order src).run out).1 ≠ .error (.outOfBounds p) := by
  intro h
  exact h .little emptyBlock {} 8 (by decide)

/-! ### The contract -/

/-- What the comment of `decode_tick` promises: it returns, it accepts exactly the buffers with
the header of a tick and a block that holds the body and ends in the buffer, and it leaves `out`
alone unless it accepts. -/
def MeetsContract (order : ByteOrder) (src : Span) (out : TickValues) : Prop :=
  ∃ b out', (decodeTick order src).run out = (.ok b, out') ∧
    (b = true ↔ 8 ≤ src.bytes.length ∧ wireSchemaId src.bytes = 77 ∧
      wireTemplateId src.bytes = 1 ∧ 24 ≤ wireBlockLength src.bytes ∧
      wireBlockLength src.bytes ≤ src.bytes.length - 8) ∧
    (b ≠ true → out' = out)

/-- **When the contract is met.** It is broken exactly by the header of a tick whose block is
shorter than the body or ends behind the buffer. -/
theorem decodeTick_contract_iff (order : ByteOrder) (src : Span) (out : TickValues) :
    MeetsContract order src out ↔
      src.bytes.length < 8 ∨ wireSchemaId src.bytes ≠ 77 ∨ wireTemplateId src.bytes ≠ 1 ∨
        (24 ≤ wireBlockLength src.bytes ∧
          8 + wireBlockLength src.bytes ≤ src.bytes.length) := by
  by_cases hshort : src.bytes.length < 8
  · have hrun : (decodeTick order src).run out = (.ok false, out) :=
      decodeTick_of_short order out hshort
    refine iff_of_true ⟨false, out, hrun, ?_, fun _ => rfl⟩ (.inl hshort)
    exact iff_of_false nofun fun hacc => absurd hshort (Nat.not_lt.mpr hacc.1)
  have hlen := Nat.le_of_not_lt hshort
  by_cases hid : IsTickHeader src.bytes
  · have ⟨hschema, htemplate⟩ := hid
    simp only [hshort, hschema, htemplate, ne_eq, not_true, false_or]
    constructor
    · rintro ⟨b, out', hrun, hb, -⟩
      by_cases hblock : src.bytes.length < 8 + wireBlockLength src.bytes
      · simp [decodeTick_of_blockLength order out hlen hid hblock] at hrun
      have hblock := Nat.le_of_not_lt hblock
      by_cases h32 : src.bytes.length < 32
      · obtain ⟨p, out'', -, hcut⟩ := decodeTick_of_cut order out hid hblock h32
        simp [hcut] at hrun
      · rw [decodeTick_of_le order out hid hblock (Nat.le_of_not_lt h32)] at hrun
        obtain ⟨hacc, -⟩ := Prod.mk.inj hrun
        have hacc := hb.mp (Except.ok.inj hacc).symm
        exact ⟨hacc.2.2.2.1, hblock⟩
    · rintro ⟨h24, hblock⟩
      refine ⟨true, _, decodeTick_of_le order out hid hblock (by omega), ?_, fun h => absurd rfl h⟩
      exact iff_of_true rfl ⟨hlen, hschema, htemplate, h24, by omega⟩
  · have hmismatch : wireSchemaId src.bytes ≠ 77 ∨ wireTemplateId src.bytes ≠ 1 :=
      Decidable.not_and_iff_or_not.mp hid
    refine iff_of_true
      ⟨false, out, decodeTick_of_not_isTickHeader order out hlen hid, ?_, fun _ => rfl⟩
      (.inr (hmismatch.elim .inl fun h => .inr (.inl h)))
    exact iff_of_false nofun fun hacc => hid ⟨hacc.2.1, hacc.2.2.1⟩

/-- A message without its last byte. -/
def cutMessage : Span where
  bytes := (wireMessage {}).take 31
  length_lt := by decide

/-- A message without its last byte throws, where the comment promises `false`. -/
theorem not_meetsContract_cutMessage : ¬ ∀ order src out, MeetsContract order src out := by
  intro h
  obtain ⟨b, out', hrun, -⟩ := h .little cutMessage {}
  rw [decodeTick_of_blockLength _ _ (by decide) (by decide) (by decide)] at hrun
  exact absurd (Prod.mk.inj hrun).1 nofun

end SystemsStack.Sbe
