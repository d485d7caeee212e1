import SystemsStack.Core.Delimiters
import SystemsStack.Core.TransitionSystem
import SystemsStack.Sbe.Accessors

/-!
# A tick in use

A flyweight is an object that is wrapped again and again. Wrapping assigns to the members before it
checks where the body ends, so that an exception leaves the object with the members of the wrap that
has failed. This file follows an object through any calls, and says which of them still return
(`SystemsStack.Sbe.tickObject_usable`): as long as the last wrap has returned, rewinding and
measuring do; after a wrap that has thrown, they throw again, until a wrap returns.

The insertion of a tick into a stream makes a flyweight of its own first. What it then prints tells
the values of the message, whatever the byte order of the host (`SystemsStack.Sbe.insert_tells`).

## Main definitions

* `SystemsStack.Sbe.TickCall`, `SystemsStack.Sbe.tickObject`: the runs of an object.
* `SystemsStack.Sbe.Tick.decodeLength`, `SystemsStack.Sbe.Tick.insert`.

## Main results

* `SystemsStack.Sbe.tickObject_usable`, `SystemsStack.Sbe.insert_tells`.

## References

* `generated/sbe/market_sbe/Tick.h`, lines 140–302 and 628–672.
-/

namespace SystemsStack.Sbe

open Core

namespace Tick

/-! ### Members -/

/-- The constructor over a buffer; it checks where the body ends. -/
def create (offset bufferLength actingBlockLength actingVersion : UInt64) : Except Fault Tick := do
  let position ← sbeCheckPosition bufferLength (offset + actingBlockLength)
  return { bufferLength, offset, position, actingBlockLength, actingVersion }

/-- Assign to the members, then check where the body ends; an exception leaves the members
assigned. -/
def wrap (offset actingBlockLength actingVersion bufferLength : UInt64) : Effect Tick Unit :=
  fun tick =>
    let tick := { tick with bufferLength, offset, actingBlockLength, actingVersion }
    match sbeCheckPosition tick.bufferLength (tick.offset + tick.actingBlockLength) with
    | .ok position => (.ok (), { tick with position })
    | .error e => (.error e, tick)

variable (tick : Tick)

/-- `wrapAndApplyHeader`, as far as the members go: the constructor of the header may throw
first. -/
def wrapBehindHeader (offset bufferLength : UInt64) : Effect Tick Unit := fun tick =>
  match MessageHeader.create offset bufferLength sbeSchemaVersion.toUInt64 with
  | .ok _ =>
      (wrap (offset + MessageHeader.encodedLength) sbeBlockLength.toUInt64
        sbeSchemaVersion.toUInt64 bufferLength).run tick
  | .error e => (.error e, tick)

/-- Wrap the same body again. -/
def sbeRewind : Effect Tick Unit := fun tick =>
  (wrap tick.offset tick.actingBlockLength tick.actingVersion tick.bufferLength).run tick

/-- The setter `sbePosition`. -/
def setPosition (position : UInt64) : Effect Tick Unit := fun tick =>
  match sbeCheckPosition tick.bufferLength position with
  | .ok position => (.ok (), { tick with position })
  | .error e => (.error e, tick)

def encodedLength : UInt64 := tick.position - tick.offset

/-- The length of the body, measured by a flyweight that skips it. -/
def decodeLength : Except Fault UInt64 := do
  let skipper ← create tick.offset tick.bufferLength tick.actingBlockLength tick.actingVersion
  return skipper.encodedLength

/-! ### Insertion into a stream -/

/-- An integer in decimal notation. -/
def decimal (z : ℤ) : List Char :=
  if z < 0 then '-' :: Nat.toDigits 10 z.natAbs else Nat.toDigits 10 z.natAbs

/-- What is printed for the values. -/
def text (v : TickValues) : List Char :=
  "\x7b\"Name\": \"Tick\", \"sbeTemplateId\": ".toList ++ decimal sbeTemplateId.toNat ++
    ", \"instrumentId\": ".toList ++ (decimal v.instrumentId.toNat ++
    ", \"priceTicks\": ".toList ++ (decimal v.priceTicks.toInt ++
    ", \"qty\": ".toList ++ (decimal v.qty.toNat ++
    ", \"seq\": ".toList ++ (decimal v.seq.toNat ++
    ", \"tsNs\": ".toList ++ (decimal v.tsNs.toNat ++ "\x7d".toList)))))

variable (order : ByteOrder) (mem : List UInt8)

/-- Call all getters. -/
def read : Except Fault TickValues := do
  let instrumentId ← tick.instrumentId order mem
  let priceTicks ← tick.priceTicks order mem
  let qty ← tick.qty order mem
  let seq ← tick.seq order mem
  let tsNs ← tick.tsNs order mem
  return { instrumentId, priceTicks, qty, seq, tsNs }

/-- `operator<<`: what it prints, if it returns. -/
def insert : Except Fault (List Char) := do
  let writer ← create tick.offset tick.bufferLength tick.actingBlockLength tick.actingVersion
  let instrumentId ← writer.instrumentId order mem
  let priceTicks ← writer.priceTicks order mem
  let qty ← writer.qty order mem
  let seq ← writer.seq order mem
  let tsNs ← writer.tsNs order mem
  return text { instrumentId, priceTicks, qty, seq, tsNs }

/-- The body ends in the buffer, as words have it. -/
def BodyFits : Prop := tick.offset + tick.actingBlockLength ≤ tick.bufferLength

instance : Decidable tick.BodyFits :=
  inferInstanceAs (Decidable (tick.offset + tick.actingBlockLength ≤ tick.bufferLength))

end Tick

/-! ### Runs of an object -/

/-- The calls that change the members. -/
inductive TickCall where
  | wrapForEncode (offset bufferLength : UInt64)
  | wrapAndApplyHeader (offset bufferLength : UInt64)
  | wrapForDecode (offset actingBlockLength actingVersion bufferLength : UInt64)
  | sbeRewind
  | setPosition (position : UInt64)
  deriving DecidableEq, Repr

/-- What a call does. -/
def TickCall.run : TickCall → Effect Tick Unit
  | wrapForEncode offset bufferLength =>
      Tick.wrap offset Tick.sbeBlockLength.toUInt64 Tick.sbeSchemaVersion.toUInt64 bufferLength
  | wrapAndApplyHeader offset bufferLength => Tick.wrapBehindHeader offset bufferLength
  | wrapForDecode offset actingBlockLength actingVersion bufferLength =>
      Tick.wrap offset actingBlockLength actingVersion bufferLength
  | sbeRewind => Tick.sbeRewind
  | setPosition position => Tick.setPosition position

/-- The call gets to assign the members of another body. -/
def TickCall.wraps : TickCall → Bool
  | wrapForEncode _ _ | wrapForDecode _ _ _ _ => true
  | wrapAndApplyHeader offset bufferLength =>
      (MessageHeader.create offset bufferLength Tick.sbeSchemaVersion.toUInt64).isOk
  | sbeRewind | setPosition _ => false

/-- An object, and whether the last call that has assigned a body has returned. -/
structure TickState where
  tick : Tick := {}
  wrapped : Bool := true
  deriving DecidableEq

/-- The runs of an object that is constructed without a buffer. -/
def tickObject : TransitionSystem TickState TickCall where
  init := {}
  step s call :=
    let (result, tick) := call.run.run s.tick
    some { tick, wrapped := if call.wraps then result.isOk else s.wrapped }

/-- What holds of an object between calls. -/
structure Settled (s : TickState) : Prop where
  wrapped : s.wrapped = true ↔ s.tick.BodyFits
  position : s.wrapped = true → s.tick.position ≤ s.tick.bufferLength

/-- The exception of every check. -/
def tooShort : Fault := .runtimeError "buffer too short [E100]"

section Runs

variable {s : TickState}

/-- Wrapping sets the members, and returns if and only if the body fits. -/
theorem wrap_run (tick : Tick) (offset actingBlockLength actingVersion bufferLength : UInt64) :
    (Tick.wrap offset actingBlockLength actingVersion bufferLength).run tick =
      if offset + actingBlockLength ≤ bufferLength then
        (.ok (), { bufferLength, offset, position := offset + actingBlockLength, actingBlockLength,
                   actingVersion })
      else
        (.error tooShort, { bufferLength, offset, position := tick.position, actingBlockLength,
                            actingVersion }) := by
  rw [Effect.run, Tick.wrap]
  split_ifs with hfits
  · simp only [sbeCheckPosition_of_le hfits]
  · simp only [sbeCheckPosition_of_not_le hfits]
    rfl

theorem sbeRewind_run (tick : Tick) : Tick.sbeRewind.run tick =
    if tick.BodyFits then
      (.ok (), { tick with position := tick.offset + tick.actingBlockLength })
    else (.error tooShort, tick) :=
  wrap_run ..

theorem create_eq (tick : Tick) :
    Tick.create tick.offset tick.bufferLength tick.actingBlockLength tick.actingVersion =
      if tick.BodyFits then .ok { tick with position := tick.offset + tick.actingBlockLength }
      else .error tooShort := by
  rw [Tick.create]
  split_ifs with hfits
  · rw [sbeCheckPosition_of_le hfits]
    rfl
  · rw [sbeCheckPosition_of_not_le hfits]
    rfl

/-- The flyweight that is wrapped from nothing is the object after the call. -/
theorem wrapForDecode_eq (tick : Tick)
    (offset actingBlockLength actingVersion bufferLength : UInt64) :
    Tick.wrapForDecode offset actingBlockLength actingVersion bufferLength =
      (fun _ => ((Tick.wrap offset actingBlockLength actingVersion bufferLength).run tick).2) <$>
        ((Tick.wrap offset actingBlockLength actingVersion bufferLength).run tick).1 := by
  rw [wrap_run, Tick.wrapForDecode]
  split_ifs with hfits
  · rw [sbeCheckPosition_of_le hfits]
    rfl
  · rw [sbeCheckPosition_of_not_le hfits]
    rfl

/-- The same for the wrap that writes a header first. -/
theorem wrapAndApplyHeader_eq (order : ByteOrder) (tick : Tick) (dst : Span) {offset : UInt64}
    (hoffset : (offset + 8).toNat = offset.toNat + 8) :
    ((Tick.wrapAndApplyHeader order offset dst.size).run dst.bytes).1 =
      (fun _ => ((Tick.wrapBehindHeader offset dst.size).run tick).2) <$>
        ((Tick.wrapBehindHeader offset dst.size).run tick).1 := by
  rcases Nat.lt_or_ge dst.bytes.length (offset.toNat + 8) with hshort | hlen
  · have hcreate := create_of_lt hoffset hshort Tick.sbeSchemaVersion.toUInt64
    rw [Tick.wrapAndApplyHeader, hcreate, Effect.run, Effect.run, Tick.wrapBehindHeader, hcreate]
    rfl
  · have hwrap : (Tick.wrapBehindHeader offset dst.size).run tick =
        (Tick.wrap (offset + MessageHeader.encodedLength) Tick.sbeBlockLength.toUInt64
          Tick.sbeSchemaVersion.toUInt64 dst.size).run tick := by
      rw [Effect.run, Tick.wrapBehindHeader, create_of_le hoffset hlen]
    rw [wrapAndApplyHeader_run_at order dst hoffset hlen, hwrap, wrap_run]
    split_ifs with hfits
    · exact congrArg (Functor.map _) (sbeCheckPosition_of_le hfits)
    · exact congrArg (Functor.map _) (sbeCheckPosition_of_not_le hfits)

/-- A call that wraps leaves a settled object, whatever the object has been. -/
theorem settled_of_wrap (tick : Tick)
    (offset actingBlockLength actingVersion bufferLength : UInt64) :
    Settled { tick := ((Tick.wrap offset actingBlockLength actingVersion bufferLength).run tick).2,
              wrapped := ((Tick.wrap offset actingBlockLength actingVersion bufferLength).run
                tick).1.isOk } := by
  rw [wrap_run]
  split_ifs with hfits
  · exact ⟨⟨fun _ => hfits, fun _ => rfl⟩, fun _ => hfits⟩
  · have hthrown : ((.error tooShort : Except Fault Unit)).isOk ≠ true := Bool.false_ne_true
    exact ⟨⟨fun h => absurd h hthrown, fun h => absurd h hfits⟩, fun h => absurd h hthrown⟩

theorem settled_isInvariant : tickObject.IsInvariant Settled where
  init := ⟨⟨fun _ => UInt64.le_refl _, fun _ => rfl⟩, fun _ => UInt64.le_refl _⟩
  step := by
    intro s call s' hs hstep
    obtain rfl := Option.some.inj hstep
    cases call with
    | wrapForEncode | wrapForDecode => exact settled_of_wrap ..
    | wrapAndApplyHeader offset bufferLength =>
      cases hcreate : MessageHeader.create offset bufferLength Tick.sbeSchemaVersion.toUInt64 with
      | ok hdr =>
        simp only [TickCall.wraps, Tick.wrapBehindHeader, Effect.run, hcreate]
        exact settled_of_wrap s.tick ..
      | error e =>
        simp only [TickCall.wraps, Tick.wrapBehindHeader, hcreate]
        exact hs
    | sbeRewind =>
      show Settled { tick := (Tick.sbeRewind.run s.tick).2, wrapped := s.wrapped }
      rw [sbeRewind_run]
      split_ifs with hfits
      · exact ⟨hs.wrapped, fun _ => hfits⟩
      · exact hs
    | setPosition position =>
      show Settled { tick := ((Tick.setPosition position).run s.tick).2, wrapped := s.wrapped }
      rw [Effect.run, Tick.setPosition]
      rcases Decidable.em (position ≤ s.tick.bufferLength) with hle | hnot
      · simp only [sbeCheckPosition_of_le hle]
        exact ⟨hs.wrapped, fun _ => hle⟩
      · simp only [sbeCheckPosition_of_not_le hnot]
        exact hs

/-- What a flyweight over a body that fits measures. -/
theorem encodedLength_of_fits (tick : Tick) :
    Tick.encodedLength { tick with position := tick.offset + tick.actingBlockLength } =
      tick.actingBlockLength := by
  rw [Tick.encodedLength, UInt64.add_comm, UInt64.add_sub_cancel]

/-- **An object in use.** After any calls, whether they have returned or thrown: if the last call
that has assigned a body has returned, the position is in the buffer, the body measures its block
length, and rewinding returns to its end; if it has thrown, measuring, inserting and rewinding throw
the same exception, and rewinding leaves the members alone. -/
theorem tickObject_usable (hs : tickObject.Reachable s) :
    (s.wrapped = true → s.tick.position ≤ s.tick.bufferLength ∧
      s.tick.decodeLength = .ok s.tick.actingBlockLength ∧
      ∃ tick, Tick.sbeRewind.run s.tick = (.ok (), tick) ∧
        tick.encodedLength = s.tick.actingBlockLength ∧ tick.position ≤ tick.bufferLength) ∧
    (s.wrapped = false → s.tick.decodeLength = .error tooShort ∧
      Tick.sbeRewind.run s.tick = (.error tooShort, s.tick) ∧
      ∀ order mem, s.tick.insert order mem = .error tooShort) := by
  have hsettled := settled_isInvariant.of_reachable hs
  refine ⟨fun hwrapped => ?_, fun hthrown => ?_⟩
  · have hfits := hsettled.wrapped.mp hwrapped
    have hcreate := (create_eq s.tick).trans (if_pos hfits)
    refine ⟨hsettled.position hwrapped, ?_, _, (sbeRewind_run s.tick).trans (if_pos hfits),
      encodedLength_of_fits s.tick, hfits⟩
    rw [Tick.decodeLength, hcreate]
    exact congrArg Except.ok (encodedLength_of_fits s.tick)
  · have hfits : ¬s.tick.BodyFits := fun h => by simp [hsettled.wrapped.mpr h] at hthrown
    have hcreate := (create_eq s.tick).trans (if_neg hfits)
    refine ⟨?_, (sbeRewind_run s.tick).trans (if_neg hfits), fun order mem => ?_⟩
    · rw [Tick.decodeLength, hcreate]
      rfl
    · rw [Tick.insert, hcreate]
      rfl

/-- A wrap that throws behind one that has returned, and a wrap that returns behind both. -/
theorem tickObject_usable_rewrapped :
    (∃ s, tickObject.run {} [.wrapForEncode 0 64, .wrapForEncode 48 64] = some s ∧
      s.tick.decodeLength = .error tooShort) ∧
    ∃ s, tickObject.run {} [.wrapForEncode 0 64, .wrapForEncode 48 64, .setPosition 64,
        .wrapForDecode 8 16 0 32] = some s ∧ s.tick.decodeLength = .ok 16 := by
  refine ⟨⟨_, rfl, ?_⟩, ⟨_, rfl, ?_⟩⟩
  · refine ((tickObject_usable ⟨[.wrapForEncode 0 64, .wrapForEncode 48 64], rfl⟩).2 ?_).1
    decide
  · refine ((tickObject_usable ⟨[.wrapForEncode 0 64, .wrapForEncode 48 64, .setPosition 64,
      .wrapForDecode 8 16 0 32], rfl⟩).1 ?_).2.1
    decide

end Runs

/-! ### What is printed -/

section Printing

theorem toDigits_injective : Function.Injective (Nat.toDigits 10) :=
  Function.LeftInverse.injective (g := fun l => Nat.ofDigitChars 10 l 0) fun _ =>
    Nat.ofDigitChars_ten_toDigits

theorem notMem_toDigits {c : Char} (hc : c.isDigit = false) (n : ℕ) : c ∉ Nat.toDigits 10 n :=
  fun h => by simp [Nat.isDigit_of_mem_toDigits (by decide) (by decide) h] at hc

/-- There is no comma in a number. -/
theorem comma_notMem_decimal (z : ℤ) : ',' ∉ Tick.decimal z := by
  have hdigits := notMem_toDigits (c := ',') rfl z.natAbs
  rw [Tick.decimal]
  split_ifs with hneg
  · exact List.not_mem_cons_of_ne_of_not_mem (by decide) hdigits
  · exact hdigits

theorem decimal_injective : Function.Injective Tick.decimal := by
  intro z z' h
  have hsign (n : ℕ) : '-' ∉ Nat.toDigits 10 n := notMem_toDigits rfl n
  rw [Tick.decimal, Tick.decimal] at h
  split_ifs at h with hneg hneg' hneg'
  · have habs := toDigits_injective (List.tail_eq_of_cons_eq h)
    omega
  · exact absurd (h ▸ List.mem_cons_self) (hsign z'.natAbs)
  · exact absurd (h ▸ List.mem_cons_self) (hsign z.natAbs)
  · have habs := toDigits_injective h
    omega

/-- The text in front of a separator that starts with a comma. -/
theorem decimal_append_inj {z z' : ℤ} {sep r r' : List Char} (hsep : sep.head? = some ',')
    (h : Tick.decimal z ++ sep ++ r = Tick.decimal z' ++ sep ++ r') : z = z' ∧ r = r' := by
  obtain ⟨rest, rfl⟩ := List.head?_eq_some_iff.mp hsep
  simp only [List.append_assoc, List.cons_append] at h
  have hboth := (append_cons_inj (comma_notMem_decimal z) (comma_notMem_decimal z')).mp h
  exact ⟨decimal_injective hboth.1, List.append_cancel_left hboth.2⟩

/-- Different values are printed as different texts. -/
theorem text_injective : Function.Injective Tick.text := by
  intro v v' h
  have h := List.append_cancel_left h
  obtain ⟨hinstrument, h⟩ := decimal_append_inj (by decide) h
  obtain ⟨hprice, h⟩ := decimal_append_inj (by decide) h
  obtain ⟨hqty, h⟩ := decimal_append_inj (by decide) h
  obtain ⟨hseq, h⟩ := decimal_append_inj (by decide) h
  have hts := decimal_injective (List.append_cancel_right h)
  cases v
  cases v'
  rw [TickValues.mk.injEq]
  exact ⟨UInt32.toNat_inj.mp (Int.ofNat_inj.mp hinstrument), Int32.toInt_inj.mp hprice,
    UInt32.toNat_inj.mp (Int.ofNat_inj.mp hqty), UInt32.toNat_inj.mp (Int.ofNat_inj.mp hseq),
    UInt64.toNat_inj.mp (Int.ofNat_inj.mp hts)⟩

variable {tick tick' : Tick} {mem mem' : List UInt8}

/-- What the getters of a body in the buffer return does not depend on the host. -/
theorem exists_read (h : tick.offset.toNat + 24 ≤ mem.length) :
    ∃ v, ∀ order, tick.read order mem = .ok v := by
  let field (k n : ℕ) : ℕ := wireField mem (tick.offset.toNat + k) n
  have hfield (order : ByteOrder) (k n : ℕ) (hk : k + n ≤ 24) :
      getField order mem (tick.offset.toNat + k) n = .ok (field k n) :=
    getField_of_le (by omega)
  refine ⟨{ instrumentId := .ofNat (field 0 4), priceTicks := (UInt32.ofNat (field 4 4)).toInt32,
            qty := .ofNat (field 8 4), seq := .ofNat (field 12 4), tsNs := .ofNat (field 16 8) },
    fun order => ?_⟩
  rw [Tick.read, Tick.instrumentId, Tick.priceTicks, Tick.qty, Tick.seq, Tick.tsNs,
    hfield order 0 4 (by decide), hfield order 4 4 (by decide), hfield order 8 4 (by decide),
    hfield order 12 4 (by decide), hfield order 16 8 (by decide)]
  rfl

/-- What is printed of a body that fits is the text of what the getters return. -/
theorem insert_of_read {order : ByteOrder} {v : TickValues} (hfits : tick.BodyFits)
    (hread : tick.read order mem = .ok v) : tick.insert order mem = .ok (Tick.text v) := by
  have hmap : tick.insert order mem = Tick.text <$> tick.read order mem := by
    rw [Tick.insert, create_eq, if_pos hfits, Tick.read]
    simp only [map_bind, map_pure]
    rfl
  rw [hmap, hread]
  rfl

/-- **Insertion into a stream.** For bodies that fit and lie in the memory behind the pointer, the
insertion returns, and prints the same on every host; what is printed for two ticks is the same if
and only if their getters return the same values. -/
theorem insert_tells (hfits : tick.BodyFits) (hmem : tick.offset.toNat + 24 ≤ mem.length)
    (hfits' : tick'.BodyFits) (hmem' : tick'.offset.toNat + 24 ≤ mem'.length) :
    ∃ printed printed', (∀ order, tick.insert order mem = .ok printed) ∧
      (∀ order, tick'.insert order mem' = .ok printed') ∧
      ∀ order order', printed = printed' ↔ tick.read order mem = tick'.read order' mem' := by
  obtain ⟨v, hread⟩ := exists_read hmem
  obtain ⟨v', hread'⟩ := exists_read hmem'
  refine ⟨Tick.text v, Tick.text v', fun order => insert_of_read hfits (hread order),
    fun order => insert_of_read hfits' (hread' order), fun order order' => ?_⟩
  rw [hread, hread', Except.ok.injEq]
  exact text_injective.eq_iff

/-- Two ticks at different offsets, with prices of different signs. -/
theorem insert_tells_signs :
    (Tick.insert (wrappedTick 0 32) .little (List.replicate 32 0)).toOption ≠
      (Tick.insert (wrappedTick 32 64) .big (List.replicate 64 255)).toOption := by
  intro h
  have hmem : (wrappedTick 0 32).offset.toNat + 24 ≤ (List.replicate 32 (0 : UInt8)).length := by
    decide
  have hmem' : (wrappedTick 32 64).offset.toNat + 24 ≤
      (List.replicate 64 (255 : UInt8)).length := by
    decide
  obtain ⟨printed, printed', hinsert, hinsert', heq⟩ :=
    insert_tells (by decide) hmem (by decide) hmem'
  rw [hinsert, hinsert'] at h
  exact absurd ((heq .little .big).mp (Option.some.inj h)) (by decide)

end Printing

end SystemsStack.Sbe
