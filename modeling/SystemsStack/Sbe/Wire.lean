import SystemsStack.Sbe.Codec

/-!
# The wire format of the tick message

What the schema says a message is, without flyweights: a header of four 16-bit fields, followed
by a body of five fields, all little-endian and without gaps. A message with the header of the
schema and the bytes of the values determine each other (`SystemsStack.Sbe.wireTick_wireMessage`,
`SystemsStack.Sbe.wireMessage_wireTick`).

## Main definitions

* `SystemsStack.Sbe.wireField`: the field of a given width at a given position.
* `SystemsStack.Sbe.wireBlockLength`, `SystemsStack.Sbe.wireTemplateId`,
  `SystemsStack.Sbe.wireSchemaId`, `SystemsStack.Sbe.wireVersion`, `SystemsStack.Sbe.wireTick`.
* `SystemsStack.Sbe.wireMessage`: the message with the given values.

## Main results

* `SystemsStack.Sbe.wireTick_wireMessage`, `SystemsStack.Sbe.wireMessage_wireTick`.

## References

* `schemas/sbe-market-data-schema.xml`; `docs/tutorials/sbe-codegen.md`, lines 13–16.
-/

namespace SystemsStack.Sbe

open Core

/-! ### Fields -/

/-- The little-endian field of `n` bytes at position `p`. -/
def wireField (bytes : List UInt8) (p n : ℕ) : ℕ := leValue ((bytes.drop p).take n)

variable {bytes : List UInt8} {p n : ℕ}

theorem wireField_lt : wireField bytes p n < 256 ^ n :=
  Nat.lt_of_lt_of_le (leValue_lt _)
    (Nat.pow_le_pow_right (by decide) (List.length_take_le _ _))

theorem wireField_skip (a c : List UInt8) (h : a.length ≤ p) :
    wireField (a ++ c) p n = wireField c (p - a.length) n := by
  rw [wireField, wireField, List.drop_append, List.drop_eq_nil_of_le h, List.nil_append]

theorem wireField_head (c : List UInt8) {v : ℕ} (hv : v < 256 ^ n) :
    wireField (leBytes n v ++ c) 0 n = v := by
  have hlen : (leBytes n v).length = n := length_leBytes n v
  rw [wireField, List.drop_zero, List.take_append_of_le_length (Nat.le_of_eq hlen.symm),
    List.take_of_length_le (Nat.le_of_eq hlen), leValue_leBytes hv]

/-- Writing a field that has been read gives its bytes back. -/
theorem leBytes_wireField_append (h : p + n ≤ bytes.length) :
    leBytes n (wireField bytes p n) ++ bytes.drop (p + n) = bytes.drop p := by
  have hlen : ((bytes.drop p).take n).length = n := by
    rw [List.length_take, List.length_drop]
    omega
  have hfield := leBytes_leValue ((bytes.drop p).take n)
  rw [hlen] at hfield
  rw [wireField, hfield, ← List.drop_drop, List.take_append_drop]

/-! ### Messages -/

def wireBlockLength (bytes : List UInt8) : ℕ := wireField bytes 0 2

def wireTemplateId (bytes : List UInt8) : ℕ := wireField bytes 2 2

def wireSchemaId (bytes : List UInt8) : ℕ := wireField bytes 4 2

def wireVersion (bytes : List UInt8) : ℕ := wireField bytes 6 2

/-- The values in the twenty-four bytes behind the header. -/
def wireTick (bytes : List UInt8) : TickValues where
  instrumentId := .ofNat (wireField bytes 8 4)
  priceTicks := (UInt32.ofNat (wireField bytes 12 4)).toInt32
  qty := .ofNat (wireField bytes 16 4)
  seq := .ofNat (wireField bytes 20 4)
  tsNs := .ofNat (wireField bytes 24 8)

/-- The header of the schema. -/
def wireHeader : List UInt8 := leBytes 2 24 ++ (leBytes 2 1 ++ (leBytes 2 77 ++ leBytes 2 0))

/-- The body with the given values. -/
def wireBody (v : TickValues) : List UInt8 :=
  leBytes 4 v.instrumentId.toNat ++ (leBytes 4 v.priceTicks.toUInt32.toNat ++
    (leBytes 4 v.qty.toNat ++ (leBytes 4 v.seq.toNat ++ leBytes 8 v.tsNs.toNat)))

/-- The message with the given values. -/
def wireMessage (v : TickValues) : List UInt8 := wireHeader ++ wireBody v

@[simp] theorem length_wireHeader : wireHeader.length = 8 := rfl

@[simp] theorem length_wireBody (v : TickValues) : (wireBody v).length = 24 := by
  simp [wireBody]

@[simp] theorem length_wireMessage (v : TickValues) : (wireMessage v).length = 32 := by
  simp [wireMessage]

/-- The values in a body do not depend on the header before it, nor on what follows. -/
theorem wireTick_wireBody (header : List UInt8) (hlen : header.length = 8) (v : TickValues)
    (rest : List UInt8) : wireTick (header ++ (wireBody v ++ rest)) = v := by
  have h₁ : v.instrumentId.toNat < 256 ^ 4 := v.instrumentId.toNat_lt
  have h₂ : v.priceTicks.toUInt32.toNat < 256 ^ 4 := v.priceTicks.toUInt32.toNat_lt
  have h₃ : v.qty.toNat < 256 ^ 4 := v.qty.toNat_lt
  have h₄ : v.seq.toNat < 256 ^ 4 := v.seq.toNat_lt
  have h₅ : v.tsNs.toNat < 256 ^ 8 := v.tsNs.toNat_lt
  have hskip (k m : ℕ) : wireField (header ++ (wireBody v ++ rest)) (8 + k) m =
      wireField (wireBody v ++ rest) k m := by
    rw [wireField_skip _ _ (by omega), hlen, Nat.add_sub_cancel_left]
  have hfield (m x k l : ℕ) (c : List UInt8) :
      wireField (leBytes m x ++ c) (m + k) l = wireField c k l := by
    rw [wireField_skip _ _ (by simp), length_leBytes, Nat.add_sub_cancel_left]
  simp only [wireBody, List.append_assoc] at hskip ⊢
  have e₁ := (hskip 0 4).trans (wireField_head _ h₁)
  have e₂ := (hskip 4 4).trans ((hfield 4 _ 0 4 _).trans (wireField_head _ h₂))
  have e₃ := (hskip 8 4).trans ((hfield 4 _ 4 4 _).trans
    ((hfield 4 _ 0 4 _).trans (wireField_head _ h₃)))
  have e₄ := (hskip 12 4).trans ((hfield 4 _ 8 4 _).trans ((hfield 4 _ 4 4 _).trans
    ((hfield 4 _ 0 4 _).trans (wireField_head _ h₄))))
  have e₅ := (hskip 16 8).trans ((hfield 4 _ 12 8 _).trans ((hfield 4 _ 8 8 _).trans
    ((hfield 4 _ 4 8 _).trans ((hfield 4 _ 0 8 _).trans (wireField_head _ h₅)))))
  rw [wireTick, e₁, e₂, e₃, e₄, e₅]
  simp

/-- **The values of a message.** They do not depend on what follows it. -/
theorem wireTick_wireMessage (v : TickValues) (rest : List UInt8) :
    wireTick (wireMessage v ++ rest) = v := by
  rw [wireMessage, List.append_assoc]
  exact wireTick_wireBody _ length_wireHeader v rest

/-- **The message of the values.** A message with the header of the schema consists of the values
read from it. -/
theorem wireMessage_wireTick (hlen : 32 ≤ bytes.length) (hblock : wireBlockLength bytes = 24)
    (htemplate : wireTemplateId bytes = 1) (hschema : wireSchemaId bytes = 77)
    (hversion : wireVersion bytes = 0) :
    wireMessage (wireTick bytes) ++ bytes.drop 32 = bytes := by
  have h32 (p : ℕ) : (UInt32.ofNat (wireField bytes p 4)).toNat = wireField bytes p 4 :=
    UInt32.toNat_ofNat_of_lt' wireField_lt
  have h64 (p : ℕ) : (UInt64.ofNat (wireField bytes p 8)).toNat = wireField bytes p 8 :=
    UInt64.toNat_ofNat_of_lt' wireField_lt
  have hfield (q m : ℕ) (hq : q + m ≤ 32) :
      leBytes m (wireField bytes q m) ++ bytes.drop (q + m) = bytes.drop q :=
    leBytes_wireField_append (Nat.le_trans hq hlen)
  have h₀ := hfield 0 2 (by decide)
  have h₂ := hfield 2 2 (by decide)
  have h₄ := hfield 4 2 (by decide)
  have h₆ := hfield 6 2 (by decide)
  rw [← wireBlockLength, hblock, List.drop_zero] at h₀
  rw [← wireTemplateId, htemplate] at h₂
  rw [← wireSchemaId, hschema] at h₄
  rw [← wireVersion, hversion] at h₆
  simp only [wireMessage, wireHeader, wireBody, wireTick, UInt32.toUInt32_toInt32, h32, h64,
    List.append_assoc]
  -- from the last field to the first
  rw [hfield 24 8 (by decide), hfield 20 4 (by decide), hfield 16 4 (by decide),
    hfield 12 4 (by decide), hfield 8 4 (by decide), h₆, h₄, h₂, h₀]

end SystemsStack.Sbe
