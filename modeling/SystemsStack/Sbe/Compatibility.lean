import SystemsStack.Sbe.Decode

/-!
# Messages of newer schemas

A newer version of the schema extends the block of the tick: it declares a longer block and another
version, and puts its new fields behind the twenty-four bytes that this decoder knows. The block
length of the header moves the end of the block, never the fields, so `decode_tick` reads the old
fields out of every such message, and what it reads depends on the bytes of the old body alone
(`SystemsStack.Sbe.decodeTick_forward`).

## Main definitions

* `SystemsStack.Sbe.wireHeaderOf`: the header of a tick with a given block length and version.

## Main results

* `SystemsStack.Sbe.eq_wireTick_of_accepts`: what an accepted buffer decodes to.
* `SystemsStack.Sbe.wireTick_congr`: the values depend on the body alone.
* `SystemsStack.Sbe.decodeTick_forward`: newer messages are decoded.

## References

* `include/ll/sbe_codec.hpp`, lines 42–64; `docs/tutorials/sbe-codegen.md`, lines 11–16.
-/

namespace SystemsStack.Sbe

open Core

variable {order : ByteOrder} {src : Span} {out v : TickValues}

/-! ### Headers -/

/-- The header of a tick whose block has the given length, in the given version. -/
def wireHeaderOf (blockLength version : UInt16) : List UInt8 :=
  leBytes 2 blockLength.toNat ++ (leBytes 2 1 ++ (leBytes 2 77 ++ leBytes 2 version.toNat))

variable {blockLength version : UInt16}

@[simp] theorem length_wireHeaderOf : (wireHeaderOf blockLength version).length = 8 := by
  simp [wireHeaderOf]

theorem wireBlockLength_wireHeaderOf (rest : List UInt8) :
    wireBlockLength (wireHeaderOf blockLength version ++ rest) = blockLength.toNat := by
  rw [wireBlockLength, wireHeaderOf, List.append_assoc]
  exact wireField_head _ blockLength.toNat_lt

theorem isTickHeader_wireHeaderOf (rest : List UInt8) :
    IsTickHeader (wireHeaderOf blockLength version ++ rest) := by
  have hskip (p : ℕ) (hp : 2 ≤ p) (c : List UInt8) (x : ℕ) :
      wireField (leBytes 2 x ++ c) p 2 = wireField c (p - 2) 2 := by
    rw [wireField_skip _ _ (by simpa using hp), length_leBytes]
  rw [IsTickHeader, wireSchemaId, wireTemplateId, wireHeaderOf]
  simp only [List.append_assoc]
  constructor
  · rw [hskip 4 (by decide), hskip 2 (by decide)]
    exact wireField_head _ (by decide)
  · rw [hskip 2 (by decide)]
    exact wireField_head _ (by decide)

/-! ### Accepted buffers -/

/-- An accepted buffer holds a whole body, and decodes to the values of the body. -/
theorem eq_wireTick_of_accepts (h : (decodeTick order src).run out = (.ok true, v)) :
    v = wireTick src.bytes := by
  by_cases hshort : src.bytes.length < 8
  · rw [decodeTick_of_short order out hshort] at h
    exact absurd (Prod.mk.inj h).1 (by simp)
  have hlen := Nat.le_of_not_lt hshort
  by_cases hid : IsTickHeader src.bytes
  · by_cases hblock : src.bytes.length < 8 + wireBlockLength src.bytes
    · rw [decodeTick_of_blockLength order out hlen hid hblock] at h
      exact absurd (Prod.mk.inj h).1 nofun
    have hblock := Nat.le_of_not_lt hblock
    by_cases hbody : src.bytes.length < 32
    · obtain ⟨p, out', -, hcut⟩ := decodeTick_of_cut order out hid hblock hbody
      rw [hcut] at h
      exact absurd (Prod.mk.inj h).1 nofun
    · rw [decodeTick_of_le order out hid hblock (Nat.le_of_not_lt hbody)] at h
      exact (Prod.mk.inj h).2.symm
  · rw [decodeTick_of_not_isTickHeader order out hlen hid] at h
    exact absurd (Prod.mk.inj h).1 (by simp)

/-- A field of the body, from the bytes of the body. -/
theorem wireField_body (bytes : List UInt8) {k n : ℕ} (h : k + n ≤ 24) :
    wireField bytes (8 + k) n = wireField ((bytes.drop 8).take 24) k n := by
  rw [wireField, wireField, List.drop_take, List.take_take, List.drop_drop,
    Nat.min_eq_left (by omega)]

/-- The values depend on the bytes of the body alone. -/
theorem wireTick_congr {bytes bytes' : List UInt8}
    (h : (bytes.drop 8).take 24 = (bytes'.drop 8).take 24) : wireTick bytes = wireTick bytes' := by
  have hfield (k n : ℕ) (hk : k + n ≤ 24) :
      wireField bytes (8 + k) n = wireField bytes' (8 + k) n := by
    rw [wireField_body bytes hk, wireField_body bytes' hk, h]
  have h₀ := hfield 0 4 (by decide)
  have h₄ := hfield 4 4 (by decide)
  have h₈ := hfield 8 4 (by decide)
  have h₁₂ := hfield 12 4 (by decide)
  have h₁₆ := hfield 16 8 (by decide)
  rw [wireTick, wireTick, h₀, h₄, h₈, h₁₂, h₁₆]

/-- **Forward compatibility.** A tick with a longer block, in any version, with any bytes behind
the known fields and behind the block, is decoded to its values; and two accepted buffers with the
same body are decoded to the same values, whatever their other bytes. -/
theorem decodeTick_forward (order order' : ByteOrder) :
    (∀ (v : TickValues) (blockLength version : UInt16) (extension trailing : List UInt8)
        (src : Span) (out : TickValues), 24 ≤ blockLength.toNat →
      extension.length = blockLength.toNat - 24 →
      src.bytes = wireHeaderOf blockLength version ++ (wireBody v ++ (extension ++ trailing)) →
      (decodeTick order src).run out = (.ok true, v)) ∧
    ∀ (src src' : Span) (out out' v v' : TickValues),
      (decodeTick order src).run out = (.ok true, v) →
      (decodeTick order' src').run out' = (.ok true, v') →
      (src.bytes.drop 8).take 24 = (src'.bytes.drop 8).take 24 → v = v' := by
  constructor
  · intro v blockLength version extension trailing src out h24 hext hsrc
    have hlen : src.bytes.length = 8 + (24 + (extension.length + trailing.length)) := by
      rw [hsrc]
      simp
    have hid : IsTickHeader src.bytes := hsrc ▸ isTickHeader_wireHeaderOf _
    have hblock : wireBlockLength src.bytes = blockLength.toNat :=
      hsrc ▸ wireBlockLength_wireHeaderOf _
    rw [decodeTick_of_le order out hid (by omega) (by omega), hsrc,
      wireTick_wireBody _ length_wireHeaderOf]
  · intro src src' out out' v v' h h' hbody
    rw [eq_wireTick_of_accepts h, eq_wireTick_of_accepts h', wireTick_congr hbody]

/-- A tick of version `3` with a block of twenty-six bytes, and one byte behind the block. -/
def newerMessage : Span where
  bytes := wireHeaderOf 26 3 ++ (wireBody { qty := 7 } ++ ([1, 2] ++ [255]))
  length_lt := by decide

/-- The quantity of the newer message is read, and nothing else. -/
theorem decodeTick_forward_newerMessage :
    (decodeTick .big newerMessage).run {} = (.ok true, { qty := 7 }) ∧
      ∀ src' out' v', (decodeTick .little src').run out' = (.ok true, v') →
        (newerMessage.bytes.drop 8).take 24 = (src'.bytes.drop 8).take 24 →
        { qty := 7 } = v' := by
  have hrun : (decodeTick .big newerMessage).run {} = (.ok true, { qty := 7 }) :=
    (decodeTick_forward .big .little).1 { qty := 7 } 26 3 [1, 2] [255] newerMessage {}
      (by decide) (by decide) rfl
  exact ⟨hrun, fun src' out' v' =>
    (decodeTick_forward .big .little).2 newerMessage src' {} out' _ v' hrun⟩

end SystemsStack.Sbe
