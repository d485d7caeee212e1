import Mathlib.Algebra.Order.Floor.Div
import Mathlib.Tactic.Common

/-!
# Rounding addresses up to an alignment

The least multiple of `a` that is not below an address, and the way machine code computes it when
`a` is a power of two: add `a - 1`, and clear the bits below `a` with a mask. In 64-bit words the
two agree as long as the sum with the alignment does not leave the word
(`Core.toNat_mask_eq_alignUp`).

## Main definitions

* `Core.alignUp`.

## Main results

* `Core.dvd_alignUp`, `Core.le_alignUp`, `Core.alignUp_lt`.
* `Core.toNat_mask_eq_alignUp`.
-/

namespace Core

/-! ### The least multiple not below an address -/

/-- The least multiple of `a` that is not below `x`. -/
def alignUp (a x : ℕ) : ℕ := a * (x ⌈/⌉ a)

variable {a x : ℕ}

theorem dvd_alignUp (a x : ℕ) : a ∣ alignUp a x := Nat.dvd_mul_right a _

theorem le_alignUp (ha : 0 < a) : x ≤ alignUp a x := (ceilDiv_le_iff_le_mul ha).mp le_rfl

theorem alignUp_lt (ha : 0 < a) : alignUp a x < x + a := by
  have h := Nat.mul_div_le (x + a - 1) a
  rw [alignUp, Nat.ceilDiv_eq_add_pred_div]
  omega

/-! ### The mask -/

/-- Clearing the low `k` bits of a word of `w` bits. -/
theorem and_not_two_pow_pred {w k x : ℕ} (hk : k ≤ w) (hx : x < 2 ^ w) :
    x &&& (2 ^ w - 1 - (2 ^ k - 1)) = 2 ^ k * (x / 2 ^ k) := by
  have hpos := Nat.two_pow_pos k
  have hle : 2 ^ k ≤ 2 ^ w := Nat.pow_le_pow_right Nat.two_pos hk
  have hmask : 2 ^ w - 1 - (2 ^ k - 1) = 2 ^ w - (2 ^ k - 1 + 1) := by omega
  rw [hmask]
  apply Nat.eq_of_testBit_eq
  intro i
  rw [Nat.testBit_and, Nat.testBit_two_pow_sub_succ (by omega), Nat.testBit_two_pow_sub_one,
    Nat.testBit_two_pow_mul, Nat.testBit_div_two_pow]
  by_cases hik : k ≤ i
  · by_cases hiw : i < w
    · simp [hik, hiw, Nat.not_lt.mpr hik]
    · have hbit : x.testBit i = false := Nat.testBit_lt_two_pow
        (Nat.lt_of_lt_of_le hx (Nat.pow_le_pow_right Nat.two_pos (Nat.le_of_not_lt hiw)))
      simp [hik, hbit]
  · simp [hik, Nat.lt_of_not_le hik]

theorem toNat_pred {a : UInt64} (ha : 0 < a.toNat) : (a - 1).toNat = a.toNat - 1 := by
  have hone : (1 : UInt64) ≤ a := UInt64.le_iff_toNat_le.mpr ha
  rw [UInt64.toNat_sub_of_le _ _ hone]
  rfl

/-- **Rounding up with a mask.** Adding `a - 1` and clearing the bits below the power of two `a`
gives the least multiple of `a` that is not below the word, if the sum with `a` stays in range. -/
theorem toNat_mask_eq_alignUp {a : UInt64} (ha : a.toNat.isPowerOfTwo) {x : UInt64}
    (h : x.toNat + a.toNat ≤ 2 ^ 64) :
    ((x + (a - 1)) &&& ~~~(a - 1)).toNat = alignUp a.toNat x.toNat := by
  have hpos : 0 < a.toNat := Nat.pos_of_isPowerOfTwo ha
  have hsum : (x + (a - 1)).toNat = x.toNat + a.toNat - 1 := by
    rw [UInt64.toNat_add, toNat_pred hpos, Nat.mod_eq_of_lt (by omega)]
    omega
  have hmask : (~~~(a - 1)).toNat = 2 ^ 64 - 1 - (a.toNat - 1) := by
    rw [UInt64.toNat_not, toNat_pred hpos]
    rfl
  obtain ⟨k, hk⟩ := ha
  have hlt : 2 ^ k < 2 ^ 64 := hk ▸ a.toNat_lt
  have hk64 : k ≤ 64 := Nat.le_of_lt ((Nat.pow_lt_pow_iff_right Nat.one_lt_two).mp hlt)
  rw [UInt64.toNat_and, hsum, hmask, hk, and_not_two_pow_pred hk64 (by omega), alignUp,
    Nat.ceilDiv_eq_add_pred_div]

end Core
