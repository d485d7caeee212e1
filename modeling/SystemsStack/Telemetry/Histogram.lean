import Mathlib.Algebra.Group.Nat.Defs
import Mathlib.Data.Nat.Size
import Mathlib.Data.Rat.Floor

/-!
# The latency histogram

`ll::HdrLatencyHistogram` counts samples in buckets bounded by powers of two: bucket `0` for the
sample `0`, bucket `i` for the samples in `[2 ^ (i - 1), 2 ^ i)`, the last one for all that are
larger. This file embeds the class and describes its two bucket maps, from samples to buckets and
from buckets to the value reported for them.

Counters are machine words and wrap around. A percentile is a rational, and the rank that it asks
for is computed exactly where the source rounds to a `double`.

Source: `include/ll/hdr_histogram.hpp`.

## Main definitions

* `SystemsStack.Telemetry.HdrLatencyHistogram`, with `record`, `reset`, `count`, `min`, `max`,
  `mean`, `valueAtPercentile`.
* `SystemsStack.Telemetry.bucketIndex`, `SystemsStack.Telemetry.bucketRepresentative`.

## Main results

* `SystemsStack.Telemetry.bucketIndex_le_iff`: the samples up to a bucket.
* `SystemsStack.Telemetry.exists_bucketRepresentative`: the value reported for a bucket.
-/

namespace SystemsStack.Telemetry

/-- The template parameter, with the bounds that the class asserts. -/
structure Buckets where
  val : ℕ
  le_val : 8 ≤ val
  val_le : val ≤ 128

/-- What leaves the behaviour of the source undefined. -/
inductive Undefined where
  /-- A word is shifted by its width or more. -/
  | shiftByWidth
  deriving DecidableEq, Repr

/-! ### Bucket maps -/

/-- The bucket of a sample. -/
def bucketIndex (B : Buckets) (v : UInt64) : ℕ :=
  if v = 0 then
    0
  else
    let lz := v.toBitVec.clz.toNat
    let log2 := 63 - lz
    let idx := log2 + 1
    if idx < B.val then idx else B.val - 1

/-- The value reported for a bucket: the middle of its range. -/
def bucketRepresentative (idx : ℕ) : Except Undefined UInt64 :=
  if idx = 0 then
    .ok 0
  else if 64 ≤ idx - 1 then
    .error .shiftByWidth
  else
    let lo : UInt64 := 1 <<< UInt64.ofNat (idx - 1)
    .ok (lo + lo / 2)

variable {B : Buckets} {v w : UInt64} {i j : ℕ}

/-- The bucket is the length of the sample in bits, clamped. -/
theorem bucketIndex_eq_min (B : Buckets) (v : UInt64) :
    bucketIndex B v = min v.toNat.size (B.val - 1) := by
  have hB := B.le_val
  rw [bucketIndex]
  split_ifs with hv
  · subst hv
    rfl
  · have hne : v.toBitVec ≠ 0#64 := fun h => hv (UInt64.toBitVec_inj.mp h)
    have hlow : 2 ^ (63 - v.toBitVec.clz.toNat) ≤ v.toNat :=
      BitVec.two_pow_sub_clz_le_toNat_of_ne_zero (by decide) hne
    have hhigh : v.toNat < 2 ^ (64 - v.toBitVec.clz.toNat) := BitVec.toNat_lt_two_pow_sub_clz
    have hsize : v.toNat.size = 63 - v.toBitVec.clz.toNat + 1 := by
      refine Nat.le_antisymm (Nat.size_le.mpr ?_) (Nat.lt_size.mpr hlow)
      exact Nat.lt_of_lt_of_le hhigh (Nat.pow_le_pow_right (by decide) (by omega))
    rw [hsize]
    simp only [Nat.min_def]
    split_ifs <;> omega

theorem bucketIndex_lt (B : Buckets) (v : UInt64) : bucketIndex B v < B.val := by
  have hB := B.le_val
  have hle := Nat.min_le_right v.toNat.size (B.val - 1)
  rw [bucketIndex_eq_min]
  omega

/-- The samples in the buckets behind a given one. -/
theorem lt_bucketIndex_iff : i < bucketIndex B v ↔ 2 ^ i ≤ v.toNat ∧ i < B.val - 1 := by
  rw [bucketIndex_eq_min, Nat.lt_min, Nat.lt_size]

/-- The samples in the buckets up to a given one. -/
theorem bucketIndex_le_iff : bucketIndex B v ≤ i ↔ v.toNat < 2 ^ i ∨ B.val - 1 ≤ i := by
  rw [← Nat.not_lt, lt_bucketIndex_iff, not_and_or, Nat.not_le, Nat.not_lt]

theorem bucketIndex_mono (h : v ≤ w) : bucketIndex B v ≤ bucketIndex B w := by
  rw [bucketIndex_eq_min, bucketIndex_eq_min]
  exact min_le_min_right _ (Nat.size_le_size (UInt64.le_iff_toNat_le.mp h))

theorem bucketIndex_le (B : Buckets) (v : UInt64) : bucketIndex B v ≤ 64 :=
  bucketIndex_le_iff.mpr (.inl v.toNat_lt)

theorem bucketIndex_eq_zero_iff : bucketIndex B v = 0 ↔ v = 0 := by
  have hB := B.le_val
  rw [← Nat.le_zero, bucketIndex_le_iff, ← UInt64.toNat_inj]
  change v.toNat < 1 ∨ _ ↔ v.toNat = 0
  omega

/-- The range of a bucket that is neither the first nor the last. -/
theorem bucketIndex_eq_iff (hpos : 1 ≤ i) (hi : i ≤ B.val - 2) :
    bucketIndex B v = i ↔ 2 ^ (i - 1) ≤ v.toNat ∧ v.toNat < 2 ^ i := by
  have hB := B.le_val
  have hlow : i - 1 < bucketIndex B v ↔ 2 ^ (i - 1) ≤ v.toNat ∧ i - 1 < B.val - 1 :=
    lt_bucketIndex_iff
  have hhigh : bucketIndex B v ≤ i ↔ v.toNat < 2 ^ i ∨ B.val - 1 ≤ i := bucketIndex_le_iff
  omega

/-- The samples of the last bucket. -/
theorem bucketIndex_eq_last_iff : bucketIndex B v = B.val - 1 ↔ 2 ^ (B.val - 2) ≤ v.toNat := by
  have hB := B.le_val
  have hlast : B.val - 2 < bucketIndex B v ↔ 2 ^ (B.val - 2) ≤ v.toNat ∧ B.val - 2 < B.val - 1 :=
    lt_bucketIndex_iff
  have hlt := bucketIndex_lt B v
  omega

/-! ### The values reported -/

/-- Half of `2 ^ i`, and half of that again. -/
def middle (i : ℕ) : ℕ := 2 ^ i / 2 + 2 ^ i / 4

theorem middle_succ (i : ℕ) : middle (i + 1) = 2 ^ i + 2 ^ i / 2 := by
  rw [middle, Nat.pow_succ]
  omega

theorem middle_lt (i : ℕ) : middle i < 2 ^ i := by
  have hpos := Nat.two_pow_pos i
  rw [middle]
  omega

theorem middle_mono (h : i ≤ j) : middle i ≤ middle j := by
  have hpow : 2 ^ i ≤ 2 ^ j := Nat.pow_le_pow_right (by decide) h
  exact Nat.add_le_add (Nat.div_le_div_right hpow) (Nat.div_le_div_right hpow)

/-- The middle of a bucket is not below the ones before it. -/
theorem two_pow_le_middle (h : i < j) : 2 ^ i ≤ middle j :=
  calc 2 ^ i ≤ middle (i + 1) := middle_succ i ▸ Nat.le_add_right _ _
    _ ≤ middle j := middle_mono h

theorem toNat_ofNat_middle (hi : i ≤ 64) : (UInt64.ofNat (middle i)).toNat = middle i := by
  rw [UInt64.toNat_ofNat']
  exact Nat.mod_eq_of_lt
    (Nat.lt_of_lt_of_le (middle_lt i) (Nat.pow_le_pow_right (by decide) hi))

/-- Buckets that words fall into report the middle of their range. -/
theorem bucketRepresentative_of_le (hi : i ≤ 64) :
    bucketRepresentative i = .ok (.ofNat (middle i)) := by
  cases i with
  | zero => rfl
  | succ i =>
    have hpow : 2 ^ i ≤ 2 ^ 63 := Nat.pow_le_pow_right (by decide) (by omega)
    have hlo : ((1 : UInt64) <<< UInt64.ofNat i).toNat = 2 ^ i := by
      rw [UInt64.toNat_shiftLeft, UInt64.toNat_ofNat', Nat.mod_eq_of_lt (a := i) (by omega),
        Nat.mod_eq_of_lt (a := i) (by omega), UInt64.toNat_one, Nat.one_shiftLeft]
      exact Nat.mod_eq_of_lt (by omega)
    rw [bucketRepresentative, if_neg (Nat.succ_ne_zero i), if_neg (by omega)]
    dsimp only
    rw [Nat.add_sub_cancel, Except.ok.injEq, ← UInt64.toNat_inj, toNat_ofNat_middle hi,
      UInt64.toNat_add, UInt64.toNat_div, hlo, middle_succ]
    change (2 ^ i + 2 ^ i / 2) % 2 ^ 64 = 2 ^ i + 2 ^ i / 2
    exact Nat.mod_eq_of_lt (by omega)

/-! ### The class -/

/-- A histogram: its buckets, and the number, the sum, the least and the greatest of the
samples. -/
structure HdrLatencyHistogram (B : Buckets) where
  buckets_ : Vector UInt64 B.val := .replicate B.val 0
  count_ : UInt64 := 0
  sum_ : UInt64 := 0
  min_ : UInt64 := .ofNat (UInt64.size - 1)
  max_ : UInt64 := 0
  deriving DecidableEq

namespace HdrLatencyHistogram

variable (hist : HdrLatencyHistogram B)

/-- Count a sample. -/
def record (value : UInt64) : HdrLatencyHistogram B :=
  have hidx : bucketIndex B value < B.val := bucketIndex_lt B value
  { count_ := hist.count_ + 1
    min_ := Min.min hist.min_ value
    max_ := Max.max hist.max_ value
    sum_ := hist.sum_ + value
    buckets_ := hist.buckets_.set (bucketIndex B value)
      (hist.buckets_[bucketIndex B value] + 1) }

def count : UInt64 := hist.count_

protected def min : UInt64 := if hist.count_ = 0 then 0 else hist.min_

protected def max : UInt64 := hist.max_

/-- The mean of the samples, without the rounding of a `double`. -/
def mean : ℚ := if hist.count_ = 0 then 0 else hist.sum_.toNat / hist.count_.toNat

/-- The loop of `value_at_percentile` from the bucket `i` on: the first bucket up to which `target`
samples are seen. -/
def scan (target : UInt64) : UInt64 → ℕ → List UInt64 → Option ℕ
  | _, _, [] => none
  | seen, i, bucket :: buckets =>
      if target ≤ seen + bucket then some i else scan target (seen + bucket) (i + 1) buckets

/-- The rank that a percentile asks for. -/
def target (pct : ℚ) : UInt64 :=
  let clamped := Min.min pct 100
  .ofNat (clamped / 100 * hist.count_.toNat).ceil.toNat

/-- The value reported for a percentile. -/
def valueAtPercentile (pct : ℚ) : Except Undefined (Option UInt64) :=
  if hist.count_ = 0 ∨ pct ≤ 0 then
    .ok none
  else
    match scan (hist.target pct) 0 0 hist.buckets_.toList with
    | some i => some <$> bucketRepresentative i
    | none => .ok (some hist.max_)

/-- Forget all samples. -/
def reset (_ : HdrLatencyHistogram B) : HdrLatencyHistogram B where
  buckets_ := .replicate B.val 0
  count_ := 0
  sum_ := 0
  min_ := .ofNat (UInt64.size - 1)
  max_ := 0

end HdrLatencyHistogram

end SystemsStack.Telemetry
