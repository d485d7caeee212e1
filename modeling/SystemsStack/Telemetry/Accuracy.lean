import SystemsStack.Core.OrderStatistics
import SystemsStack.Telemetry.Percentile

/-!
# How accurate percentiles are

The percentile of the samples is the one of the nearest rank, an order statistic. The bucket that
`value_at_percentile` stops at is the bucket of that sample
(`SystemsStack.Telemetry.isLeast_bucketIndex`), so that the value reported is the middle of the
range the sample is in: off by less than a third of the sample, and by nothing when that is `0`.
Samples in the last bucket are not bounded by its range; the value reported for them is fixed.

## Main results

* `SystemsStack.Telemetry.isLeast_bucketIndex`.
* `SystemsStack.Telemetry.percentile_accuracy`.

## References

* `include/ll/hdr_histogram.hpp`, lines 44–60 and 71–89.
-/

namespace SystemsStack.Telemetry

open Core

variable {B : Buckets} {samples : List UInt64} {x : UInt64} {pct : ℚ} {i : ℕ}

/-! ### The middle of a range -/

/-- Inside its range a sample is off the middle by less than a third. -/
theorem middle_accurate (hpos : 1 ≤ i) (hlow : 2 ^ (i - 1) ≤ x.toNat) (hhigh : x.toNat < 2 ^ i) :
    2 * middle i ≤ 3 * x.toNat ∧ 3 * x.toNat < 4 * middle i := by
  obtain ⟨i, rfl⟩ := Nat.exists_eq_succ_of_ne_zero (Nat.one_le_iff_ne_zero.mp hpos)
  rw [Nat.succ_eq_add_one, Nat.add_sub_cancel] at hlow
  rw [Nat.succ_eq_add_one, Nat.pow_succ] at hhigh
  rw [Nat.succ_eq_add_one, middle_succ]
  rcases Nat.eq_zero_or_pos i with rfl | hi
  · omega
  · obtain ⟨j, rfl⟩ := Nat.exists_eq_succ_of_ne_zero (Nat.pos_iff_ne_zero.mp hi)
    rw [Nat.succ_eq_add_one, Nat.pow_succ] at hlow hhigh ⊢
    omega

/-! ### The nearest rank -/

/-- The comparison of words. -/
theorem isTotalPreorder_le : IsTotalPreorder fun v w : UInt64 => decide (v ≤ w) where
  trans v w u hvw hwu :=
    decide_eq_true (UInt64.le_trans (of_decide_eq_true hvw) (of_decide_eq_true hwu))
  total v w := by
    rw [Bool.or_eq_true, decide_eq_true_iff, decide_eq_true_iff]
    exact UInt64.le_total v w

/-- The rank that a percentile asks for, counted from one. -/
def nearestRank (samples : List UInt64) (pct : ℚ) : ℕ := ⌈pct * samples.length / 100⌉₊

theorem nearestRank_pos (hne : samples ≠ []) (hpct : 0 < pct) : 0 < nearestRank samples pct := by
  have hlen : (0 : ℚ) < samples.length := Nat.cast_pos.mpr (List.length_pos_iff.mpr hne)
  exact Nat.ceil_pos.mpr (div_pos (mul_pos hpct hlen) (by norm_num))

theorem nearestRank_le_length (hle : pct ≤ 100) : nearestRank samples pct ≤ samples.length := by
  have hlen : (0 : ℚ) ≤ samples.length := Nat.cast_nonneg _
  rw [nearestRank, Nat.ceil_le, div_le_iff₀ (by norm_num), mul_comm (samples.length : ℚ)]
  exact mul_le_mul_of_nonneg_right hle hlen

/-- With fewer than `2 ^ 64` samples a percentile is reached when its rank is. -/
theorem reached_iff_nearestRank_le (hlen : samples.length < 2 ^ 64) (hle : pct ≤ 100) :
    Reached B samples pct i ↔ nearestRank samples pct ≤ before B samples i := by
  have hbefore : before B samples i < 2 ^ 64 := Nat.lt_of_le_of_lt List.countP_le_length hlen
  rw [Reached, Nat.mod_eq_of_lt hlen, Nat.mod_eq_of_lt hbefore, min_eq_left hle, nearestRank,
    Nat.ceil_le, div_le_iff₀ (by norm_num), mul_comm (100 : ℚ)]

/-- The first bucket up to which a percentile is reached is that of the sample of its rank. -/
theorem isLeast_bucketIndex (hlen : samples.length < 2 ^ 64) (hpos : 0 < pct) (hle : pct ≤ 100)
    (hne : samples ≠ [])
    (hx : orderStatistic (fun v w => v ≤ w) samples (nearestRank samples pct - 1) = some x) :
    IsLeast {i | Reached B samples pct (i + 1)} (bucketIndex B x) := by
  have hrank := nearestRank_pos hne hpos
  have hset : {i | Reached B samples pct (i + 1)} =
      {i | nearestRank samples pct - 1 < samples.countP fun v => bucketIndex B v ≤ i} := by
    ext i
    rw [Set.mem_ofPred_eq, Set.mem_ofPred_eq, reached_iff_nearestRank_le hlen hle, before]
    simp only [Nat.lt_succ_iff]
    omega
  rw [hset]
  exact isLeast_class_orderStatistic isTotalPreorder_le
    (fun v w hvw => bucketIndex_mono (of_decide_eq_true hvw)) hx

/-- The middle of the bucket of a sample, against the sample. -/
theorem middle_bucketIndex (B : Buckets) (x : UInt64) :
    (x = 0 → middle (bucketIndex B x) = 0) ∧
    (0 < x → x.toNat < 2 ^ (B.val - 1) →
      2 * middle (bucketIndex B x) ≤ 3 * x.toNat ∧ 3 * x.toNat < 4 * middle (bucketIndex B x)) ∧
    (2 ^ (B.val - 1) ≤ x.toNat →
      bucketIndex B x = B.val - 1 ∧ middle (bucketIndex B x) < x.toNat) := by
  have hB := B.le_val
  refine ⟨?_, fun hpos hlt => ?_, fun hge => ?_⟩
  · rintro rfl
    rw [bucketIndex_eq_zero_iff.mpr rfl]
    rfl
  · have hindex : 1 ≤ bucketIndex B x := by
      have hne : bucketIndex B x ≠ 0 := fun hzero => by
        rw [bucketIndex_eq_zero_iff.mp hzero] at hpos
        exact UInt64.lt_irrefl 0 hpos
      omega
    have hlow : 2 ^ (bucketIndex B x - 1) ≤ x.toNat :=
      (lt_bucketIndex_iff.mp (Nat.sub_one_lt_of_lt hindex)).1
    have hhigh : x.toNat < 2 ^ bucketIndex B x := by
      rcases bucketIndex_le_iff.mp (Nat.le_refl (bucketIndex B x)) with h | h
      · exact h
      · exact Nat.lt_of_lt_of_le hlt (Nat.pow_le_pow_right (by decide) h)
    exact middle_accurate hindex hlow hhigh
  · have hlast : bucketIndex B x = B.val - 1 := by
      have hle : 2 ^ (B.val - 2) ≤ 2 ^ (B.val - 1) := Nat.pow_le_pow_right (by decide) (by omega)
      exact bucketIndex_eq_last_iff.mpr (Nat.le_trans hle hge)
    rw [hlast]
    exact ⟨rfl, Nat.lt_of_lt_of_le (middle_lt _) hge⟩

variable {s : State B}

/-- **Percentiles are accurate.** In every reachable state with samples, fewer than `2 ^ 64` of
them, let `x` be the sample of the rank that the percentile asks for. The value reported is `0` for
`x = 0`; it is within a third of a sample in the range of the buckets; and it is the fixed middle of
the last bucket, below `x`, for larger ones. The percentile is a rational, and the rank is exact,
not rounded to a `double` first. -/
theorem percentile_accuracy (hs : (histogram B).Reachable s) (hne : s.samples ≠ [])
    (hlen : s.samples.length < 2 ^ 64) (hpos : 0 < pct) (hle : pct ≤ 100) :
    ∃ x r, orderStatistic (fun v w => v ≤ w) s.samples (nearestRank s.samples pct - 1) = some x ∧
      s.hist.valueAtPercentile pct = .ok (some r) ∧
      (x = 0 → r = 0) ∧
      (0 < x → x.toNat < 2 ^ (B.val - 1) →
        2 * r.toNat ≤ 3 * x.toNat ∧ 3 * x.toNat < 4 * r.toNat) ∧
      (2 ^ (B.val - 1) ≤ x.toNat → bucketRepresentative (B.val - 1) = .ok r ∧
        r.toNat = 2 ^ (B.val - 2) + 2 ^ (B.val - 2) / 2 ∧ r < x) := by
  have h := summarizes_isInvariant.of_reachable hs
  have hB := B.le_val
  have hcount : s.hist.count_ ≠ 0 := by
    rw [h.count_ne_zero_iff, Nat.mod_eq_of_lt hlen]
    exact mt List.length_eq_zero_iff.mp hne
  have hrank : nearestRank s.samples pct - 1 < s.samples.length := by
    have := nearestRank_pos hne hpos
    have := @nearestRank_le_length s.samples pct hle
    omega
  obtain ⟨x, hx⟩ := exists_orderStatistic (fun v w : UInt64 => v ≤ w) hrank
  obtain ⟨k, -, hk, hleast, hvalue⟩ := h.exists_valueAtPercentile hcount hpos
  obtain rfl : k = bucketIndex B x := hleast.unique (isLeast_bucketIndex hlen hpos hle hne hx)
  obtain ⟨hzero, hinside, hbehind⟩ := middle_bucketIndex B x
  refine ⟨x, _, hx, hvalue, ?_, ?_, fun hge => ?_⟩
  · intro hx0
    rw [hzero hx0]
    rfl
  · rw [toNat_ofNat_middle hk]
    exact hinside
  · obtain ⟨hlast, hlt⟩ := hbehind hge
    have hmiddle : middle (B.val - 1) = 2 ^ (B.val - 2) + 2 ^ (B.val - 2) / 2 := by
      rw [← middle_succ]
      congr 1
      omega
    rw [← hlast, bucketRepresentative_of_le hk, UInt64.lt_iff_toNat_lt, toNat_ofNat_middle hk]
    exact ⟨rfl, by rw [hlast, hmiddle], hlt⟩

/-- The median of three samples. -/
theorem percentile_accuracy_threeSamples : ∃ s : State .fewest, s.samples = [3, 0, 9] ∧
    ∃ x r, orderStatistic (fun v w => v ≤ w) s.samples (nearestRank s.samples 50 - 1) = some x ∧
      s.hist.valueAtPercentile 50 = .ok (some r) ∧ (x = 0 → r = 0) := by
  obtain ⟨s, hs, hsamples⟩ := TransitionSystem.exists_reachable (M := histogram .fewest)
    (p := fun s => s.samples = [3, 0, 9]) [.record 3, .record 0, .record 9] (by decide)
  have hne : s.samples ≠ [] := by simp [hsamples]
  have hlen : s.samples.length < 2 ^ 64 := by
    rw [hsamples]
    decide
  obtain ⟨x, r, hx, hr, hzero, -⟩ :=
    percentile_accuracy hs hne hlen (by norm_num : (0 : ℚ) < 50) (by norm_num)
  exact ⟨s, hsamples, x, r, hx, hr, hzero⟩

end SystemsStack.Telemetry
