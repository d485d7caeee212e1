import SystemsStack.Telemetry.Percentile

/-!
# The scan never runs out of buckets

The template admits `128` buckets, although a word has `64` bits and a shift by more is undefined.
Buckets behind the one of the greatest word stay empty, and the buckets count all samples, so that
the loop of `value_at_percentile` always returns from its body: at a bucket whose lower bound and
whose middle are words. The `return max_` behind the loop is never reached
(`SystemsStack.Telemetry.scan_safe`).

## Main results

* `SystemsStack.Telemetry.target_pos`, `SystemsStack.Telemetry.scan_safe`.

## References

* `include/ll/hdr_histogram.hpp`, lines 21–24, 44–60 and 71–89.
-/

namespace SystemsStack.Telemetry

open Core

variable {B : Buckets} {pct : ℚ}

/-- The rank of a positive percentile is positive. -/
theorem target_pos (hist : HdrLatencyHistogram B) (hcount : hist.count_ ≠ 0) (hpct : 0 < pct) :
    1 ≤ hist.target pct := by
  have hne : hist.count_.toNat ≠ 0 := fun hzero => hcount (UInt64.toNat_inj.mp hzero)
  have hpos : (0 : ℚ) < min pct 100 / 100 * hist.count_.toNat := by
    have hmin : 0 < min pct 100 := lt_min hpct (by norm_num)
    have hcast : (0 : ℚ) < hist.count_.toNat := Nat.cast_pos.mpr (Nat.pos_of_ne_zero hne)
    positivity
  have hceil : 0 < (min pct 100 / 100 * hist.count_.toNat).ceil := by
    rw [Rat.lt_ceil_iff]
    exact_mod_cast hpos
  rw [UInt64.le_iff_toNat_le, toNat_target]
  change 1 ≤ _
  omega

/-- **The scan is safe.** In every reachable state, and for every target from one to the number of
samples, the loop returns at a bucket that words fall into. The value for that bucket is computed
without a shift by the width of a word, and its sum does not wrap around. The ranks that positive
percentiles ask for are such targets. -/
theorem scan_safe {s : State B} (hs : (histogram B).Reachable s) :
    (∀ target, 1 ≤ target → target ≤ s.hist.count_ →
      ∃ i r, HdrLatencyHistogram.scan target 0 0 s.hist.buckets_.toList = some i ∧
        i ≤ min (B.val - 1) 64 ∧ bucketRepresentative i = .ok r ∧
        r.toNat = 2 ^ i / 2 + 2 ^ i / 4 ∧ 2 ^ i / 2 + 2 ^ i / 4 < 2 ^ 64) ∧
    ∀ pct, s.hist.count_ ≠ 0 → 0 < pct →
      1 ≤ s.hist.target pct ∧ s.hist.target pct ≤ s.hist.count_ := by
  have h := summarizes_isInvariant.of_reachable hs
  refine ⟨fun target _ htarget => ?_, fun pct hcount hpct =>
    ⟨target_pos s.hist hcount hpct, target_le_count s.hist pct⟩⟩
  obtain ⟨i, hi, -, hscan⟩ := h.exists_scan htarget
  have h64 : i ≤ 64 := Nat.le_trans hi (Nat.min_le_right _ _)
  have htoNat := toNat_ofNat_middle h64
  have hword : middle i < 2 ^ 64 := htoNat ▸ UInt64.toNat_lt _
  exact ⟨i, _, hscan, hi, bucketRepresentative_of_le h64, htoNat, hword⟩

/-- The greatest word, counted in the last bucket that words fall into. -/
theorem scan_safe_greatestWord : ∃ s : State ⟨128, by decide, by decide⟩,
    s.samples = [0xffffffffffffffff] ∧ ∃ i r,
      HdrLatencyHistogram.scan 1 0 0 s.hist.buckets_.toList = some i ∧ i ≤ min (128 - 1) 64 ∧
        bucketRepresentative i = .ok r := by
  obtain ⟨s, hs, hsamples, hcount⟩ := TransitionSystem.exists_reachable
    (M := histogram ⟨128, by decide, by decide⟩)
    (p := fun s => s.samples = [0xffffffffffffffff] ∧ s.hist.count_ = 1)
    [.record 0xffffffffffffffff] (by decide)
  obtain ⟨i, r, hscan, hi, hr, -⟩ :=
    (scan_safe hs).1 1 (by decide) (by rw [hcount]; decide)
  exact ⟨s, hsamples, i, r, hscan, hi, hr⟩

end SystemsStack.Telemetry
