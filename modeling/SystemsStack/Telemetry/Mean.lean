import SystemsStack.Telemetry.Summary
import Mathlib.Algebra.Group.Action.Defs
import Mathlib.Algebra.Order.BigOperators.Group.List
import Mathlib.Algebra.Order.Field.Basic
import Mathlib.Data.Rat.Cast.Order

/-!
# The mean of the samples

`record` adds every sample to a word, without a test. The mean that is reported is that of the
samples as long as their total is a word, and then it is between the extreme samples. As soon as the
total wraps around, the mean is wrong, however few the samples are
(`SystemsStack.Telemetry.mean_iff`).

## Main definitions

* `SystemsStack.Telemetry.total`, `SystemsStack.Telemetry.arithmeticMean`.

## Main results

* `SystemsStack.Telemetry.arithmeticMean_between`, `SystemsStack.Telemetry.mean_iff`.

## References

* `include/ll/hdr_histogram.hpp`, lines 26–42; `examples/hdr/main.cpp`, lines 10–26.
-/

namespace SystemsStack.Telemetry

open Core

variable {B : Buckets} {samples : List UInt64} {hist : HdrLatencyHistogram B}

/-- The sum of the samples, which need not be a word. -/
def total (samples : List UInt64) : ℕ := (samples.map UInt64.toNat).sum

/-- The mean of the samples. -/
def arithmeticMean (samples : List UInt64) : ℚ := total samples / samples.length

/-- The mean of some samples is between bounds of the samples. -/
theorem arithmeticMean_between (hne : samples ≠ []) {least greatest : UInt64}
    (hleast : ∀ v ∈ samples, least ≤ v) (hgreatest : ∀ v ∈ samples, v ≤ greatest) :
    (least.toNat : ℚ) ≤ arithmeticMean samples ∧ arithmeticMean samples ≤ greatest.toNat := by
  have hlength : (0 : ℚ) < samples.length := Nat.cast_pos.mpr (List.length_pos_iff.mpr hne)
  have hlow : samples.length * least.toNat ≤ total samples := by
    have := (samples.map UInt64.toNat).card_nsmul_le_sum least.toNat fun n hn => by
      obtain ⟨v, hv, rfl⟩ := List.mem_map.mp hn
      exact UInt64.le_iff_toNat_le.mp (hleast v hv)
    rwa [List.length_map, smul_eq_mul] at this
  have hhigh : total samples ≤ samples.length * greatest.toNat := by
    have := (samples.map UInt64.toNat).sum_le_card_nsmul greatest.toNat fun n hn => by
      obtain ⟨v, hv, rfl⟩ := List.mem_map.mp hn
      exact UInt64.le_iff_toNat_le.mp (hgreatest v hv)
    rwa [List.length_map, smul_eq_mul] at this
  constructor
  · rw [arithmeticMean, le_div_iff₀ hlength, mul_comm]
    exact_mod_cast hlow
  · rw [arithmeticMean, div_le_iff₀ hlength, mul_comm]
    exact_mod_cast hhigh

namespace Summarizes

variable (h : Summarizes samples hist) (hlen : samples.length < 2 ^ 64) (hne : samples ≠ [])
include h hlen hne

/-- The mean reported is that of the sum modulo `2 ^ 64`. -/
theorem mean_eq_mod : hist.mean = (total samples % 2 ^ 64 : ℕ) / (samples.length : ℚ) := by
  have hcount : hist.count_.toNat = samples.length := h.toNat_count hlen
  have hsum : hist.sum_.toNat = total samples % 2 ^ 64 := by
    rw [h.sum, UInt64.toNat_ofNat', total]
  have hzero : hist.count_ ≠ 0 := by
    intro hzero
    rw [hzero] at hcount
    exact hne (List.length_eq_zero_iff.mp hcount.symm)
  rw [HdrLatencyHistogram.mean, if_neg hzero, hcount, hsum]

theorem mean_eq_arithmeticMean_iff : hist.mean = arithmeticMean samples ↔
    total samples < 2 ^ 64 := by
  have hlength : (samples.length : ℚ) ≠ 0 :=
    Nat.cast_ne_zero.mpr (mt List.length_eq_zero_iff.mp hne)
  rw [h.mean_eq_mod hlen hne, arithmeticMean, div_left_inj' hlength, Nat.cast_inj]
  exact ⟨fun hmod => hmod ▸ Nat.mod_lt _ (Nat.two_pow_pos 64), Nat.mod_eq_of_lt⟩

end Summarizes

/-- **When the mean is the mean.** In every reachable state with samples, fewer than `2 ^ 64` of
them, the mean reported is that of the samples, and is between the least and the greatest of them,
exactly when the sum of the samples is a word. -/
theorem mean_iff {s : State B} (hs : (histogram B).Reachable s) (hne : s.samples ≠ [])
    (hlen : s.samples.length < 2 ^ 64) :
    (s.hist.mean = arithmeticMean s.samples ∧
      (s.hist.min.toNat : ℚ) ≤ s.hist.mean ∧ s.hist.mean ≤ s.hist.max.toNat) ↔
    total s.samples < 2 ^ 64 := by
  have h := summarizes_isInvariant.of_reachable hs
  rw [← h.mean_eq_arithmeticMean_iff hlen hne]
  refine ⟨And.left, fun hmean => ⟨hmean, ?_⟩⟩
  rw [hmean]
  exact arithmeticMean_between hne ((h.min_eq hlen).2 hne).2 (h.max_eq.2 hne).2

/-- The mean of three samples. -/
theorem mean_threeSamples : ∃ s : State .fewest, s.samples = [3, 0, 9] ∧
    s.hist.mean = arithmeticMean s.samples := by
  obtain ⟨s, hs, hsamples⟩ := TransitionSystem.exists_reachable (M := histogram .fewest)
    (p := fun s => s.samples = [3, 0, 9]) [.record 3, .record 0, .record 9] (by decide)
  have hne : s.samples ≠ [] := by simp [hsamples]
  have hlen : s.samples.length < 2 ^ 64 := by
    rw [hsamples]
    decide
  have htotal : total s.samples < 2 ^ 64 := by
    rw [hsamples]
    decide
  exact ⟨s, hsamples, ((mean_iff hs hne hlen).mpr htotal).1⟩

/-- The samples `2 ^ 64 - 1` and `1` have the mean `0`. -/
theorem not_mean_wrapped : ¬ ∀ (B : Buckets) (s : State B), (histogram B).Reachable s →
    s.samples ≠ [] → s.samples.length < 2 ^ 64 →
      s.hist.mean = arithmeticMean s.samples ∧
      (s.hist.min.toNat : ℚ) ≤ s.hist.mean ∧ s.hist.mean ≤ s.hist.max.toNat := by
  intro h
  obtain ⟨s, hs, hne, hlen, hsum, hmin⟩ := TransitionSystem.exists_reachable
    (M := histogram .fewest)
    (p := fun s => s.samples ≠ [] ∧ s.samples.length < 2 ^ 64 ∧ s.hist.sum_ = 0 ∧
      s.hist.min = 1)
    [.record 0xffffffffffffffff, .record 1] (by decide)
  obtain ⟨-, hle, -⟩ := h .fewest s hs hne hlen
  have hzero : s.hist.mean = 0 := by
    rw [HdrLatencyHistogram.mean, hsum]
    split_ifs <;> simp
  rw [hzero, hmin] at hle
  exact absurd hle (by decide)

end SystemsStack.Telemetry
