import SystemsStack.Telemetry.Summary
import Mathlib.Order.Bounds.Basic
import Mathlib.Tactic.Linarith

/-!
# Percentiles of a histogram

`value_at_percentile` reports the middle of the first bucket up to which the percentile is reached,
that is, up to which enough samples are counted
(`SystemsStack.Telemetry.Summarizes.exists_valueAtPercentile`). It never falls through to `max_`.
The larger the percentile, the later the bucket, so that percentiles are monotone
(`SystemsStack.Telemetry.percentile_monotone`). The middle of a bucket is chosen without a look at
the extreme samples: it can be above the greatest one when that shares its bucket, and below the
least one (`SystemsStack.Telemetry.percentile_between_iff`).

## Main definitions

* `SystemsStack.Telemetry.Reached`.

## Main results

* `SystemsStack.Telemetry.Summarizes.exists_valueAtPercentile`.
* `SystemsStack.Telemetry.percentile_monotone`, `SystemsStack.Telemetry.percentile_between_iff`.

## References

* `include/ll/hdr_histogram.hpp`, lines 44–60.
* `tests/test_industry_stack.cpp`, lines 63–78.
-/

namespace SystemsStack.Telemetry

open Core

variable {B : Buckets} {samples : List UInt64} {hist : HdrLatencyHistogram B} {p q pct : ℚ}
  {i k : ℕ}

/-! ### The loop -/

/-- The loop stops at the first bucket at which the running total reaches the target. -/
theorem scan_eq_some (total : ℕ → UInt64) {target : UInt64} {buckets : List UInt64}
    (htotal : ∀ j (hj : j < buckets.length), total (i + j) + buckets[j] = total (i + j + 1))
    (hik : i ≤ k) (hk : k < i + buckets.length) (hreached : target ≤ total (k + 1))
    (hfirst : ∀ j, i ≤ j → j < k → ¬target ≤ total (j + 1)) :
    HdrLatencyHistogram.scan target (total i) i buckets = some k := by
  induction buckets generalizing i with
  | nil => exact absurd hk (Nat.not_lt.mpr hik)
  | cons bucket buckets ih =>
    have hhead : total i + bucket = total (i + 1) := htotal 0 (Nat.succ_pos _)
    rw [HdrLatencyHistogram.scan, hhead]
    rcases Nat.eq_or_lt_of_le hik with rfl | hlt
    · exact if_pos hreached
    · rw [if_neg (hfirst i (Nat.le_refl i) hlt)]
      refine ih (fun j hj => ?_) hlt ?_ fun j hj => hfirst j (Nat.le_of_succ_le hj)
      · have := htotal (j + 1) (Nat.succ_lt_succ hj)
        rwa [← Nat.add_assoc, Nat.add_right_comm i j 1, List.getElem_cons_succ] at this
      · rw [List.length_cons] at hk
        omega

/-! ### The target -/

theorem ceil_target_le (hist : HdrLatencyHistogram B) (pct : ℚ) :
    (min pct 100 / 100 * hist.count_.toNat).ceil ≤ (hist.count_.toNat : ℤ) := by
  rw [Rat.ceil_le_iff]
  have hmin : min pct 100 / 100 ≤ 1 := by
    have := min_le_right pct 100
    linarith
  have hcount : (0 : ℚ) ≤ hist.count_.toNat := Nat.cast_nonneg _
  have := mul_le_mul_of_nonneg_right hmin hcount
  rwa [one_mul] at this

/-- The target does not wrap around. -/
theorem toNat_target (hist : HdrLatencyHistogram B) (pct : ℚ) :
    (hist.target pct).toNat = (min pct 100 / 100 * hist.count_.toNat).ceil.toNat := by
  have hle := ceil_target_le hist pct
  have hlt := hist.count_.toNat_lt
  rw [HdrLatencyHistogram.target, UInt64.toNat_ofNat']
  exact Nat.mod_eq_of_lt (by omega)

theorem target_le_count (hist : HdrLatencyHistogram B) (pct : ℚ) :
    hist.target pct ≤ hist.count_ := by
  have hle := ceil_target_le hist pct
  rw [UInt64.le_iff_toNat_le, toNat_target]
  omega

/-! ### Reaching a percentile -/

/-- The samples before a bucket make up the percentile, with counters modulo `2 ^ 64`. -/
def Reached (B : Buckets) (samples : List UInt64) (pct : ℚ) (i : ℕ) : Prop :=
  min pct 100 * (samples.length % 2 ^ 64 : ℕ) ≤ 100 * (before B samples i % 2 ^ 64 : ℕ)

instance : Decidable (Reached B samples pct i) :=
  inferInstanceAs (Decidable (min pct 100 * (samples.length % 2 ^ 64 : ℕ) ≤
    100 * (before B samples i % 2 ^ 64 : ℕ)))

/-- A larger percentile is reached later. -/
theorem Reached.mono (h : Reached B samples q i) (hpq : p ≤ q) : Reached B samples p i := by
  have hmin : min p 100 ≤ min q 100 := min_le_min_right 100 hpq
  have hcount : (0 : ℚ) ≤ (samples.length % 2 ^ 64 : ℕ) := Nat.cast_nonneg _
  exact (mul_le_mul_of_nonneg_right hmin hcount).trans h

/-- A positive percentile is not reached while nothing is counted. -/
theorem not_reached_of_before_eq_zero (hlen : samples.length % 2 ^ 64 ≠ 0) (hpct : 0 < pct)
    (hzero : before B samples i = 0) : ¬Reached B samples pct i := by
  rw [Reached, hzero, Nat.zero_mod, Nat.cast_zero, mul_zero, not_le]
  exact mul_pos (lt_min hpct (by norm_num)) (Nat.cast_pos.mpr (Nat.pos_of_ne_zero hlen))

/-- Every percentile is reached when all samples are counted. -/
theorem reached_of_before_eq_length (hall : before B samples i = samples.length) :
    Reached B samples pct i := by
  rw [Reached, hall]
  exact mul_le_mul_of_nonneg_right (min_le_right pct 100) (Nat.cast_nonneg _)

namespace Summarizes

variable (h : Summarizes samples hist)
include h

theorem toNat_count_eq_mod : hist.count_.toNat = samples.length % 2 ^ 64 := by
  rw [h.count, UInt64.toNat_ofNat']

/-- The target is met exactly when the percentile is reached. -/
theorem target_le_iff :
    hist.target pct ≤ .ofNat (before B samples i) ↔ Reached B samples pct i := by
  rw [UInt64.le_iff_toNat_le, toNat_target, UInt64.toNat_ofNat', Int.toNat_le,
    Rat.ceil_le_iff, Int.cast_natCast, h.toNat_count_eq_mod, div_mul_eq_mul_div,
    div_le_iff₀ (by norm_num), mul_comm _ (100 : ℚ)]
  rfl

/-- The running totals of the loop. -/
theorem before_add_bucket {j : ℕ} (hj : j < hist.buckets_.toList.length) :
    UInt64.ofNat (before B samples (0 + j)) + hist.buckets_.toList[j] =
      .ofNat (before B samples (0 + j + 1)) := by
  rw [Vector.getElem_toList, h.bucket, Nat.zero_add, before_succ, UInt64.ofNat_add]

/-- The loop stops at the first bucket up to which the target is met, one that words fall into, as
long as the target is at most the number of samples. -/
theorem exists_scan {target : UInt64} (htarget : target ≤ hist.count_) :
    ∃ k ≤ min (B.val - 1) 64,
      IsLeast {i | target ≤ .ofNat (before B samples (i + 1))} k ∧
      HdrLatencyHistogram.scan target 0 0 hist.buckets_.toList = some k := by
  have hB := B.le_val
  -- all samples are counted up to the last bucket, and up to that of the greatest word
  have hall : before B samples (min (B.val - 1) 64 + 1) = samples.length :=
    List.countP_eq_length.mpr fun v _ => by
      have := bucketIndex_lt B v
      have := bucketIndex_le B v
      rw [decide_eq_true_iff]
      omega
  have hlast : target ≤ .ofNat (before B samples (min (B.val - 1) 64 + 1)) := by
    rwa [hall, ← h.count]
  have hex : ∃ i, target ≤ UInt64.ofNat (before B samples (i + 1)) := ⟨_, hlast⟩
  have hle : Nat.find hex ≤ min (B.val - 1) 64 := Nat.find_min' hex hlast
  refine ⟨Nat.find hex, hle, ⟨Nat.find_spec hex, fun i hi => Nat.find_min' hex hi⟩, ?_⟩
  have hlt : Nat.find hex < 0 + hist.buckets_.toList.length := by
    rw [Vector.length_toList]
    omega
  have hzero : UInt64.ofNat (before B samples 0) = 0 := congrArg UInt64.ofNat before_zero
  rw [← hzero]
  exact scan_eq_some (fun i => .ofNat (before B samples i)) (fun j hj => h.before_add_bucket hj)
    (Nat.zero_le _) hlt (Nat.find_spec hex) fun j _ hj => Nat.find_min hex hj

/-- What is reported is the middle of the first bucket up to which the percentile is reached. -/
theorem exists_valueAtPercentile (hcount : hist.count_ ≠ 0) (hpct : 0 < pct) :
    ∃ k, k < B.val ∧ k ≤ 64 ∧ IsLeast {i | Reached B samples pct (i + 1)} k ∧
      hist.valueAtPercentile pct = .ok (some (.ofNat (middle k))) := by
  have hB := B.le_val
  obtain ⟨k, hk, hleast, hscan⟩ := h.exists_scan (target_le_count hist pct)
  simp only [h.target_le_iff] at hleast
  refine ⟨k, by omega, by omega, hleast, ?_⟩
  rw [HdrLatencyHistogram.valueAtPercentile, if_neg (by simp [hcount, hpct]), hscan]
  dsimp only
  rw [bucketRepresentative_of_le (by omega)]
  rfl

theorem count_ne_zero_iff : hist.count_ ≠ 0 ↔ samples.length % 2 ^ 64 ≠ 0 := by
  rw [← h.toNat_count_eq_mod, ne_eq, ne_eq, ← UInt64.toNat_inj]
  rfl

/-- Nothing is reported exactly when the counter is zero, or for a percentile that is not
positive. -/
theorem valueAtPercentile_eq_none_iff :
    hist.valueAtPercentile pct = .ok none ↔ samples.length % 2 ^ 64 = 0 ∨ pct ≤ 0 := by
  have hcount := h.count_ne_zero_iff
  constructor
  · intro hnone
    by_contra hsome
    rw [not_or, not_le] at hsome
    obtain ⟨k, -, -, -, hk⟩ := h.exists_valueAtPercentile (hcount.mpr hsome.1) hsome.2
    rw [hk] at hnone
    exact nomatch hnone
  · intro hnone
    exact if_pos (hnone.imp_left (not_imp_not.mp hcount.mp))

end Summarizes

/-! ### Percentiles are monotone -/

variable {s : State B}

/-- **Percentiles are monotone.** In every reachable state nothing is reported exactly when the
number of samples is a multiple of `2 ^ 64`, in particular when there are none, or when the
percentile is not positive; otherwise a larger percentile does not report a smaller value.
Percentiles are rationals, and ranks are exact, not rounded to a `double` first. -/
theorem percentile_monotone (hs : (histogram B).Reachable s) :
    (∀ p, s.hist.valueAtPercentile p = .ok none ↔ s.samples.length % 2 ^ 64 = 0 ∨ p ≤ 0) ∧
    ∀ p q, 0 < p → p ≤ q → s.samples.length % 2 ^ 64 ≠ 0 →
      ∃ a b, s.hist.valueAtPercentile p = .ok (some a) ∧
        s.hist.valueAtPercentile q = .ok (some b) ∧ a ≤ b := by
  have h := summarizes_isInvariant.of_reachable hs
  refine ⟨fun p => h.valueAtPercentile_eq_none_iff, fun p q hp hpq hlen => ?_⟩
  have hcount := h.count_ne_zero_iff.mpr hlen
  obtain ⟨i, -, hi, hleast, hvalue⟩ := h.exists_valueAtPercentile hcount hp
  obtain ⟨j, -, hj, hleast', hvalue'⟩ := h.exists_valueAtPercentile hcount (hp.trans_le hpq)
  have hij : i ≤ j := hleast'.mono hleast fun _ hreached => Reached.mono hreached hpq
  refine ⟨_, _, hvalue, hvalue', ?_⟩
  rw [UInt64.le_iff_toNat_le, toNat_ofNat_middle hi, toNat_ofNat_middle hj]
  exact middle_mono hij

/-- The percentiles of three samples. -/
theorem percentile_monotone_threeSamples : ∃ s : State .fewest, s.samples = [3, 0, 9] ∧
    ∃ a b, s.hist.valueAtPercentile 50 = .ok (some a) ∧
      s.hist.valueAtPercentile 99 = .ok (some b) ∧ a ≤ b := by
  obtain ⟨s, hs, hsamples⟩ := TransitionSystem.exists_reachable (M := histogram .fewest)
    (p := fun s => s.samples = [3, 0, 9]) [.record 3, .record 0, .record 9] (by decide)
  refine ⟨s, hsamples, (percentile_monotone hs).2 50 99 (by norm_num) (by norm_num) ?_⟩
  rw [hsamples]
  decide

/-- Any samples can be recorded. -/
theorem exists_run_record (s : State B) (samples : List UInt64) :
    ∃ t, (histogram B).run s (samples.map .record) = some t ∧
      t.samples = s.samples ++ samples := by
  induction samples generalizing s with
  | nil => exact ⟨s, rfl, (List.append_nil _).symm⟩
  | cons v samples ih =>
    obtain ⟨t, hrun, ht⟩ := ih (step s (.record v))
    exact ⟨t, hrun, ht.trans (List.append_assoc _ [v] samples)⟩

/-- After `2 ^ 64` samples nothing is reported. -/
theorem not_percentile_monotone_wrapped : ¬ ∀ (B : Buckets) (s : State B),
    (histogram B).Reachable s →
      (∀ p, s.hist.valueAtPercentile p = .ok none ↔ s.samples = [] ∨ p ≤ 0) ∧
      ∀ p q, 0 < p → p ≤ q → s.samples ≠ [] →
        ∃ a b, s.hist.valueAtPercentile p = .ok (some a) ∧
          s.hist.valueAtPercentile q = .ok (some b) ∧ a ≤ b := by
  intro h
  obtain ⟨s, hrun, hsamples⟩ := exists_run_record (histogram .fewest).init
    (List.replicate (2 ^ 64) 0)
  have hs : (histogram .fewest).Reachable s := ⟨_, hrun⟩
  have hlen : s.samples.length = 2 ^ 64 := by
    rw [hsamples, List.length_append, List.length_replicate]
    rfl
  have hmod : s.samples.length % 2 ^ 64 = 0 := by rw [hlen, Nat.mod_self]
  have hnone : s.hist.valueAtPercentile 50 = .ok none :=
    (summarizes_isInvariant.of_reachable hs).valueAtPercentile_eq_none_iff.mpr (.inl hmod)
  rcases ((h .fewest s hs).1 50).mp hnone with hnil | hle
  · rw [hnil] at hlen
    exact absurd hlen (by decide)
  · exact absurd hle (by norm_num)

/-! ### Percentiles and the extreme samples -/

namespace Summarizes

variable (h : Summarizes samples hist)
include h

/-- Nothing is counted before the bucket of the least sample. -/
theorem before_eq_zero (hi : i ≤ bucketIndex B hist.min_) : before B samples i = 0 :=
  List.countP_eq_zero.mpr fun v hv hlt =>
    have hle : bucketIndex B hist.min_ ≤ bucketIndex B v :=
      bucketIndex_mono ((h.le_min_iff _).mp UInt64.le_rfl v hv)
    absurd (of_decide_eq_true hlt) (Nat.not_lt.mpr (Nat.le_trans hi hle))

/-- Everything is counted behind the bucket of the greatest sample. -/
theorem before_eq_length (hi : bucketIndex B hist.max_ < i) :
    before B samples i = samples.length :=
  List.countP_eq_length.mpr fun v hv =>
    have hle : bucketIndex B v ≤ bucketIndex B hist.max_ :=
      bucketIndex_mono ((h.max_le_iff _).mp UInt64.le_rfl v hv)
    decide_eq_true (Nat.lt_of_le_of_lt hle hi)

variable (hleast : IsLeast {i | Reached B samples pct (i + 1)} k)
include hleast

/-- The bucket reported is not before that of the least sample. -/
theorem bucketIndex_min_le (hlen : samples.length % 2 ^ 64 ≠ 0) (hpct : 0 < pct) :
    bucketIndex B hist.min_ ≤ k := by
  by_contra hlt
  have hzero : before B samples (k + 1) = 0 := h.before_eq_zero (Nat.lt_of_not_le hlt)
  exact not_reached_of_before_eq_zero hlen hpct hzero hleast.1

/-- The bucket reported is not behind that of the greatest sample. -/
theorem le_bucketIndex_max : k ≤ bucketIndex B hist.max_ :=
  hleast.2 (reached_of_before_eq_length (h.before_eq_length (Nat.lt_succ_self _)))

/-- The value reported is below the least sample only when it is the middle of its bucket. -/
theorem min_le_middle_iff (hlen : samples.length % 2 ^ 64 ≠ 0) (hpct : 0 < pct) (hk : k < B.val) :
    hist.min_.toNat ≤ middle k ↔
      ¬(Reached B samples pct (bucketIndex B hist.min_ + 1) ∧
        middle (bucketIndex B hist.min_) < hist.min_.toNat) := by
  rcases Nat.eq_or_lt_of_le (h.bucketIndex_min_le hleast hlen hpct) with heq | hlt
  · have hreached : Reached B samples pct (bucketIndex B hist.min_ + 1) := heq ▸ hleast.1
    rw [heq] at hreached ⊢
    simp only [hreached, true_and, Nat.not_lt]
  · have hrange := (bucketIndex_le_iff (B := B) (v := hist.min_)).mp (Nat.le_refl _)
    have hpow : hist.min_.toNat < 2 ^ bucketIndex B hist.min_ := hrange.resolve_right (by omega)
    have hle : hist.min_.toNat ≤ middle k :=
      Nat.le_trans (Nat.le_of_lt hpow) (two_pow_le_middle hlt)
    exact iff_of_true hle fun hreached => absurd (hleast.2 hreached.1) (Nat.not_le.mpr hlt)

/-- The value reported is above the greatest sample only when it is the middle of its bucket. -/
theorem middle_le_max_iff (hlen : samples.length % 2 ^ 64 ≠ 0) (hpct : 0 < pct) :
    middle k ≤ hist.max_.toNat ↔
      ¬((∀ i ≤ bucketIndex B hist.max_, ¬Reached B samples pct i) ∧
        hist.max_.toNat < middle (bucketIndex B hist.max_)) := by
  rcases Nat.eq_or_lt_of_le (h.le_bucketIndex_max hleast) with heq | hlt
  · have hnone : ∀ i ≤ bucketIndex B hist.max_, ¬Reached B samples pct i := by
      intro i hi hreached
      cases i with
      | zero => exact not_reached_of_before_eq_zero hlen hpct before_zero hreached
      | succ i =>
        have hki : k ≤ i := hleast.2 hreached
        omega
    rw [← heq] at hnone ⊢
    rw [and_iff_right hnone, Nat.not_lt]
  · have hpow : 2 ^ k ≤ hist.max_.toNat := (lt_bucketIndex_iff.mp hlt).1
    have hle : middle k ≤ hist.max_.toNat := Nat.le_trans (Nat.le_of_lt (middle_lt k)) hpow
    exact iff_of_true hle fun hnone => hnone.1 (k + 1) hlt hleast.1

end Summarizes

/-- **When a percentile is between the extreme samples.** In every reachable state and for every
positive percentile, a value is reported that is neither below the least nor above the greatest
sample exactly when: the number of samples is not a multiple of `2 ^ 64`; the samples in the bucket
of the least one do not make up the percentile, or the least one is not above the middle of its
bucket; and some samples before the bucket of the greatest one make up the percentile, or the
greatest one is not below the middle of its bucket. The percentile is a rational, and its rank is
exact, not rounded to a `double` first. -/
theorem percentile_between_iff (hs : (histogram B).Reachable s) (hpct : 0 < pct) :
    (∃ r, s.hist.valueAtPercentile pct = .ok (some r) ∧ s.hist.min ≤ r ∧ r ≤ s.hist.max) ↔
      s.samples.length % 2 ^ 64 ≠ 0 ∧
      ¬(Reached B s.samples pct (bucketIndex B s.hist.min_ + 1) ∧
        middle (bucketIndex B s.hist.min_) < s.hist.min_.toNat) ∧
      ¬((∀ i ≤ bucketIndex B s.hist.max_, ¬Reached B s.samples pct i) ∧
        s.hist.max_.toNat < middle (bucketIndex B s.hist.max_)) := by
  have h := summarizes_isInvariant.of_reachable hs
  by_cases hlen : s.samples.length % 2 ^ 64 = 0
  · refine iff_of_false ?_ fun hcond => hcond.1 hlen
    rintro ⟨r, hr, -⟩
    have hnone : s.hist.valueAtPercentile pct = .ok none :=
      h.valueAtPercentile_eq_none_iff.mpr (.inl hlen)
    rw [hnone] at hr
    exact nomatch hr
  · have hcount := h.count_ne_zero_iff.mpr hlen
    obtain ⟨k, hkB, hk, hleast, hvalue⟩ := h.exists_valueAtPercentile hcount hpct
    have hmin : s.hist.min = s.hist.min_ := if_neg hcount
    rw [and_iff_right hlen, ← h.min_le_middle_iff hleast hlen hpct hkB,
      ← h.middle_le_max_iff hleast hlen hpct, ← toNat_ofNat_middle hk, ← UInt64.le_iff_toNat_le,
      ← UInt64.le_iff_toNat_le, hvalue, hmin]
    constructor
    · rintro ⟨r, hr, hle⟩
      obtain rfl := Option.some.inj (Except.ok.inj hr)
      exact hle
    · exact fun hle => ⟨_, rfl, hle⟩

/-- The greatest of the samples `0` and `3` is the middle of its bucket. -/
theorem percentile_between_atMiddle : ∃ s : State .fewest, s.samples = [0, 3] ∧
    ∃ r, s.hist.valueAtPercentile 99 = .ok (some r) ∧ s.hist.min ≤ r ∧ r ≤ s.hist.max := by
  obtain ⟨s, hs, hsamples, hmin, hmax⟩ := TransitionSystem.exists_reachable
    (M := histogram .fewest)
    (p := fun s => s.samples = [0, 3] ∧ s.hist.min_ = 0 ∧ s.hist.max_ = 3)
    [.record 0, .record 3] (by decide)
  refine ⟨s, hsamples, (percentile_between_iff hs (by norm_num)).mpr ?_⟩
  rw [hsamples, hmin, hmax]
  decide +kernel

/-- The sample `2` is reported as `3`. -/
theorem not_percentile_between_two : ¬ ∀ (B : Buckets) (s : State B) (pct : ℚ),
    (histogram B).Reachable s → s.samples ≠ [] → 0 < pct →
      ∃ r, s.hist.valueAtPercentile pct = .ok (some r) ∧ s.hist.min ≤ r ∧ r ≤ s.hist.max := by
  intro h
  obtain ⟨s, hs, hne, hvalue, hmax⟩ := TransitionSystem.exists_reachable
    (M := histogram .fewest)
    (p := fun s => s.samples ≠ [] ∧ s.hist.valueAtPercentile 100 = .ok (some 3) ∧ s.hist.max = 2)
    [.record 2] (by decide +kernel)
  obtain ⟨r, hr, -, hle⟩ := h .fewest s 100 hs hne (by norm_num)
  rw [hvalue] at hr
  obtain rfl := Option.some.inj (Except.ok.inj hr)
  rw [hmax] at hle
  exact absurd hle (by decide)

end SystemsStack.Telemetry
