import SystemsStack.Core.TransitionSystem
import SystemsStack.Telemetry.Histogram
import Mathlib.Algebra.BigOperators.Group.List.Basic
import Mathlib.Data.List.Perm.Basic
import Mathlib.Data.UInt

/-!
# What a histogram records

A histogram is a summary of the samples recorded since it was constructed or last reset: their
number, sum, least and greatest, and how many fall into each bucket
(`SystemsStack.Telemetry.Summarizes`). It does not depend on their order, and two histograms that
summarize the same samples are equal. Counters are words, so that a number of samples is kept
modulo `2 ^ 64`; below that bound every field is the quantity it stands for
(`SystemsStack.Telemetry.faithfulSummary`).

## Main definitions

* `SystemsStack.Telemetry.Summarizes`, `SystemsStack.Telemetry.inBucket`.
* `SystemsStack.Telemetry.histogram`: the runs of a histogram as a transition system.

## Main results

* `SystemsStack.Telemetry.summarizes_isInvariant`, `SystemsStack.Telemetry.Summarizes.eq_of_perm`.
* `SystemsStack.Telemetry.faithfulSummary`.

## References

* `include/ll/hdr_histogram.hpp`, lines 26–39 and 62–80.
-/

namespace SystemsStack.Telemetry

open Core

variable {B : Buckets} {samples samples' : List UInt64} {hist hist' : HdrLatencyHistogram B}
  {v w : UInt64} {i : ℕ}

/-! ### Minimum and maximum of words -/

theorem le_min_iff {u : UInt64} : u ≤ min v w ↔ u ≤ v ∧ u ≤ w := Std.le_min_iff

theorem max_le_iff {u : UInt64} : max v w ≤ u ↔ v ≤ u ∧ w ≤ u := by
  change (if v ≤ w then w else v) ≤ u ↔ _
  split_ifs with h
  · exact ⟨fun hw => ⟨UInt64.le_trans h hw, hw⟩, And.right⟩
  · have hle : w ≤ v := UInt64.le_of_lt (UInt64.not_le.mp h)
    exact ⟨fun hv => ⟨hv, UInt64.le_trans hle hv⟩, And.left⟩

theorem min_eq_or (v w : UInt64) : min v w = v ∨ min v w = w := Std.min_eq_or

theorem max_eq_or (v w : UInt64) : max v w = v ∨ max v w = w := by
  change (if v ≤ w then w else v) = v ∨ (if v ≤ w then w else v) = w
  split_ifs
  · exact .inr rfl
  · exact .inl rfl

theorem le_greatestWord (w : UInt64) : w ≤ .ofNat (UInt64.size - 1) := by
  have hsize : (UInt64.ofNat (UInt64.size - 1)).toNat = 2 ^ 64 - 1 := rfl
  rw [UInt64.le_iff_toNat_le, hsize]
  exact Nat.le_sub_one_of_lt w.toNat_lt

/-! ### Summaries -/

/-- The number of samples in a bucket. -/
def inBucket (B : Buckets) (samples : List UInt64) (i : ℕ) : ℕ :=
  samples.countP fun v => bucketIndex B v = i

/-- The histogram is the summary of the samples: with counters modulo `2 ^ 64`, and the greatest
word and `0` for the least and the greatest of no samples. -/
structure Summarizes (samples : List UInt64) (hist : HdrLatencyHistogram B) : Prop where
  count : hist.count_ = .ofNat samples.length
  sum : hist.sum_ = .ofNat (samples.map UInt64.toNat).sum
  le_min_iff : ∀ w, w ≤ hist.min_ ↔ ∀ v ∈ samples, w ≤ v
  max_le_iff : ∀ w, hist.max_ ≤ w ↔ ∀ v ∈ samples, v ≤ w
  min_mem : samples ≠ [] → hist.min_ ∈ samples
  max_mem : samples ≠ [] → hist.max_ ∈ samples
  bucket : ∀ i (hi : i < B.val), hist.buckets_[i] = .ofNat (inBucket B samples i)

namespace Summarizes

theorem nil : Summarizes [] ({} : HdrLatencyHistogram B) where
  count := rfl
  sum := rfl
  le_min_iff w := iff_of_true (le_greatestWord w) (fun _ h => nomatch h)
  max_le_iff _ := iff_of_true UInt64.zero_le (fun _ h => nomatch h)
  min_mem h := absurd rfl h
  max_mem h := absurd rfl h
  bucket _ hi := Vector.getElem_replicate hi

theorem record (h : Summarizes samples hist) (value : UInt64) :
    Summarizes (samples ++ [value]) (hist.record value) where
  count := by
    rw [List.length_append, UInt64.ofNat_add, ← h.count]
    rfl
  sum := by
    rw [List.map_append, List.sum_append, UInt64.ofNat_add, ← h.sum, List.map_singleton,
      List.sum_singleton, UInt64.ofNat_toNat]
    rfl
  le_min_iff w := by
    change w ≤ min hist.min_ value ↔ _
    rw [Telemetry.le_min_iff, h.le_min_iff, List.forall_mem_append, List.forall_mem_singleton]
  max_le_iff w := by
    change max hist.max_ value ≤ w ↔ _
    rw [Telemetry.max_le_iff, h.max_le_iff, List.forall_mem_append, List.forall_mem_singleton]
  min_mem _ := by
    change min hist.min_ value ∈ _
    rw [List.mem_append, List.mem_singleton]
    by_cases hne : samples = []
    · -- the first sample is not above the initial minimum
      have hle : value ≤ hist.min_ := (h.le_min_iff value).mpr (hne ▸ fun _ h => nomatch h)
      exact .inr (UInt64.le_antisymm (Telemetry.le_min_iff.mp UInt64.le_rfl).2
        (Telemetry.le_min_iff.mpr ⟨hle, UInt64.le_rfl⟩))
    · refine (min_eq_or hist.min_ value).imp (fun heq => ?_) id
      rw [heq]
      exact h.min_mem hne
  max_mem _ := by
    change max hist.max_ value ∈ _
    rw [List.mem_append, List.mem_singleton]
    by_cases hne : samples = []
    · have hle : hist.max_ ≤ value := (h.max_le_iff value).mpr (hne ▸ fun _ h => nomatch h)
      exact .inr (UInt64.le_antisymm (Telemetry.max_le_iff.mpr ⟨hle, UInt64.le_rfl⟩)
        (Telemetry.max_le_iff.mp UInt64.le_rfl).2)
    · refine (max_eq_or hist.max_ value).imp (fun heq => ?_) id
      rw [heq]
      exact h.max_mem hne
  bucket i hi := by
    rw [HdrLatencyHistogram.record, Vector.getElem_set, inBucket, List.countP_append,
      List.countP_singleton, UInt64.ofNat_add]
    by_cases heq : bucketIndex B value = i
    · subst heq
      rw [if_pos rfl, if_pos (decide_eq_true rfl), h.bucket _ hi]
      rfl
    · rw [if_neg heq, if_neg (mt of_decide_eq_true heq), h.bucket i hi]
      exact (UInt64.add_zero _).symm

/-- The order of the samples does not matter. -/
theorem of_perm (h : Summarizes samples hist) (hperm : samples.Perm samples') :
    Summarizes samples' hist where
  count := hperm.length_eq ▸ h.count
  sum := (hperm.map UInt64.toNat).sum_eq ▸ h.sum
  le_min_iff w := (h.le_min_iff w).trans (forall_congr' fun _ => by rw [hperm.mem_iff])
  max_le_iff w := (h.max_le_iff w).trans (forall_congr' fun _ => by rw [hperm.mem_iff])
  min_mem hne := hperm.mem_iff.mp (h.min_mem fun hnil => hne (hnil ▸ hperm).nil_eq.symm)
  max_mem hne := hperm.mem_iff.mp (h.max_mem fun hnil => hne (hnil ▸ hperm).nil_eq.symm)
  bucket i hi := by
    rw [h.bucket i hi, inBucket, inBucket, hperm.countP_eq]

/-- Samples have one summary. -/
theorem eq (h : Summarizes samples hist) (h' : Summarizes samples hist') : hist = hist' := by
  have hmin : hist.min_ = hist'.min_ := UInt64.le_antisymm
    ((h'.le_min_iff _).mpr ((h.le_min_iff _).mp UInt64.le_rfl))
    ((h.le_min_iff _).mpr ((h'.le_min_iff _).mp UInt64.le_rfl))
  have hmax : hist.max_ = hist'.max_ := UInt64.le_antisymm
    ((h.max_le_iff _).mpr ((h'.max_le_iff _).mp UInt64.le_rfl))
    ((h'.max_le_iff _).mpr ((h.max_le_iff _).mp UInt64.le_rfl))
  have hbuckets : hist.buckets_ = hist'.buckets_ :=
    Vector.ext fun i hi => (h.bucket i hi).trans (h'.bucket i hi).symm
  have hcount : hist.count_ = hist'.count_ := h.count.trans h'.count.symm
  have hsum : hist.sum_ = hist'.sum_ := h.sum.trans h'.sum.symm
  rcases hist with ⟨⟩
  rcases hist' with ⟨⟩
  simp only [HdrLatencyHistogram.mk.injEq]
  exact ⟨hbuckets, hcount, hsum, hmin, hmax⟩

end Summarizes

/-! ### Runs -/

/-- A histogram, and the samples recorded since it was constructed or last reset. -/
structure State (B : Buckets) where
  hist : HdrLatencyHistogram B := {}
  samples : List UInt64 := []

/-- The calls that change a histogram. -/
inductive Action where
  | record (value : UInt64)
  | reset
  deriving DecidableEq

/-- One call. -/
def step (s : State B) : Action → State B
  | .record value => { hist := s.hist.record value, samples := s.samples ++ [value] }
  | .reset => { hist := s.hist.reset }

/-- The runs of a histogram. -/
def histogram (B : Buckets) : TransitionSystem (State B) Action where
  init := {}
  step s act := some (step s act)

theorem summarizes_isInvariant :
    (histogram B).IsInvariant fun s => Summarizes s.samples s.hist where
  init := .nil
  step {s act s'} hs h := by
    obtain rfl := Option.some.inj h
    cases act with
    | record value => exact hs.record value
    | reset => exact .nil

/-! ### Counting bucket by bucket -/

/-- The number of samples in the buckets before a given one. -/
def before (B : Buckets) (samples : List UInt64) (i : ℕ) : ℕ :=
  samples.countP fun v => bucketIndex B v < i

theorem before_zero : before B samples 0 = 0 :=
  List.countP_eq_zero.mpr fun v _ => by simp

theorem before_succ (samples : List UInt64) (i : ℕ) :
    before B samples (i + 1) = before B samples i + inBucket B samples i := by
  induction samples with
  | nil => rfl
  | cons v samples ih =>
    simp only [before, inBucket, List.countP_cons, decide_eq_true_iff] at ih ⊢
    split_ifs <;> omega

/-- All samples are in some bucket. -/
theorem before_eq_length (hi : B.val ≤ i) : before B samples i = samples.length :=
  List.countP_eq_length.mpr fun v _ =>
    decide_eq_true (Nat.lt_of_lt_of_le (bucketIndex_lt B v) hi)

theorem sum_inBucket (samples : List UInt64) (n : ℕ) :
    ((List.range n).map (inBucket B samples)).sum = before B samples n := by
  induction n with
  | zero => exact before_zero.symm
  | succ n ih => rw [List.sum_range_succ, ih, before_succ]

theorem inBucket_le_length : inBucket B samples i ≤ samples.length := List.countP_le_length

/-- The buckets behind the one of the greatest word stay empty. -/
theorem inBucket_eq_zero (hi : 64 < i) : inBucket B samples i = 0 :=
  List.countP_eq_zero.mpr fun v _ h =>
    absurd (of_decide_eq_true h) (Nat.ne_of_lt (Nat.lt_of_le_of_lt (bucketIndex_le B v) hi))

namespace Summarizes

variable (h : Summarizes samples hist) (hlen : samples.length < 2 ^ 64)
include h hlen

theorem toNat_count : hist.count.toNat = samples.length := by
  rw [HdrLatencyHistogram.count, h.count, UInt64.toNat_ofNat', Nat.mod_eq_of_lt hlen]

theorem toNat_bucket (hi : i < B.val) : hist.buckets_[i].toNat = inBucket B samples i := by
  rw [h.bucket i hi, UInt64.toNat_ofNat',
    Nat.mod_eq_of_lt (Nat.lt_of_le_of_lt inBucket_le_length hlen)]

/-- Nothing is lost or counted twice. -/
theorem sum_buckets : (hist.buckets_.toList.map UInt64.toNat).sum = hist.count.toNat := by
  have hlist : hist.buckets_.toList.map UInt64.toNat =
      (List.range B.val).map (inBucket B samples) := by
    refine List.ext_getElem (by simp) fun i hi _ => ?_
    rw [List.length_map, Vector.length_toList] at hi
    rw [List.getElem_map, List.getElem_map, List.getElem_range, Vector.getElem_toList]
    exact h.toNat_bucket hlen hi
  rw [hlist, sum_inBucket, before_eq_length (Nat.le_refl _), h.toNat_count hlen]

/-- The least sample, or `0` when there is none. -/
theorem min_eq : (samples = [] → hist.min = 0) ∧
    (samples ≠ [] → hist.min ∈ samples ∧ ∀ v ∈ samples, hist.min ≤ v) := by
  constructor
  · intro hnil
    have hcount : hist.count_ = 0 := h.count.trans (hnil ▸ rfl)
    exact if_pos hcount
  · intro hne
    have hcount : hist.count_ ≠ 0 := by
      intro hzero
      have hlength := h.toNat_count hlen
      rw [HdrLatencyHistogram.count, hzero] at hlength
      exact hne (List.length_eq_zero_iff.mp hlength.symm)
    have hmin : hist.min = hist.min_ := if_neg hcount
    rw [hmin]
    exact ⟨h.min_mem hne, (h.le_min_iff _).mp UInt64.le_rfl⟩

omit hlen in
/-- The greatest sample, or `0` when there is none. -/
theorem max_eq : (samples = [] → hist.max = 0) ∧
    (samples ≠ [] → hist.max ∈ samples ∧ ∀ v ∈ samples, v ≤ hist.max) := by
  constructor
  · intro hnil
    have hle : hist.max_ ≤ 0 := (h.max_le_iff 0).mpr (hnil ▸ fun _ h => nomatch h)
    exact UInt64.le_antisymm hle UInt64.zero_le
  · exact fun hne => ⟨h.max_mem hne, (h.max_le_iff _).mp UInt64.le_rfl⟩

end Summarizes

/-- **A histogram is a faithful summary of its samples.** After fewer than `2 ^ 64` calls of
`record` since the last `reset`: every field is the number it stands for, each bucket counts the
samples of its range, no sample is lost, and the order of the samples does not matter; `reset`
gives a new histogram. -/
theorem faithfulSummary {s : State B} (hs : (histogram B).Reachable s)
    (hlen : s.samples.length < 2 ^ 64) :
    s.hist.count.toNat = s.samples.length ∧
    (s.samples = [] → s.hist.min = 0 ∧ s.hist.max = 0) ∧
    (s.samples ≠ [] → (s.hist.min ∈ s.samples ∧ ∀ v ∈ s.samples, s.hist.min ≤ v) ∧
      (s.hist.max ∈ s.samples ∧ ∀ v ∈ s.samples, v ≤ s.hist.max)) ∧
    (∀ i (_ : i < B.val),
      (i = 0 → s.hist.buckets_[i].toNat = s.samples.countP (· = 0)) ∧
      (1 ≤ i → i ≤ min (B.val - 2) 64 → s.hist.buckets_[i].toNat =
        s.samples.countP fun v => 2 ^ (i - 1) ≤ v.toNat ∧ v.toNat < 2 ^ i) ∧
      (B.val ≤ 65 → i = B.val - 1 → s.hist.buckets_[i].toNat =
        s.samples.countP fun v => 2 ^ (B.val - 2) ≤ v.toNat) ∧
      (64 < i → s.hist.buckets_[i] = 0)) ∧
    (s.hist.buckets_.toList.map UInt64.toNat).sum = s.hist.count.toNat ∧
    (∀ t, (histogram B).Reachable t → s.samples.Perm t.samples → t.hist = s.hist) ∧
    s.hist.reset = (histogram B).init.hist := by
  have h := summarizes_isInvariant.of_reachable hs
  refine ⟨h.toNat_count hlen, fun hnil => ⟨(h.min_eq hlen).1 hnil, h.max_eq.1 hnil⟩,
    fun hne => ⟨(h.min_eq hlen).2 hne, h.max_eq.2 hne⟩, fun i hi => ⟨?_, ?_, ?_, ?_⟩,
    h.sum_buckets hlen, fun t ht hperm => ?_, rfl⟩
  · rintro rfl
    rw [h.toNat_bucket hlen hi]
    exact List.countP_congr fun v _ => by simp [bucketIndex_eq_zero_iff]
  · intro hpos hle
    rw [h.toNat_bucket hlen hi]
    have hle : i ≤ B.val - 2 := (Nat.le_min.mp hle).1
    exact List.countP_congr fun v _ => by simp [bucketIndex_eq_iff hpos hle]
  · rintro - rfl
    rw [h.toNat_bucket hlen hi]
    exact List.countP_congr fun v _ => by simp [bucketIndex_eq_last_iff]
  · intro h64
    rw [h.bucket i hi, inBucket_eq_zero h64]
    rfl
  · exact (summarizes_isInvariant.of_reachable ht).eq (h.of_perm hperm)

/-- The fewest buckets that the class allows. -/
def Buckets.fewest : Buckets := ⟨8, by decide, by decide⟩

/-- A sample is forgotten, and three are recorded. -/
theorem faithfulSummary_threeSamples : ∃ s : State .fewest,
    s.samples = [3, 0, 9] ∧ s.hist.count.toNat = 3 ∧
      (s.hist.buckets_.toList.map UInt64.toNat).sum = s.hist.count.toNat := by
  obtain ⟨s, hs, hsamples⟩ := TransitionSystem.exists_reachable (M := histogram .fewest)
    (p := fun s => s.samples = [3, 0, 9])
    [.record 5, .reset, .record 3, .record 0, .record 9] (by decide)
  have hlen : s.samples.length < 2 ^ 64 := by
    rw [hsamples]
    decide
  obtain ⟨hcount, -, -, -, hsum, -, -⟩ := faithfulSummary hs hlen
  exact ⟨s, hsamples, hcount.trans (by rw [hsamples]; rfl), hsum⟩

end SystemsStack.Telemetry
