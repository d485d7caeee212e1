import SystemsStack.Core.TransitionSystem
import Mathlib.Data.UInt
import Mathlib.Tactic.Common

/-!
# The sample buffer

`ll::LatencyBuffer` keeps samples in an array of fixed capacity, and counts those that it drops when
the array is full. Its counters are machine words; that of the dropped samples wraps around.

In every run it holds the first samples that have been pushed since it was cleared last, as many as
fit, in their order, and accepts a sample if and only if there is room
(`SystemsStack.Telemetry.latencyBuffer_keeps`). The array is never written outside of its bounds:
the test of `try_push` is the proof of the bound.

Source: `include/ll/tsc_clock.hpp`, lines 40–67.

## Main definitions

* `SystemsStack.Telemetry.LatencyBuffer`, with `tryPush`, `size`, `dropped`, `data`, `clear`.
* `SystemsStack.Telemetry.latencyBuffer`: its runs as a transition system.

## Main results

* `SystemsStack.Telemetry.latencyBuffer_keeps`.
-/

namespace SystemsStack.Telemetry

open Core

/-! ### The class -/

/-- A buffer of `cap` samples, of which the first `n_` are in use. -/
structure LatencyBuffer (cap : UInt64) where
  data_ : Vector UInt64 cap.toNat := .replicate cap.toNat 0
  n_ : UInt64 := 0
  dropped_ : UInt64 := 0
  deriving DecidableEq

namespace LatencyBuffer

variable {cap : UInt64} (buf : LatencyBuffer cap)

/-- Keep a sample, or drop it if the buffer is full. -/
def tryPush (sample : UInt64) : Bool × LatencyBuffer cap :=
  if hfull : buf.n_ ≥ cap then
    (false, { buf with dropped_ := buf.dropped_ + 1 })
  else
    have hn : buf.n_.toNat < cap.toNat := UInt64.lt_iff_toNat_lt.mp (UInt64.not_le.mp hfull)
    (true, { buf with data_ := buf.data_.set buf.n_.toNat sample, n_ := buf.n_ + 1 })

def size : UInt64 := buf.n_

def dropped : UInt64 := buf.dropped_

/-- The samples in use, from the pointer `data` on. -/
def data : List UInt64 := buf.data_.toList.take buf.size.toNat

/-- Forget all samples. -/
def clear : LatencyBuffer cap := { buf with n_ := 0, dropped_ := 0 }

end LatencyBuffer

/-! ### Runs -/

variable {cap : UInt64}

/-- A buffer, and the samples that have been pushed since it was cleared last. -/
structure Pushed (cap : UInt64) where
  buf : LatencyBuffer cap := {}
  samples : List UInt64 := []
  deriving DecidableEq

/-- A call of the buffer. -/
inductive BufferCall where
  | tryPush (sample : UInt64)
  | clear
  deriving DecidableEq, Repr

/-- The runs of a buffer. -/
def latencyBuffer (cap : UInt64) : TransitionSystem (Pushed cap) BufferCall where
  init := {}
  step s
    | .tryPush sample =>
        some { buf := (s.buf.tryPush sample).2, samples := s.samples ++ [sample] }
    | .clear => some { buf := s.buf.clear }

/-- The buffer holds the first of the samples, and has counted the others. -/
structure Holds (samples : List UInt64) (buf : LatencyBuffer cap) : Prop where
  size : buf.n_.toNat = min samples.length cap.toNat
  data : buf.data = samples.take cap.toNat
  dropped : buf.dropped_ = .ofNat (samples.length - cap.toNat)

namespace Holds

variable {samples : List UInt64} {buf : LatencyBuffer cap}

/-- The buffer is full if as many samples have been pushed as fit. -/
theorem full_iff (h : Holds samples buf) : cap ≤ buf.n_ ↔ cap.toNat ≤ samples.length := by
  rw [UInt64.le_iff_toNat_le, h.size, Nat.le_min]
  exact and_iff_left le_rfl

theorem nil (buf : LatencyBuffer cap) : Holds [] buf.clear where
  size := (Nat.zero_min _).symm
  data := List.take_zero.trans List.take_nil.symm
  dropped := by
    rw [List.length_nil, Nat.zero_sub]
    rfl

theorem tryPush (h : Holds samples buf) (sample : UInt64) :
    Holds (samples ++ [sample]) (buf.tryPush sample).2 := by
  have hlength : (samples ++ [sample]).length = samples.length + 1 := List.length_append
  rw [LatencyBuffer.tryPush]
  split_ifs with hfull
  · have hle : cap.toNat ≤ samples.length := h.full_iff.mp hfull
    refine ⟨?_, ?_, ?_⟩
    · change buf.n_.toNat = _
      rw [h.size, hlength]
      omega
    · change buf.data = _
      rw [h.data, List.take_append_of_le_length hle]
    · rw [hlength, Nat.sub_add_comm hle, UInt64.ofNat_add, ← h.dropped]
      rfl
  · have hlt : samples.length < cap.toNat := Nat.lt_of_not_le (hfull ∘ h.full_iff.mpr)
    have hn : buf.n_.toNat = samples.length := h.size.trans (Nat.min_eq_left hlt.le)
    have hsucc : (buf.n_ + 1).toNat = samples.length + 1 := by
      have hcap := cap.toNat_lt
      rw [UInt64.toNat_add, UInt64.toNat_one, hn, Nat.mod_eq_of_lt (by omega)]
    refine ⟨?_, ?_, ?_⟩
    · change (buf.n_ + 1).toNat = _
      rw [hsucc, hlength, Nat.min_eq_left hlt]
    · have hdata : buf.data_.toList.take samples.length = samples := by
        have hdata := h.data
        rwa [LatencyBuffer.data, LatencyBuffer.size, hn, List.take_of_length_le hlt.le] at hdata
      change (buf.data_.set buf.n_.toNat sample).toList.take (buf.n_ + 1).toNat = _
      have hroom : samples.length < buf.data_.toList.length := by rwa [Vector.length_toList]
      rw [hsucc, Vector.toList_set, hn, List.take_add_one, List.take_set_of_le le_rfl, hdata,
        List.getElem?_set_self hroom, List.take_of_length_le (hlength ▸ hlt)]
      rfl
    · rw [h.dropped, hlength, Nat.sub_eq_zero_of_le hlt.le, Nat.sub_eq_zero_of_le hlt]

end Holds

theorem holds_isInvariant (cap : UInt64) :
    (latencyBuffer cap).IsInvariant fun s => Holds s.samples s.buf where
  init := .nil {}
  step {s a s'} hs h := by
    cases a with
    | tryPush sample =>
      obtain rfl := Option.some.inj h
      exact hs.tryPush sample
    | clear =>
      obtain rfl := Option.some.inj h
      exact .nil s.buf

/-- **The first samples are kept.** In every run, a buffer of any capacity holds the samples that
have been pushed since it was cleared last, in their order, up to its capacity; it has counted the
others, modulo `2 ^ 64`; and it accepts the next sample if and only if there is room. -/
theorem latencyBuffer_keeps {cap : UInt64} {s : Pushed cap}
    (hs : (latencyBuffer cap).Reachable s) :
    s.buf.data = s.samples.take cap.toNat ∧
      s.buf.size.toNat = min s.samples.length cap.toNat ∧
      s.buf.dropped.toNat = (s.samples.length - cap.toNat) % 2 ^ 64 ∧
      ∀ sample, (s.buf.tryPush sample).1 = decide (s.samples.length < cap.toNat) := by
  have h := (holds_isInvariant cap).of_reachable hs
  refine ⟨h.data, h.size, ?_, fun sample => ?_⟩
  · rw [LatencyBuffer.dropped, h.dropped, UInt64.toNat_ofNat']
  · rw [LatencyBuffer.tryPush]
    split_ifs with hfull
    · exact (decide_eq_false (Nat.not_lt.mpr (h.full_iff.mp hfull))).symm
    · exact (decide_eq_true (Nat.lt_of_not_le (hfull ∘ h.full_iff.mpr))).symm

/-- A buffer of two samples, cleared and filled beyond its capacity. -/
theorem latencyBuffer_keeps_overfull : ∃ s : Pushed 2, s.samples = [30, 10, 20] ∧
    s.buf.data = [30, 10] ∧ s.buf.dropped.toNat = 1 := by
  obtain ⟨s, hs, hsamples⟩ := TransitionSystem.exists_reachable (M := latencyBuffer 2)
    (p := fun s => s.samples = [30, 10, 20])
    [.tryPush 5, .clear, .tryPush 30, .tryPush 10, .tryPush 20] (by decide)
  obtain ⟨hdata, -, hdropped, -⟩ := latencyBuffer_keeps hs
  rw [hsamples] at hdata hdropped
  exact ⟨s, hsamples, hdata, hdropped⟩

end SystemsStack.Telemetry
