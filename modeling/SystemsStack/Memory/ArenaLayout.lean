import SystemsStack.Memory.Arena

/-!
# The layout of the blocks of an arena

The masked address that `allocate` computes is the cursor rounded up. For an admissible request no
sum wraps around, and the test of the offset is the test that the block ends in the storage. The
arena is then the bump allocator of the addresses of its storage, and inherits the layout of its
blocks.

## Main definitions

* `SystemsStack.Memory.Storage.region`, `SystemsStack.Memory.Arena.State.toBump`.

## Main results

* `SystemsStack.Memory.Arena.allocate_of_fit`, `SystemsStack.Memory.Arena.allocate_of_not_fit`.
* `SystemsStack.Memory.Arena.refines_bump`: every admissible call is a step of the bump allocator.
* `SystemsStack.Memory.Arena.memoryLayout`.

## References

* `include/ll/arena.hpp`, lines 26–50; `tests/test_ll_modules.cpp`, lines 58–69.
-/

namespace SystemsStack.Memory

open Core

/-- The addresses of the storage. -/
def Storage.region (storage : Storage) : Region where
  lo := storage.data.toNat
  hi := storage.data.toNat + storage.size.toNat
  lo_le_hi := Nat.le_add_right _ _

namespace Arena

variable {storage : Storage} {a : Arena storage} {n align : UInt64}

/-- The address of the cursor. -/
def cursor (a : Arena storage) : ℕ := storage.data.toNat + a.offset.toNat

/-- The arena as a bump allocator of the addresses of its storage. -/
def State.toBump (s : State storage) : Bump where
  cursor := s.arena.cursor
  blocks := s.blocks

/-! ### The words of a request -/

section Words

theorem align_le (hpow : align.toNat.isPowerOfTwo) : align.toNat ≤ 2 ^ 63 := by
  have hlt := align.toNat_lt
  obtain ⟨k, hk⟩ := hpow
  rw [hk] at hlt ⊢
  exact Nat.pow_le_pow_right Nat.two_pos
    (Nat.le_of_lt_succ ((Nat.pow_lt_pow_iff_right Nat.one_lt_two).mp hlt))

variable (ha : a.offset.toNat ≤ storage.size.toNat) (hpow : align.toNat.isPowerOfTwo)
  (hle : n.toNat + align.toNat ≤ 2 ^ 63)
include ha

theorem toNat_base : a.base.toNat = a.cursor := by
  have := storage.data_add_size_le
  rw [base, UInt64.toNat_add, Nat.mod_eq_of_lt (by omega), cursor]

theorem cursor_le : a.cursor ≤ 2 ^ 63 := by
  have := storage.data_add_size_le
  rw [cursor]
  omega

include hpow

theorem toNat_aligned : (a.aligned align).toNat = alignUp align.toNat a.cursor := by
  have := cursor_le ha
  have := align_le hpow
  rw [aligned, toNat_mask_eq_alignUp hpow (by rw [toNat_base ha]; omega), toNat_base ha]

theorem toNat_delta : (a.delta align).toNat = alignUp align.toNat a.cursor - a.cursor := by
  have hcursor : a.base ≤ a.aligned align := by
    rw [UInt64.le_iff_toNat_le, toNat_base ha, toNat_aligned ha hpow]
    exact le_alignUp (Nat.pos_of_isPowerOfTwo hpow)
  rw [delta, UInt64.toNat_sub_of_le _ _ hcursor, toNat_aligned ha hpow, toNat_base ha]

/-- The padding does not leave the words. -/
theorem toNat_padded : storage.data.toNat + (a.offset + a.delta align).toNat =
    alignUp align.toNat a.cursor := by
  have hpos := Nat.pos_of_isPowerOfTwo hpow
  have hup : a.cursor ≤ alignUp align.toNat a.cursor := le_alignUp hpos
  have hlt : alignUp align.toNat a.cursor < a.cursor + align.toNat := alignUp_lt hpos
  have halign := align_le hpow
  have hle := cursor_le ha
  have hcursor : a.cursor = storage.data.toNat + a.offset.toNat := rfl
  rw [UInt64.toNat_add, toNat_delta ha hpow, Nat.mod_eq_of_lt (by omega)]
  omega

include hle

/-- The sums of an admissible request do not wrap around. -/
theorem toNat_sums :
    storage.data.toNat + (a.offset + a.delta align + n).toNat =
        alignUp align.toNat a.cursor + n.toNat ∧
      a.offset + (a.delta align + n) = a.offset + a.delta align + n := by
  have hlt : alignUp align.toNat a.cursor < a.cursor + align.toNat :=
    alignUp_lt (Nat.pos_of_isPowerOfTwo hpow)
  have hsize := storage.size_lt
  have hpadded := toNat_padded ha hpow
  have hcursor : a.cursor = storage.data.toNat + a.offset.toNat := rfl
  refine ⟨?_, (UInt64.add_assoc _ _ _).symm⟩
  rw [UInt64.toNat_add, Nat.mod_eq_of_lt (by omega)]
  omega

/-- A request that fits is given the cursor rounded up, and the cursor moves behind it. -/
theorem allocate_of_fit
    (hfit : alignUp align.toNat a.cursor + n.toNat ≤ storage.region.hi) :
    ∃ p a', a.allocate n align = (.ok p, a') ∧ p.toNat = alignUp align.toNat a.cursor ∧
      a'.cursor = alignUp align.toNat a.cursor + n.toNat := by
  obtain ⟨hsum, hassoc⟩ := toNat_sums ha hpow hle
  have htest : ¬a.offset + a.delta align + n > storage.size := by
    rw [gt_iff_lt, UInt64.lt_iff_toNat_lt]
    simp only [Storage.region] at hfit
    omega
  exact ⟨_, _, if_neg htest, toNat_aligned ha hpow, by rw [cursor, hassoc, hsum]⟩

/-- A request that does not fit is refused. -/
theorem allocate_of_not_fit
    (hfit : ¬alignUp align.toNat a.cursor + n.toNat ≤ storage.region.hi) :
    a.allocate n align = (.error .badAlloc, a) := by
  obtain ⟨hsum, -⟩ := toNat_sums ha hpow hle
  refine if_pos ?_
  rw [gt_iff_lt, UInt64.lt_iff_toNat_lt]
  simp only [Storage.region] at hfit
  omega

end Words

/-! ### The arena refines the bump allocator -/

variable {s : State storage}

theorem offset_le (hs : s.toBump.Valid storage.region) :
    s.arena.offset.toNat ≤ storage.size.toNat :=
  Nat.le_of_add_le_add_left hs.le_hi

/-- An admissible allocation is one of the bump allocator, whether it succeeds or throws. -/
theorem give_allocate (hs : s.toBump.Valid storage.region) (hpow : align.toNat.isPowerOfTwo)
    (hle : n.toNat + align.toNat ≤ 2 ^ 63) :
    (bump storage.region).step s.toBump (.allocate n.toNat align.toNat) =
      some (s.give n align (s.arena.allocate n align)).toBump := by
  have ha := offset_le hs
  have hpos := Nat.pos_of_isPowerOfTwo hpow
  by_cases hfit : alignUp align.toNat s.arena.cursor + n.toNat ≤ storage.region.hi
  · obtain ⟨p, a', halloc, hp, hcursor⟩ := allocate_of_fit ha hpow hle hfit
    simp [bump, Bump.step, Bump.fit, State.toBump, State.give, halloc, hfit, hpos, hp, hcursor]
  · rw [allocate_of_not_fit ha hpow hle hfit]
    simp [bump, Bump.step, Bump.fit, State.toBump, State.give, hfit, hpos]

/-- An object whose constructor throws takes its bytes from the bump allocator and gives them to
nobody. -/
theorem give_create_throws (hs : s.toBump.Valid storage.region) (T : TypeLayout) :
    (bump storage.region).step s.toBump (.waste T.size.toNat T.align.toNat) =
      some (s.give T.size T.align (s.arena.create T true)).toBump := by
  have ha := offset_le hs
  have hpos := Nat.pos_of_isPowerOfTwo T.align_pow
  by_cases hfit : alignUp T.align.toNat s.arena.cursor + T.size.toNat ≤ storage.region.hi
  · obtain ⟨p, a', halloc, -, hcursor⟩ :=
      allocate_of_fit ha T.align_pow T.size_add_align_le hfit
    simp [bump, Bump.step, Bump.fit, State.toBump, State.give, create, halloc, hfit, hpos, hcursor]
  · rw [create, allocate_of_not_fit ha T.align_pow T.size_add_align_le hfit]
    simp [bump, Bump.step, Bump.fit, State.toBump, State.give, hfit, hpos]

/-- An object whose constructor returns is an allocation of its size and alignment. -/
theorem create_returns (a : Arena storage) (T : TypeLayout) :
    a.create T false = a.allocate T.size T.align := by
  rw [create]
  rcases a.allocate T.size T.align with ⟨_ | _, a'⟩ <;> rfl

/-- **The arena refines the bump allocator.** Every admissible call is one of its steps. -/
theorem refines_bump (hs : s.toBump.Valid storage.region) {act : Action}
    (hact : Admissible s act) :
    ∃ b, (bump storage.region).step s.toBump b = some (step s act).toBump := by
  cases act with
  | allocate n align => exact ⟨_, give_allocate hs hact.1 hact.2⟩
  | create T throws =>
    cases throws with
    | false =>
      rw [step, create_returns]
      exact ⟨_, give_allocate hs T.align_pow T.size_add_align_le⟩
    | true => exact ⟨_, give_create_throws hs T⟩
  | reset => exact ⟨.reset, rfl⟩

theorem isInvariant_valid :
    ((arena storage).restrict Admissible).IsInvariant
      fun s => s.toBump.Valid storage.region := by
  refine Bump.isInvariant_valid.of_refinement rfl fun hs h => ?_
  obtain ⟨hact, hstep⟩ := (TransitionSystem.restrict_step_iff _).mp h
  obtain rfl := Option.some.inj hstep
  exact refines_bump hs hact

/-! ### The layout of the blocks -/

/-- The bytes behind the cursor, as a block. -/
def remainingBlock (a : Arena storage) : Block where
  start := a.remaining.1.toNat
  size := a.remaining.2.toNat
  align := 1

theorem remainingBlock_eq (ha : a.offset.toNat ≤ storage.size.toNat) :
    a.remainingBlock = ⟨a.cursor, storage.size.toNat - a.offset.toNat, 1⟩ := by
  have hstart : a.remaining.1.toNat = a.cursor := toNat_base ha
  have hsize : a.remaining.2.toNat = storage.size.toNat - a.offset.toNat :=
    UInt64.toNat_sub_of_le _ _ (UInt64.le_iff_toNat_le.mpr ha)
  rw [remainingBlock, hstart, hsize]

/-- An `allocate` that throws changes nothing. -/
theorem allocate_of_throws (h : (a.allocate n align).1 = .error .badAlloc) :
    a.allocate n align = (.error .badAlloc, a) := by
  rw [allocate] at h ⊢
  split_ifs at h ⊢ with htest
  rfl

/-- **The memory layout of an arena.** In every state that admissible calls reach, each block
given out since the last reset starts at a multiple of its alignment, lies in the storage, and
has no byte in common with another one or with what remains; the bytes used and the bytes that
remain are the capacity. An `allocate` that throws changes nothing, and the calls after it do
what they would have done. -/
theorem memoryLayout (hs : ((arena storage).restrict Admissible).Reachable s) :
    (∀ b ∈ s.blocks, b.align ∣ b.start ∧ storage.data.toNat ≤ b.start ∧
      b.fin ≤ storage.data.toNat + storage.size.toNat ∧
      Disjoint b.addresses s.arena.remainingBlock.addresses) ∧
    s.blocks.Pairwise (fun b c => Disjoint b.addresses c.addresses) ∧
    s.arena.used ≤ s.arena.capacity ∧
    s.arena.used.toNat + s.arena.remaining.2.toNat = s.arena.capacity.toNat ∧
    ∀ n align, (s.arena.allocate n align).1 = .error .badAlloc →
      (s.arena.allocate n align).2.used = s.arena.used ∧
      ∀ acts, (arena storage).run s (.allocate n align :: acts) = (arena storage).run s acts := by
  have hv := isInvariant_valid.of_reachable hs
  have ha := offset_le hv
  have hrem := remainingBlock_eq ha
  refine ⟨fun b hb => ⟨hv.aligned b hb, hv.lo_le_start b hb, ?_, ?_⟩, ?_, ?_, ?_,
    fun n align hthrows => ⟨?_, fun acts => ?_⟩⟩
  · exact Nat.le_trans (hv.fin_le b hb) hv.le_hi
  · rw [hrem]
    exact Block.Apart.disjoint (.inl (hv.fin_le b hb))
  · exact hv.apart.imp Block.Apart.disjoint
  · exact UInt64.le_iff_toNat_le.mpr ha
  · have hsize := congrArg Block.size hrem
    change s.arena.offset.toNat + s.arena.remainingBlock.size = storage.size.toNat
    rw [hsize]
    exact Nat.add_sub_cancel' ha
  · rw [allocate_of_throws hthrows]
  · have hstep : step s (.allocate n align) = s := by
      rw [step, allocate_of_throws hthrows]
      rfl
    change (arena storage).run (step s (.allocate n align)) acts = _
    rw [hstep]

/-- Sixty-four bytes from the address `1001` on. -/
def smallStorage : Storage where
  data := 1001
  size := 64
  data_add_size_le := by decide
  size_lt := by decide

/-- The layout of a `double`. -/
def doubleLayout : TypeLayout where
  size := 8
  align := 8
  align_pow := by decide
  align_dvd_size := by decide
  size_pos := by decide
  size_lt := by decide

/-- Three bytes, and behind them a `double` at the next multiple of eight. -/
theorem memoryLayout_smallStorage : ∃ s : State smallStorage,
    s.blocks = [⟨1001, 3, 1⟩, ⟨1008, 8, 8⟩] ∧
      s.blocks.Pairwise (fun b c => Disjoint b.addresses c.addresses) ∧
      s.arena.used.toNat + s.arena.remaining.2.toNat = 64 := by
  obtain ⟨s, hs, hblocks⟩ := TransitionSystem.exists_reachable
    (M := (arena smallStorage).restrict Admissible)
    (p := fun s => s.blocks = [⟨1001, 3, 1⟩, ⟨1008, 8, 8⟩])
    [.allocate 5 2, .reset, .allocate 3 1, .allocate 100 1, .create doubleLayout false]
    (by decide)
  exact ⟨s, hblocks, (memoryLayout hs).2.1, (memoryLayout hs).2.2.2.1⟩

end Arena

end SystemsStack.Memory
