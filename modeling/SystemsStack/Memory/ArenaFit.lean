import SystemsStack.Memory.ArenaLayout
import Mathlib.Order.Bounds.Defs

/-!
# Which requests an arena grants

A request fits when some aligned address at or behind the cursor leaves room for its bytes. The
padding never leaves the words, so the one sum of `allocate` that can wrap around is the last, with
the size of the request. A sum that wraps around to an offset in the storage passes the test: the
request is granted although nothing fits, and the cursor moves backwards. This is the only way in
which `allocate` fails to grant exactly the requests that fit
(`SystemsStack.Memory.Arena.grantsExactly_iff`), in every reachable state of the arena.

## Main definitions

* `SystemsStack.Memory.Arena.fitting`: the addresses at which a request fits.
* `SystemsStack.Memory.Arena.GrantsExactly`.

## Main results

* `SystemsStack.Memory.Arena.offset_isInvariant`: the offset stays in the storage.
* `SystemsStack.Memory.Arena.isLeast_fitting`: the cursor rounded up is the least such address.
* `SystemsStack.Memory.Arena.grantsExactly_iff`.

## References

* `include/ll/arena.hpp`, lines 26–50.
-/

namespace SystemsStack.Memory

open Core

namespace Arena

variable {storage : Storage} {a : Arena storage} {n align : UInt64}

/-! ### Requests that fit -/

/-- The addresses, multiples of `align` and not below the cursor, at which `n` bytes end in the
storage. -/
def fitting (a : Arena storage) (n align : UInt64) : Set ℕ :=
  {p | align.toNat ∣ p ∧ a.cursor ≤ p ∧ p + n.toNat ≤ storage.region.hi}

theorem alignUp_mem_lowerBounds_fitting (halign : 0 < align.toNat) :
    alignUp align.toNat a.cursor ∈ lowerBounds (a.fitting n align) := by
  rintro p ⟨⟨c, rfl⟩, hcursor, -⟩
  exact Nat.mul_le_mul_left _ ((ceilDiv_le_iff_le_mul halign).mpr hcursor)

/-- A request fits somewhere exactly when it fits at the cursor rounded up. -/
theorem nonempty_fitting_iff (halign : 0 < align.toNat) :
    (a.fitting n align).Nonempty ↔ alignUp align.toNat a.cursor + n.toNat ≤ storage.region.hi := by
  constructor
  · rintro ⟨p, hp⟩
    exact Nat.le_trans (Nat.add_le_add_right (alignUp_mem_lowerBounds_fitting halign hp) _) hp.2.2
  · exact fun h => ⟨_, dvd_alignUp _ _, le_alignUp halign, h⟩

theorem isLeast_fitting (halign : 0 < align.toNat)
    (h : alignUp align.toNat a.cursor + n.toNat ≤ storage.region.hi) :
    IsLeast (a.fitting n align) (alignUp align.toNat a.cursor) :=
  ⟨⟨dvd_alignUp _ _, le_alignUp halign, h⟩, alignUp_mem_lowerBounds_fitting halign⟩

/-- Exactly the requests that fit are granted: at the least address at which they fit, up to which
the cursor moves, and never backwards; every other request throws `std::bad_alloc` and changes
nothing. -/
def GrantsExactly (a : Arena storage) (n align : UInt64) : Prop :=
  ((∃ p, (a.allocate n align).1 = .ok p) ↔ (a.fitting n align).Nonempty) ∧
  (∀ p, (a.allocate n align).1 = .ok p → IsLeast (a.fitting n align) p.toNat ∧
    storage.data.toNat + (a.allocate n align).2.used.toNat = p.toNat + n.toNat ∧
    a.used ≤ (a.allocate n align).2.used) ∧
  (¬(a.fitting n align).Nonempty → a.allocate n align = (.error .badAlloc, a))

/-- A request that fits nowhere and is refused. -/
theorem grantsExactly_of_throws (hnone : ¬(a.fitting n align).Nonempty)
    (halloc : a.allocate n align = (.error .badAlloc, a)) : a.GrantsExactly n align := by
  refine ⟨iff_of_false ?_ hnone, fun p hp => ?_, fun _ => halloc⟩
  · rw [halloc]
    exact fun ⟨p, hp⟩ => nomatch hp
  · rw [halloc] at hp
    exact nomatch hp

/-! ### Reachable states -/

/-- A granted request leaves the offset in the storage, whatever the size and the alignment. -/
theorem offset_allocate_le (ha : a.offset ≤ storage.size) :
    (a.allocate n align).2.offset ≤ storage.size := by
  rw [allocate]
  split_ifs with htest
  · exact ha
  · change a.offset + (a.delta align + n) ≤ storage.size
    rw [← UInt64.add_assoc]
    exact UInt64.not_lt.mp htest

theorem offset_create_le (ha : a.offset ≤ storage.size) (T : TypeLayout) (throws : Bool) :
    (a.create T throws).2.offset ≤ storage.size := by
  have halloc : (a.allocate T.size T.align).2.offset ≤ storage.size := offset_allocate_le ha
  have hcreate : (a.create T throws).2 = (a.allocate T.size T.align).2 := by
    rw [create]
    rcases a.allocate T.size T.align with ⟨_ | _, a'⟩ <;> rfl
  rw [hcreate]
  exact halloc

theorem State.arena_give (s : State storage) (result : Except Exception UInt64 × Arena storage) :
    (s.give n align result).arena = result.2 := by
  rcases result with ⟨_ | _, a'⟩ <;> rfl

/-- The offset stays in the storage in every run, also after sums that have wrapped around. -/
theorem offset_isInvariant :
    (arena storage).IsInvariant fun s => s.arena.offset ≤ storage.size where
  init := UInt64.zero_le
  step {s act s'} hs h := by
    obtain rfl := Option.some.inj h
    cases act with
    | allocate n align =>
      rw [step, State.arena_give]
      exact offset_allocate_le hs
    | create T throws =>
      rw [step, State.arena_give]
      exact offset_create_le hs T throws
    | reset => exact UInt64.zero_le

/-! ### The sum that can wrap around -/

section Wrap

variable (ha : a.offset.toNat ≤ storage.size.toNat) (hpow : align.toNat.isPowerOfTwo)
include ha hpow

/-- The distance from the start of the storage to the cursor rounded up, as a word. -/
theorem toNat_padded_eq : (a.offset + a.delta align).toNat =
    alignUp align.toNat a.cursor - storage.data.toNat := by
  have := toNat_padded ha hpow
  omega

/-- A request whose sum does not wrap around is granted exactly when it fits. -/
theorem grantsExactly_of_lt
    (h : alignUp align.toNat a.cursor - storage.data.toNat + n.toNat < 2 ^ 64) :
    a.GrantsExactly n align := by
  have hpos := Nat.pos_of_isPowerOfTwo hpow
  have hpadded := toNat_padded ha hpow
  have hsum : (a.offset + a.delta align + n).toNat =
      alignUp align.toNat a.cursor - storage.data.toNat + n.toNat := by
    rw [UInt64.toNat_add, toNat_padded_eq ha hpow, Nat.mod_eq_of_lt h]
  by_cases hfit : alignUp align.toNat a.cursor + n.toNat ≤ storage.region.hi
  · have htest : ¬a.offset + a.delta align + n > storage.size := by
      rw [gt_iff_lt, UInt64.lt_iff_toNat_lt, hsum]
      simp only [Storage.region] at hfit
      omega
    have halloc : a.allocate n align =
        (.ok (a.aligned align), { offset := a.offset + (a.delta align + n) }) := if_neg htest
    have hused : ({ offset := a.offset + (a.delta align + n) } : Arena storage).used.toNat =
        alignUp align.toNat a.cursor - storage.data.toNat + n.toNat := by
      rw [used, ← UInt64.add_assoc, hsum]
    refine ⟨iff_of_true ⟨_, by rw [halloc]⟩ ((nonempty_fitting_iff hpos).mpr hfit),
      fun p hp => ?_, fun hne => absurd ((nonempty_fitting_iff hpos).mpr hfit) hne⟩
    rw [halloc] at hp ⊢
    obtain rfl := Except.ok.inj hp
    rw [toNat_aligned ha hpow, UInt64.le_iff_toNat_le, hused]
    have hcursor : a.cursor = storage.data.toNat + a.used.toNat := rfl
    have hup : a.cursor ≤ alignUp align.toNat a.cursor := le_alignUp hpos
    exact ⟨isLeast_fitting hpos hfit, by omega, by omega⟩
  · have hnone := mt (nonempty_fitting_iff hpos).mp hfit
    have htest : a.offset + a.delta align + n > storage.size := by
      rw [gt_iff_lt, UInt64.lt_iff_toNat_lt, hsum]
      simp only [Storage.region] at hfit
      omega
    exact grantsExactly_of_throws hnone (if_pos htest)

/-- Where the sum wraps around, nothing fits, and the request is granted all the same if the
wrapped sum is an offset of the storage. -/
theorem grantsExactly_iff_of_le
    (h : 2 ^ 64 ≤ alignUp align.toNat a.cursor - storage.data.toNat + n.toNat) :
    a.GrantsExactly n align ↔
      2 ^ 64 + storage.size.toNat <
        alignUp align.toNat a.cursor - storage.data.toNat + n.toNat := by
  have hpos := Nat.pos_of_isPowerOfTwo hpow
  have hpadded := toNat_padded ha hpow
  have hsize := storage.size_lt
  have hlt := n.toNat_lt
  have hwords := (a.offset + a.delta align).toNat_lt
  have hsum : (a.offset + a.delta align + n).toNat =
      alignUp align.toNat a.cursor - storage.data.toNat + n.toNat - 2 ^ 64 := by
    rw [UInt64.toNat_add, toNat_padded_eq ha hpow]
    rw [toNat_padded_eq ha hpow] at hwords
    omega
  have hnone : ¬(a.fitting n align).Nonempty := by
    rw [nonempty_fitting_iff hpos, Storage.region]
    dsimp only
    omega
  have htest : a.offset + a.delta align + n > storage.size ↔
      2 ^ 64 + storage.size.toNat <
        alignUp align.toNat a.cursor - storage.data.toNat + n.toNat := by
    rw [gt_iff_lt, UInt64.lt_iff_toNat_lt, hsum]
    omega
  rw [← htest]
  constructor
  · rintro ⟨-, -, hthrows⟩
    by_contra hpass
    have halloc := hthrows hnone
    rw [allocate, if_neg hpass] at halloc
    cases (Prod.mk.inj halloc).1
  · exact fun hover => grantsExactly_of_throws hnone (if_pos hover)

end Wrap

variable {s : State storage}

/-- **When exactly the requests that fit are granted.** In every reachable state, with `g` the
distance from the start of the storage to the cursor rounded up, a request of `n` bytes is granted
exactly when it fits, unless `g + n` wraps around to an offset in the storage. -/
theorem grantsExactly_iff (hs : (arena storage).Reachable s) (hpow : align.toNat.isPowerOfTwo) :
    s.arena.GrantsExactly n align ↔
      alignUp align.toNat s.arena.cursor - storage.data.toNat + n.toNat < 2 ^ 64 ∨
      2 ^ 64 + storage.size.toNat <
        alignUp align.toNat s.arena.cursor - storage.data.toNat + n.toNat := by
  have ha : s.arena.offset.toNat ≤ storage.size.toNat :=
    UInt64.le_iff_toNat_le.mp (offset_isInvariant.of_reachable hs)
  rcases Nat.lt_or_ge (alignUp align.toNat s.arena.cursor - storage.data.toNat + n.toNat)
    (2 ^ 64) with hlt | hge
  · exact iff_of_true (grantsExactly_of_lt ha hpow hlt) (.inl hlt)
  · rw [grantsExactly_iff_of_le ha hpow hge]
    exact ⟨.inr, fun h => h.resolve_left (Nat.not_lt.mpr hge)⟩

/-- After eight bytes of a storage of sixty-four, `2 ^ 64 - 8` bytes are granted. -/
theorem not_grantsExactly_smallStorage : ¬ ∀ (storage : Storage) (s : State storage)
    (n align : UInt64), (arena storage).Reachable s → align.toNat.isPowerOfTwo →
      s.arena.GrantsExactly n align := by
  intro h
  obtain ⟨s, hs, hcursor, hgranted⟩ := TransitionSystem.exists_reachable
    (M := arena smallStorage)
    (p := fun s => s.arena.cursor = 1009 ∧ (s.arena.allocate 18446744073709551608 1).1 = .ok 1009)
    [.allocate 8 1] (by decide)
  obtain ⟨p, -, hle, hfin⟩ := (h smallStorage s 18446744073709551608 1 hs ⟨0, rfl⟩).1.mp
    ⟨_, hgranted⟩
  have hfin : p + 18446744073709551608 ≤ 1065 := hfin
  omega

/-- A request of forty-nine bytes at a multiple of eight fits behind the first eight. -/
theorem grantsExactly_smallStorage : ∃ s : State smallStorage,
    s.arena.cursor = 1009 ∧ s.arena.GrantsExactly 49 8 := by
  obtain ⟨s, hs, hcursor⟩ := TransitionSystem.exists_reachable (M := arena smallStorage)
    (p := fun s => s.arena.cursor = 1009) [.allocate 8 1] (by decide)
  refine ⟨s, hcursor, (grantsExactly_iff hs (by decide)).mpr (.inl ?_)⟩
  rw [hcursor]
  decide

end Arena

end SystemsStack.Memory
