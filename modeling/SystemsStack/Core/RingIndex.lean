import Mathlib.Data.Nat.ModEq
import Mathlib.Data.List.Basic

/-!
# Indices of a ring of slots

A ring of `N` slots is addressed by unbounded positions `0, 1, 2, …`, the position `i` standing
for the slot `i % N`. When `N` is a power of two, recognised by `N &&& (N - 1) = 0`, the remainder
is the bitwise conjunction with `N - 1`. A window of fewer than `N + 1` consecutive positions uses
every slot at most once, so a window is determined by the slots of its two ends as long as it is
shorter than `N`.

## Main definitions

* `Core.ringSlots`: the slots from one index up to another, in ring order.

## Main results

* `Core.and_pred_eq_mod`: the mask of a power of two.
* `Core.mod_inj_of_window`: a window uses every slot at most once.
* `Core.ringSlots_mod`, `Core.mem_ringSlots_mod`: the slots of a window, from its two ends.
* `Core.ringSlots_eq_cons`, `Core.ringSlots_eq_concat`: moving one of the ends.
-/

namespace Core

/-! ### The mask of a power of two -/

/-- The conjunction with the predecessor of a power of two is the remainder. -/
theorem and_pred_eq_mod {n : ℕ} (hn : n ≠ 0) (h : n &&& (n - 1) = 0) (i : ℕ) :
    i &&& (n - 1) = i % n := by
  obtain ⟨k, rfl⟩ := (Nat.and_sub_one_eq_zero_iff_isPowerOfTwo hn).mp h
  exact Nat.and_two_pow_sub_one_eq_mod i k

/-! ### Windows of positions -/

/-- Two positions of one window of `N` positions that use the same slot are equal. -/
theorem mod_inj_of_window {N a i j : ℕ} (hi : a ≤ i) (hi' : i < a + N) (hj : a ≤ j)
    (hj' : j < a + N) (h : i % N = j % N) : i = j := by
  wlog hij : i ≤ j generalizing i j
  · exact (this hj hj' hi hi' h.symm (Nat.le_of_not_le hij)).symm
  have hmod : (j - i) % N = 0 := Nat.sub_mod_eq_zero_of_mod_eq h.symm
  rw [Nat.mod_eq_of_lt (by omega)] at hmod
  omega

/-- The slots from the index `head` up to the index `tail`, in ring order. -/
def ringSlots (N head tail : ℕ) : List ℕ :=
  (List.range ((tail + N - head) % N)).map fun j => (head + j) % N

/-- The number of steps around the ring between the slots of the ends of a short window. -/
theorem ring_distance_mod {N a b : ℕ} (hab : a ≤ b) (hb : b < a + N) :
    (b % N + N - a % N) % N = b - a := by
  have ha : a % N < N := Nat.mod_lt a (by omega)
  have hmod : (b % N + N - a % N) + a ≡ (b - a) + a [MOD N] := by
    calc (b % N + N - a % N) + a
        ≡ (b % N + N - a % N) + a % N [MOD N] := (Nat.mod_modEq a N).symm.add_left _
      _ = b % N + N := by omega
      _ ≡ b [MOD N] := by
          rw [Nat.ModEq, Nat.add_mod_right, Nat.mod_mod]
      _ = (b - a) + a := by omega
  have hcancel := Nat.ModEq.add_right_cancel' a hmod
  rwa [Nat.ModEq, Nat.mod_eq_of_lt (show b - a < N by omega)] at hcancel

/-- The slots of a window shorter than the ring, from the slots of its two ends. -/
theorem ringSlots_mod {N a b : ℕ} (hab : a ≤ b) (hb : b < a + N) :
    ringSlots N (a % N) (b % N) = (List.range (b - a)).map fun j => (a + j) % N := by
  rw [ringSlots, ring_distance_mod hab hb]
  refine List.map_congr_left fun j _ => ?_
  rw [Nat.mod_add_mod]

theorem mem_ringSlots_mod {N a b s : ℕ} (hab : a ≤ b) (hb : b < a + N) :
    s ∈ ringSlots N (a % N) (b % N) ↔ ∃ i, a ≤ i ∧ i < b ∧ i % N = s := by
  rw [ringSlots_mod hab hb, List.mem_map]
  constructor
  · rintro ⟨j, hj, rfl⟩
    have := List.mem_range.mp hj
    exact ⟨a + j, by omega, by omega, rfl⟩
  · rintro ⟨i, hai, hib, rfl⟩
    refine ⟨i - a, List.mem_range.mpr (by omega), ?_⟩
    rw [Nat.add_sub_cancel' hai]

/-! ### Moving an end of the window -/

section Ends

variable {N head tail : ℕ} (hhead : head < N) (htail : tail < N)
include hhead htail

/-- Two slots are those of the ends of a window shorter than the ring. -/
theorem exists_window : ∃ a b, a ≤ b ∧ b < a + N ∧ a % N = head ∧ b % N = tail := by
  rcases Nat.le_total head tail with h | h
  · exact ⟨head, tail, h, by omega, Nat.mod_eq_of_lt hhead, Nat.mod_eq_of_lt htail⟩
  · rcases Nat.eq_or_lt_of_le h with rfl | hlt
    · exact ⟨tail, tail, le_rfl, by omega, Nat.mod_eq_of_lt hhead, Nat.mod_eq_of_lt htail⟩
    · refine ⟨head, tail + N, by omega, by omega, Nat.mod_eq_of_lt hhead, ?_⟩
      rw [Nat.add_mod_right, Nat.mod_eq_of_lt htail]

theorem ringSlots_eq_nil_iff : ringSlots N head tail = [] ↔ head = tail := by
  obtain ⟨a, b, hab, hb, rfl, rfl⟩ := exists_window hhead htail
  rw [ringSlots_mod hab hb, List.map_eq_nil_iff, List.range_eq_nil]
  constructor
  · intro h
    rw [show a = b by omega]
  · intro h
    rw [mod_inj_of_window le_rfl (by omega) hab hb h, Nat.sub_self]

/-- The index behind the window is not one of its slots. -/
theorem tail_notMem_ringSlots : tail ∉ ringSlots N head tail := by
  obtain ⟨a, b, hab, hb, rfl, rfl⟩ := exists_window hhead htail
  rw [mem_ringSlots_mod hab hb]
  rintro ⟨i, hai, hib, hi⟩
  exact hib.ne (mod_inj_of_window hai (by omega) hab hb hi)

/-- The first slot of a window, and the rest of it, of which it is none. -/
theorem ringSlots_eq_cons (hne : head ≠ tail) :
    ringSlots N head tail = head :: ringSlots N ((head + 1) % N) tail ∧
      head ∉ ringSlots N ((head + 1) % N) tail := by
  obtain ⟨a, b, hab, hb, rfl, rfl⟩ := exists_window hhead htail
  have hlt : a < b := Nat.lt_of_le_of_ne hab fun h => hne (h ▸ rfl)
  rw [Nat.mod_add_mod]
  constructor
  · rw [ringSlots_mod hab hb, ringSlots_mod hlt (by omega), ← Nat.succ_sub_succ b a,
      Nat.succ_sub hlt, List.range_succ_eq_map, List.map_cons, List.map_map]
    simp only [Nat.add_zero, List.cons.injEq, true_and]
    exact List.map_congr_left fun j _ => by simp [Nat.add_right_comm, Nat.add_assoc]
  · rw [mem_ringSlots_mod hlt (by omega)]
    rintro ⟨i, hai, hib, hi⟩
    exact Nat.ne_of_gt hai (mod_inj_of_window (Nat.le_of_lt hai) (by omega) le_rfl (by omega) hi)

/-- A window with room for one more slot. -/
theorem ringSlots_eq_concat (hne : (tail + 1) % N ≠ head) :
    ringSlots N head ((tail + 1) % N) = ringSlots N head tail ++ [tail] := by
  obtain ⟨a, b, hab, hb, rfl, rfl⟩ := exists_window hhead htail
  have hroom : b + 1 ≠ a + N := fun h => hne (by rw [Nat.mod_add_mod, h, Nat.add_mod_right])
  rw [Nat.mod_add_mod, ringSlots_mod (Nat.le_succ_of_le hab) (by omega), ringSlots_mod hab hb,
    Nat.succ_sub hab, List.range_succ, List.map_append, List.map_singleton,
    Nat.add_sub_cancel' hab]

end Ends
end Core
