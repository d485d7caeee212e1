import SystemsStack.Core.Alignment
import SystemsStack.Core.TransitionSystem
import Mathlib.Order.CompletePartialOrder
import Mathlib.Order.Interval.Set.Disjoint

/-!
# Bump allocation

A region of addresses is handed out from its start to its end. An allocation rounds the cursor up
to the alignment asked for, takes the bytes from there on if the region still has them, and moves
the cursor behind them; it may be given up without handing the bytes out. A reset takes everything
back.

The blocks handed out since the last reset are aligned, in the region, below the cursor, and apart
from each other (`Core.Bump.isInvariant_valid`).

## Main definitions

* `Core.Region`, `Core.Block`, `Core.Block.Apart`.
* `Core.Bump`, `Core.Bump.allocate`, `Core.bump`: the allocator as a transition system.
* `Core.Bump.Valid`.

## Main results

* `Core.Block.Apart.disjoint`: blocks that are apart have no address in common.
* `Core.Bump.isInvariant_valid`.
-/

namespace Core

/-- The addresses from `lo` on, below `hi`. -/
structure Region where
  lo : ℕ
  hi : ℕ
  lo_le_hi : lo ≤ hi

/-- A block of `size` addresses, asked for with the alignment `align`. -/
structure Block where
  start : ℕ
  size : ℕ
  align : ℕ
  deriving DecidableEq, Repr

namespace Block

/-- The first address behind the block. -/
def fin (b : Block) : ℕ := b.start + b.size

/-- The addresses of the block. -/
def addresses (b : Block) : Set ℕ := Set.Ico b.start b.fin

/-- One of the blocks ends before the other starts. -/
def Apart (b c : Block) : Prop := b.fin ≤ c.start ∨ c.fin ≤ b.start

theorem Apart.disjoint {b c : Block} (h : b.Apart c) : Disjoint b.addresses c.addresses := by
  rw [addresses, addresses, Set.Ico_disjoint_Ico]
  rcases h with h | h
  · exact (min_le_left _ _).trans (h.trans (le_max_right _ _))
  · exact (min_le_right _ _).trans (h.trans (le_max_left _ _))

end Block

/-- The cursor of the allocator, and the blocks handed out since the last reset. -/
structure Bump where
  cursor : ℕ
  blocks : List Block := []

namespace Bump

variable (R : Region)

/-- Where an allocation of `n` addresses with alignment `a` lies, if it fits. -/
def fit (s : Bump) (n a : ℕ) : Option ℕ :=
  if alignUp a s.cursor + n ≤ R.hi then some (alignUp a s.cursor) else none

/-- What is asked of the allocator. -/
inductive Action where
  /-- Allocate `n` addresses with alignment `a` and hand the block out. -/
  | allocate (n a : ℕ)
  /-- Allocate, but hand nothing out. -/
  | waste (n a : ℕ)
  | reset

/-- One step of the allocator; an allocation that does not fit changes nothing. -/
def step (s : Bump) : Action → Option Bump
  | .allocate n a =>
      if 0 < a then
        some <| match s.fit R n a with
        | some p => { cursor := p + n, blocks := s.blocks ++ [⟨p, n, a⟩] }
        | none => s
      else none
  | .waste n a =>
      if 0 < a then
        some <| match s.fit R n a with
        | some p => { s with cursor := p + n }
        | none => s
      else none
  | .reset => some { cursor := R.lo }

/-- The cursor is in the region, and the blocks are aligned, behind the start of the region, below
the cursor, and apart from each other. -/
structure Valid (s : Bump) : Prop where
  lo_le : R.lo ≤ s.cursor
  le_hi : s.cursor ≤ R.hi
  aligned : ∀ b ∈ s.blocks, b.align ∣ b.start
  lo_le_start : ∀ b ∈ s.blocks, R.lo ≤ b.start
  fin_le : ∀ b ∈ s.blocks, b.fin ≤ s.cursor
  apart : s.blocks.Pairwise Block.Apart

variable {R} {s : Bump} {n a p : ℕ}

theorem fit_eq_some_iff :
    s.fit R n a = some p ↔ p = alignUp a s.cursor ∧ p + n ≤ R.hi := by
  rw [fit]
  split_ifs with h
  · rw [Option.some.injEq]
    exact ⟨fun hp => ⟨hp.symm, hp ▸ h⟩, fun hp => hp.1.symm⟩
  · exact ⟨nofun, fun hp => absurd (hp.1 ▸ hp.2) h⟩

namespace Valid

/-- The cursor moves on. -/
theorem advance (h : s.Valid R) (hcursor : s.cursor ≤ p) (hp : p ≤ R.hi) :
    Bump.Valid R { s with cursor := p } where
  lo_le := h.lo_le.trans hcursor
  le_hi := hp
  aligned := h.aligned
  lo_le_start := h.lo_le_start
  fin_le b hb := (h.fin_le b hb).trans hcursor
  apart := h.apart

/-- A block from the cursor on is handed out. -/
theorem append (h : s.Valid R) (hcursor : s.cursor ≤ p) (hdvd : a ∣ p) (hp : p + n ≤ R.hi) :
    Bump.Valid R { cursor := p + n, blocks := s.blocks ++ [⟨p, n, a⟩] } where
  lo_le := h.lo_le.trans (hcursor.trans (Nat.le_add_right p n))
  le_hi := hp
  aligned b hb := by
    rcases List.mem_append.mp hb with hb | hb
    · exact h.aligned b hb
    · rwa [List.mem_singleton.mp hb]
  lo_le_start b hb := by
    rcases List.mem_append.mp hb with hb | hb
    · exact h.lo_le_start b hb
    · rw [List.mem_singleton.mp hb]
      exact h.lo_le.trans hcursor
  fin_le b hb := by
    rcases List.mem_append.mp hb with hb | hb
    · exact (h.fin_le b hb).trans (hcursor.trans (Nat.le_add_right p n))
    · rw [List.mem_singleton.mp hb]
      exact le_rfl
  apart := by
    refine List.pairwise_append.mpr ⟨h.apart, List.pairwise_singleton _ _, fun b hb c hc => ?_⟩
    rw [List.mem_singleton.mp hc]
    exact .inl ((h.fin_le b hb).trans hcursor)

end Valid

end Bump

/-- The allocator of a region, which is given out from its start on. -/
def bump (R : Region) : TransitionSystem Bump Bump.Action where
  init := { cursor := R.lo }
  step := Bump.step R

namespace Bump

variable {R : Region}

theorem valid_start (R : Region) : Bump.Valid R { cursor := R.lo } where
  lo_le := le_rfl
  le_hi := R.lo_le_hi
  aligned := by simp
  lo_le_start := by simp
  fin_le := by simp
  apart := List.Pairwise.nil

/-- **The blocks of a bump allocator.** In every run they are aligned, in the region, below the
cursor and apart from each other. -/
theorem isInvariant_valid : (bump R).IsInvariant (Bump.Valid R) where
  init := valid_start R
  step := by
    intro s act s' hs h
    cases act with
    | allocate n a =>
      simp only [bump, Bump.step, Option.ite_none_right_eq_some, Option.some.injEq] at h
      obtain ⟨ha, rfl⟩ := h
      cases hfit : s.fit R n a with
      | none => exact hs
      | some p =>
        obtain ⟨rfl, hp⟩ := fit_eq_some_iff.mp hfit
        exact hs.append (le_alignUp ha) (dvd_alignUp a _) hp
    | waste n a =>
      simp only [bump, Bump.step, Option.ite_none_right_eq_some, Option.some.injEq] at h
      obtain ⟨ha, rfl⟩ := h
      cases hfit : s.fit R n a with
      | none => exact hs
      | some p =>
        obtain ⟨rfl, hp⟩ := fit_eq_some_iff.mp hfit
        exact hs.advance ((le_alignUp ha).trans (Nat.le_add_right _ n)) hp
    | reset =>
      simp only [bump, Bump.step, Option.some.injEq] at h
      exact h ▸ valid_start R

end Bump

end Core
