import SystemsStack.Memory.ObjectPool
import Mathlib.Data.Set.List

/-!
# Redundant releases

A release is redundant when it gives back null, or an object of the pool that is not held. The
guards of `release` stop null, and whatever is given back while all objects are free. Any other
redundant release puts a pointer on the stack that is already there, and acquiring then hands out
an object that is held (`SystemsStack.Memory.ObjectPool.redundant_release`).

## Main definitions

* `SystemsStack.Memory.ObjectPool.OfPool`, `SystemsStack.Memory.ObjectPool.Redundant`.
* `SystemsStack.Memory.ObjectPool.Tolerant`, `SystemsStack.Memory.ObjectPool.Harmless`.

## Main results

* `SystemsStack.Memory.ObjectPool.balanced_isInvariant`.
* `SystemsStack.Memory.ObjectPool.redundant_release`.

## References

* `include/ll/arena.hpp`, lines 68–82.
-/

namespace SystemsStack.Memory.ObjectPool

open Core

variable {N : ℕ} {s t : State N} {p : ℕ}

/-- A call that gives back null or an object of the pool, held or not. -/
def OfPool (_ : State N) : Action → Prop
  | .acquire => True
  | .release p => ∀ i ∈ p, i < N

instance (s : State N) : DecidablePred (OfPool s)
  | .acquire => inferInstanceAs (Decidable True)
  | .release p => inferInstanceAs (Decidable (∀ i ∈ p, i < N))

/-- The pointer is null, or points to an object of the pool that is not held. -/
def Redundant (s : State N) (p : Option ℕ) : Prop := ∀ i ∈ p, i < N ∧ i ∉ s.held

/-- Redundant releases leave the pool as it is, and no object that is held is handed out. -/
def Tolerant (s : State N) : Prop :=
  (∀ p, Redundant s p → s.pool.release p = s.pool) ∧
  ∀ p, s.pool.acquire.1 = some p → p ∉ s.held

/-- A call in which no object that is free is given back, unless all of them are. -/
def Harmless (s : State N) : Action → Prop
  | .acquire => True
  | .release p => ∀ i ∈ p, i ∈ s.held ∨ i < N ∧ N ≤ s.pool.top

instance (s : State N) : DecidablePred (Harmless s)
  | .acquire => inferInstanceAs (Decidable True)
  | .release p => inferInstanceAs (Decidable (∀ i ∈ p, i ∈ s.held ∨ i < N ∧ N ≤ s.pool.top))

/-- Every object is free or held, and only one of the two. -/
def Balanced (s : State N) : Prop := (s.pool.ledger s.held).Perm ((List.range N).map some)

theorem release_none (pool : ObjectPool N) : pool.release none = pool := dif_pos (.inl rfl)

theorem release_of_le {pool : ObjectPool N} (h : N ≤ pool.top) (p : Option ℕ) :
    pool.release p = pool :=
  dif_pos (.inr h)

namespace Balanced

theorem notMem_freeStack (hs : Balanced s) : none ∉ s.pool.freeStack := fun hnone => by
  have := hs.subset (List.mem_append_left _ hnone)
  simp at this

theorem length_ledger (hs : Balanced s) : (s.pool.ledger s.held).length = N := by
  rw [hs.length_eq, List.length_map, List.length_range]

theorem nodup_ledger (hs : Balanced s) : (s.pool.ledger s.held).Nodup :=
  hs.nodup_iff.mpr (List.nodup_range.map (Option.some_injective ℕ))

/-- A free object is not held. -/
theorem notMem_held (hs : Balanced s) (hp : some p ∈ s.pool.freeStack) : p ∉ s.held := fun hheld =>
  (List.nodup_append.mp hs.nodup_ledger).2.2 _ hp _ (List.mem_map_of_mem hheld) rfl

/-- An object of the pool that is not held is free. -/
theorem mem_freeStack (hs : Balanced s) (hlt : p < N) (hp : p ∉ s.held) :
    some p ∈ s.pool.freeStack := by
  have hmem : some p ∈ s.pool.ledger s.held :=
    hs.symm.subset (List.mem_map_of_mem (List.mem_range.mpr hlt))
  rcases List.mem_append.mp hmem with hfree | hheld
  · exact hfree
  · obtain ⟨q, hq, heq⟩ := List.mem_map.mp hheld
    exact absurd (Option.some.inj heq ▸ hq) hp

theorem step (hs : Balanced s) {a : Action} (ha : Harmless s a) : Balanced (step s a) := by
  cases a with
  | acquire =>
    rcases hacquire : s.pool.acquire with ⟨_ | p, pool'⟩
    · obtain rfl := eq_of_acquire_none hs.notMem_freeStack hacquire
      rw [ObjectPool.step, hacquire]
      exact hs
    · rw [ObjectPool.step, hacquire]
      exact (ledger_acquire hacquire).trans hs
  | release p =>
    cases p with
    | none =>
      rw [ObjectPool.step, release_none]
      exact hs
    | some p =>
      rw [ObjectPool.step, Balanced]
      dsimp only
      by_cases hheld : p ∈ s.held
      · exact (ledger_release hheld (top_lt_of_held hs.length_ledger.le hheld)).trans hs
      · obtain ⟨-, htop⟩ := (ha p rfl).resolve_left hheld
        rw [release_of_le htop, List.erase_of_not_mem hheld]
        exact hs

end Balanced

theorem balanced_isInvariant : ((objectPool N).restrict Harmless).IsInvariant Balanced where
  init := by
    change List.Perm (ledger (create N) []) _
    rw [ledger, freeStack_create, List.map_nil, List.append_nil]
  step hs h := by
    obtain ⟨ha, hstep⟩ := (TransitionSystem.restrict_step_iff _).mp h
    exact Option.some.inj hstep ▸ hs.step ha

/-- A redundant release leaves the pool as it is exactly when one of the guards stops it. -/
theorem release_eq_iff (pool : ObjectPool N) (q : Option ℕ) :
    pool.release q = pool ↔ q = none ∨ N ≤ pool.top := by
  refine ⟨fun h => ?_, fun h => dif_pos h⟩
  by_contra hguard
  rw [not_or, Nat.not_le] at hguard
  obtain ⟨p, rfl⟩ := Option.ne_none_iff_exists'.mp hguard.1
  have hlen := congrArg List.length (freeStack_release (p := p) hguard.2)
  rw [h, List.length_append, List.length_singleton] at hlen
  omega

/-- An object that is both free and held is handed out as soon as those above it are acquired. -/
theorem exists_run_acquire (l : List ℕ) {rest : List (Option ℕ)}
    (hfree : s.pool.freeStack = rest ++ some p :: l.map some) (hp : p ∈ s.held) :
    ∃ n t, (objectPool N).run s (List.replicate n .acquire) = some t ∧
      t.pool.acquire.1 = some p ∧ p ∈ t.held := by
  induction l using List.reverseRecOn generalizing s with
  | nil => exact ⟨0, s, rfl, (acquire_of_freeStack hfree).1, hp⟩
  | append_singleton l q ih =>
    have hlast : s.pool.freeStack = (rest ++ some p :: l.map some) ++ [some q] := by
      rw [hfree, List.map_append, List.append_assoc]
      rfl
    obtain ⟨hrest, hheld, -⟩ := step_acquire hlast
    obtain ⟨n, t, hrun, hacquire, ht⟩ := ih hrest (hheld ▸ List.mem_cons_of_mem q hp)
    exact ⟨n + 1, t, hrun, hacquire, ht⟩

/-- A pointer that is put on the stack twice is handed out twice. -/
theorem exists_run_of_not_harmless (hs : Balanced s) (hlt : p < N) (hp : p ∉ s.held)
    (htop : s.pool.top < N) :
    ∃ n t, (objectPool N).run s (.release (some p) :: List.replicate n .acquire) = some t ∧
      t.pool.acquire.1 = some p ∧ p ∈ t.held := by
  obtain ⟨rest, above, hsplit⟩ := List.append_of_mem (hs.mem_freeStack hlt hp)
  obtain ⟨l, rfl⟩ : above ∈ Set.range (List.map some) := by
    rw [Set.range_list_map, Set.mem_ofPred_eq]
    intro q hq
    have hfree : q ∈ s.pool.freeStack :=
      hsplit ▸ List.mem_append_right _ (List.mem_cons_of_mem _ hq)
    obtain ⟨i, hi⟩ := Option.ne_none_iff_exists'.mp fun h => hs.notMem_freeStack (h ▸ hfree)
    exact ⟨i, hi.symm⟩
  obtain ⟨hrest, hheld, -⟩ := step_acquire (s := step s (.release (some p)))
    (freeStack_release htop)
  obtain ⟨n, t, hrun, hacquire, ht⟩ :=
    exists_run_acquire l (hrest.trans hsplit) (hheld ▸ List.mem_cons_self)
  exact ⟨n + 1, t, hrun, hacquire, ht⟩

/-- **Which redundant releases are tolerated.** In every run in which objects that are free are
given back only while all of them are, no object that is held is handed out; and a redundant release
leaves the pool as it is if and only if it gives back null, or all objects are free. After any other
redundant release, the object can be acquired twice. -/
theorem redundant_release (hs : ((objectPool N).restrict Harmless).Reachable s) :
    (∀ p, s.pool.acquire.1 = some p → p ∉ s.held) ∧
    (∀ q, Redundant s q → (s.pool.release q = s.pool ↔ q = none ∨ N ≤ s.pool.top)) ∧
    ∀ p, Redundant s (some p) → s.pool.top < N →
      ∃ n t, (objectPool N).run s (.release (some p) :: List.replicate n .acquire) = some t ∧
        t.pool.acquire.1 = some p ∧ p ∈ t.held := by
  have hbalanced := balanced_isInvariant.of_reachable hs
  refine ⟨fun p hp => hbalanced.notMem_held (mem_freeStack_of_acquire hp),
    fun q _ => release_eq_iff s.pool q, fun p hp htop => ?_⟩
  obtain ⟨hlt, hheld⟩ := hp p rfl
  exact exists_run_of_not_harmless hbalanced hlt hheld htop

/-- The first object of three is released while all are free, and one is acquired. -/
theorem redundant_release_threeObjects : ∃ s : State 3, s.held = [2] ∧
    (∀ p, s.pool.acquire.1 = some p → p ∉ s.held) ∧ s.pool.release none = s.pool := by
  obtain ⟨s, hs, hheld⟩ := TransitionSystem.exists_reachable
    (M := (objectPool 3).restrict Harmless) (p := fun s => s.held = [2])
    [.release (some 0), .acquire] (by decide)
  obtain ⟨hacquire, hrelease, -⟩ := redundant_release hs
  exact ⟨s, hheld, hacquire, (hrelease none nofun).mpr (.inl rfl)⟩

/-- Of two objects that are held, one is released twice, and handed out twice. -/
theorem not_tolerant_twoObjects : ¬ ∀ (N : ℕ) (s : State N),
    ((objectPool N).restrict OfPool).Reachable s → Tolerant s := by
  intro h
  obtain ⟨s, hs, hacquire, hheld⟩ := TransitionSystem.exists_reachable
    (M := (objectPool 2).restrict OfPool)
    (p := fun s => s.pool.acquire.1 = some 0 ∧ 0 ∈ s.held)
    [.acquire, .acquire, .release (some 0), .release (some 0), .acquire] (by decide)
  exact (h 2 s hs).2 0 hacquire hheld

end SystemsStack.Memory.ObjectPool
