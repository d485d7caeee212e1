import SystemsStack.Core.LifoPool
import Mathlib.Data.List.Nodup
import Mathlib.Data.List.Range
import Mathlib.Data.Option.Basic

/-!
# The object pool

`ll::ObjectPool` owns `N` objects and an array of `N` pointers. The pointers below `top_` point to
the free objects; the ones above are stale. `acquire` takes the pointer below `top_`, `release`
puts one there, and neither looks at the objects. This file embeds them, and follows the runs in
which every pointer given back is null or one that has been acquired and not been given back since.

A pointer to the object `slots_[i]` is the number `i`; a null pointer is `none`.

Source: `include/ll/arena.hpp`, lines 57–88.

## Main definitions

* `SystemsStack.Memory.ObjectPool`, with `acquire`, `release`, `available`.
* `SystemsStack.Memory.objectPool`: the runs of a pool as a transition system.
* `SystemsStack.Memory.ObjectPool.Admissible`, `SystemsStack.Memory.ObjectPool.State.toLifo`.

## Main results

* `SystemsStack.Memory.ObjectPool.refines_lifoPool`: every admissible call is one of the pool that
  hands out the object released last.
* `SystemsStack.Memory.ObjectPool.ownership`: who owns the objects, in every run.

## References

* `tests/test_ll_modules.cpp`, lines 71–80.
-/

namespace SystemsStack.Memory

open Core

/-- A pool of `N` objects: the array `free_`, and the index `top_`. -/
structure ObjectPool (N : ℕ) where
  free : Vector (Option ℕ) N
  top : ℕ
  top_le : top ≤ N

namespace ObjectPool

variable {N : ℕ} (pool : ObjectPool N)

/-- The constructor. -/
def create (N : ℕ) : ObjectPool N where
  free := .ofFn fun i => some i
  top := N
  top_le := Nat.le_refl N

/-- Take an object; the result is null when there is none. -/
def acquire : Option ℕ × ObjectPool N :=
  if htop : pool.top = 0 then
    (none, pool)
  else
    have hlt : pool.top - 1 < N := Nat.lt_of_lt_of_le (Nat.pred_lt htop) pool.top_le
    (pool.free[pool.top - 1], { pool with top := pool.top - 1, top_le := Nat.le_of_lt hlt })

/-- Give an object back. -/
def release (p : Option ℕ) : ObjectPool N :=
  if hguard : p = none ∨ N ≤ pool.top then
    pool
  else
    have hlt : pool.top < N := Nat.lt_of_not_le fun h => hguard (.inr h)
    { free := pool.free.set pool.top p, top := pool.top + 1, top_le := hlt }

def available : ℕ := pool.top

/-- The pointers below `top_`. -/
def freeStack : List (Option ℕ) := pool.free.toList.take pool.top

/-! ### Runs -/

/-- The pool, the objects that have been acquired and not been released since, and those that have
been released and not been acquired since, each with the last one first. -/
structure State (N : ℕ) where
  pool : ObjectPool N
  held : List ℕ := []
  released : List ℕ := []

/-- The calls of a pool. -/
inductive Action where
  | acquire
  | release (p : Option ℕ)
  deriving DecidableEq

/-- One call. -/
def step (s : State N) : Action → State N
  | .acquire =>
      match s.pool.acquire with
      | (none, pool) => { s with pool }
      | (some p, pool) => { pool, held := p :: s.held, released := s.released.erase p }
  | .release none => { s with pool := s.pool.release none }
  | .release (some p) =>
      { pool := s.pool.release (some p)
        held := s.held.erase p
        released := p :: s.released }

/-- A call that gives back nothing, or an object that is held. -/
def Admissible (s : State N) : Action → Prop
  | .acquire | .release none => True
  | .release (some p) => p ∈ s.held

instance (s : State N) : DecidablePred (Admissible s)
  | .acquire | .release none => inferInstanceAs (Decidable True)
  | .release (some p) => inferInstanceAs (Decidable (p ∈ s.held))

end ObjectPool

/-- The runs of a pool of `N` objects. -/
def objectPool (N : ℕ) : TransitionSystem (ObjectPool.State N) ObjectPool.Action where
  init := { pool := .create N }
  step s a := some (ObjectPool.step s a)

namespace ObjectPool

variable {N : ℕ} {pool : ObjectPool N} {s : State N}

/-! ### The stack of free pointers -/

theorem length_freeStack : pool.freeStack.length = pool.top := by
  rw [freeStack, List.length_take, Vector.length_toList]
  exact Nat.min_eq_left pool.top_le

theorem freeStack_create : (create N).freeStack = (List.range N).map some := by
  rw [freeStack, create, Vector.toList_ofFn, List.take_of_length_le (by simp)]
  refine List.ext_getElem (by simp) fun i _ _ => ?_
  rw [List.getElem_ofFn, List.getElem_map, List.getElem_range]

theorem acquire_of_freeStack_nil (h : pool.freeStack = []) : pool.acquire = (none, pool) := by
  have htop : pool.top = 0 := by rw [← length_freeStack, h]; rfl
  rw [acquire, dif_pos htop]

/-- The top of the stack is returned, and the rest stays. -/
theorem acquire_of_freeStack {p : Option ℕ} {rest : List (Option ℕ)}
    (h : pool.freeStack = rest ++ [p]) :
    pool.acquire.1 = p ∧ pool.acquire.2.freeStack = rest := by
  have htop : pool.top = rest.length + 1 := by rw [← length_freeStack, h]; simp
  obtain ⟨free, top, top_le⟩ := pool
  obtain rfl : top = rest.length + 1 := htop
  have hlt : rest.length < free.toList.length := by
    rw [Vector.length_toList]
    exact top_le
  rw [freeStack, List.take_succ_eq_append_getElem hlt] at h
  obtain ⟨hrest, hp⟩ := List.append_inj' h rfl
  rw [acquire, dif_neg (Nat.succ_ne_zero _)]
  exact ⟨(List.singleton_inj.mp hp), hrest⟩

/-- What is returned was free. -/
theorem mem_freeStack_of_acquire {p : ℕ} (h : pool.acquire.1 = some p) :
    some p ∈ pool.freeStack := by
  rcases List.eq_nil_or_concat' pool.freeStack with hfree | ⟨rest, q, hfree⟩
  · rw [acquire_of_freeStack_nil hfree] at h
    exact nomatch h
  · rw [(acquire_of_freeStack hfree).1] at h
    rw [hfree, h]
    exact List.mem_append_right _ (List.mem_singleton_self _)

/-- When the free pointers are not null, null is returned exactly when there are none. -/
theorem acquire_eq_none_iff {held : List (Option ℕ)}
    (hperm : (pool.freeStack ++ held).Perm ((List.range N).map some)) :
    pool.acquire.1 = none ↔ pool.top = 0 := by
  rcases List.eq_nil_or_concat' pool.freeStack with hfree | ⟨rest, q, hfree⟩
  · refine iff_of_true (by rw [acquire_of_freeStack_nil hfree]) ?_
    rw [← length_freeStack, hfree, List.length_nil]
  · have hmem : q ∈ (List.range N).map some := hperm.subset (by simp [hfree])
    obtain ⟨i, -, rfl⟩ := List.mem_map.mp hmem
    refine iff_of_false ?_ ?_
    · rw [(acquire_of_freeStack hfree).1]
      exact Option.some_ne_none i
    · rw [← length_freeStack, hfree, List.length_append]
      exact Nat.succ_ne_zero _

/-- The object on top of the stack is acquired. -/
theorem step_acquire {rest : List (Option ℕ)} {p : ℕ}
    (hfree : s.pool.freeStack = rest ++ [some p]) :
    (step s .acquire).pool.freeStack = rest ∧ (step s .acquire).held = p :: s.held ∧
      (step s .acquire).released = s.released.erase p := by
  obtain ⟨hp, hrest⟩ := acquire_of_freeStack hfree
  rcases hacquire : s.pool.acquire with ⟨q, pool'⟩
  rw [hacquire] at hp hrest
  dsimp only at hp hrest
  subst hp
  rw [step, hacquire]
  exact ⟨hrest, rfl, rfl⟩

/-- The object is put on top of the stack, unless the guard stops it. -/
theorem freeStack_release {p : ℕ} (h : pool.top < N) :
    (pool.release (some p)).freeStack = pool.freeStack ++ [some p] := by
  have hguard : ¬((some p : Option ℕ) = none ∨ N ≤ pool.top) := by
    rintro (hnone | hle)
    · exact nomatch hnone
    · exact absurd h (Nat.not_lt.mpr hle)
  have hlen : pool.top < (pool.free.toList.set pool.top (some p)).length := by
    rwa [List.length_set, Vector.length_toList]
  rw [release, dif_neg hguard, freeStack, freeStack]
  dsimp only
  rw [Vector.toList_set, List.take_succ_eq_append_getElem hlen, List.getElem_set_self,
    List.take_set_of_le (Nat.le_refl _)]

/-! ### The ledger -/

/-- The free pointers, and the pointers to the objects that are held. -/
def ledger (pool : ObjectPool N) (held : List ℕ) : List (Option ℕ) :=
  pool.freeStack ++ held.map some

theorem mem_ledger_of_held {held : List ℕ} {p : ℕ} (hp : p ∈ held) : some p ∈ pool.ledger held :=
  List.mem_append_right _ (List.mem_map_of_mem hp)

/-- An object that is acquired moves from the free ones to those that are held. -/
theorem ledger_acquire {held : List ℕ} {p : ℕ} {pool' : ObjectPool N}
    (h : pool.acquire = (some p, pool')) : (pool'.ledger (p :: held)).Perm (pool.ledger held) := by
  rcases List.eq_nil_or_concat' pool.freeStack with hfree | ⟨rest, q, hfree⟩
  · rw [acquire_of_freeStack_nil hfree] at h
    exact nomatch h
  · obtain ⟨hq, hrest⟩ := acquire_of_freeStack hfree
    rw [h] at hq hrest
    dsimp only at hq hrest
    subst hq
    rw [ledger, ledger, hrest, hfree, List.map_cons, List.append_assoc]
    exact .refl _

/-- When null is acquired and no free pointer is null, nothing is free, and the pool stays. -/
theorem eq_of_acquire_none {pool' : ObjectPool N} (hnone : none ∉ pool.freeStack)
    (h : pool.acquire = (none, pool')) : pool' = pool := by
  rcases List.eq_nil_or_concat' pool.freeStack with hfree | ⟨rest, q, hfree⟩
  · rw [acquire_of_freeStack_nil hfree] at h
    exact (Prod.mk.inj h).2.symm
  · obtain ⟨hq, -⟩ := acquire_of_freeStack hfree
    rw [h] at hq
    dsimp only at hq
    subst hq
    exact absurd (hfree ▸ List.mem_append_right _ (List.mem_singleton_self _)) hnone

/-- An object that is given back moves from those that are held to the free ones. -/
theorem ledger_release {held : List ℕ} {p : ℕ} (hp : p ∈ held) (htop : pool.top < N) :
    ((pool.release (some p)).ledger (held.erase p)).Perm (pool.ledger held) := by
  have hheld : (some p :: (held.erase p).map some).Perm (held.map some) :=
    (List.perm_cons_erase hp).symm.map some
  rw [ledger, ledger, freeStack_release htop, List.append_assoc]
  exact hheld.append_left _

/-- As many pointers as there are slots: with an object held, one slot of the array is unused. -/
theorem top_lt_of_held {held : List ℕ} {p : ℕ} (hlen : (pool.ledger held).length ≤ N)
    (hp : p ∈ held) : pool.top < N := by
  have := List.length_pos_of_mem hp
  rw [ledger, List.length_append, length_freeStack, List.length_map] at hlen
  omega

/-! ### The pool refines the pool that hands out the object released last -/

/-- The pool of pointers, the top of the stack first. -/
def State.toLifo (s : State N) : LifoPool (Option ℕ) where
  free := s.pool.freeStack.reverse
  held := s.held.map some
  released := s.released.map some

/-- The pointers to the objects of a pool, in the order in which a new pool hands them out. -/
def objects (N : ℕ) : List (Option ℕ) := ((List.range N).map some).reverse

theorem nodup_objects (N : ℕ) : (objects N).Nodup :=
  List.nodup_reverse.mpr (List.nodup_range.map (Option.some_injective ℕ))

theorem length_objects (N : ℕ) : (objects N).length = N := by simp [objects]

/-- The free pointers and the pointers to the held objects are all pointers of the pool. -/
theorem perm_of_valid (hs : s.toLifo.Valid (objects N)) :
    (s.pool.freeStack ++ s.held.map some).Perm ((List.range N).map some) :=
  ((List.reverse_perm _).symm.append_right _).trans (hs.perm.trans (List.reverse_perm _))

theorem top_add_length (hs : s.toLifo.Valid (objects N)) : s.pool.top + s.held.length = N := by
  have hlen := hs.length_add_length
  rwa [length_objects, State.toLifo, List.length_reverse, length_freeStack, List.length_map]
    at hlen

/-- **The pool refines the pool that hands out the object released last.** Every admissible call
is one of its steps. -/
theorem refines_lifoPool (hs : s.toLifo.Valid (objects N)) {act : Action}
    (hact : Admissible s act) :
    ∃ b, (lifoPool (objects N)).step s.toLifo b = some (step s act).toLifo := by
  cases act with
  | acquire =>
    refine ⟨.acquire, ?_⟩
    rcases List.eq_nil_or_concat' s.pool.freeStack with hfree | ⟨rest, p, hfree⟩
    · rw [step, acquire_of_freeStack_nil hfree]
      simp [lifoPool, LifoPool.step, State.toLifo, hfree]
    · have hmem : p ∈ (List.range N).map some :=
        (perm_of_valid hs).subset (by simp [hfree])
      obtain ⟨i, -, rfl⟩ := List.mem_map.mp hmem
      obtain ⟨hrest, hheld, hreleased⟩ := step_acquire hfree
      have htop : s.toLifo.free = some i :: rest.reverse := by simp [State.toLifo, hfree]
      have herase : (s.released.erase i).map some = (s.released.map some).erase (some i) :=
        List.map_erase (Option.some_injective ℕ) _
      simp only [lifoPool, LifoPool.step, htop]
      simp [State.toLifo, hrest, hheld, hreleased, herase]
  | release p =>
    cases p with
    | none => exact ⟨.idle, rfl⟩
    | some p =>
      have hheld : p ∈ s.held := hact
      have htop : s.pool.top < N := by
        have := top_add_length hs
        have := List.length_pos_of_mem hheld
        omega
      have herase : (s.held.erase p).map some = (s.held.map some).erase (some p) :=
        List.map_erase (Option.some_injective ℕ) _
      refine ⟨.release (some p), ?_⟩
      simp [lifoPool, LifoPool.step, State.toLifo, step, freeStack_release htop, hheld, herase]

theorem isInvariant_valid :
    ((objectPool N).restrict Admissible).IsInvariant fun s => s.toLifo.Valid (objects N) := by
  have hinit : ((objectPool N).restrict Admissible).init.toLifo =
      (lifoPool (objects N)).init := by
    change State.toLifo { pool := create N } = _
    rw [State.toLifo, freeStack_create]
    rfl
  refine (LifoPool.isInvariant_valid (objects N)).of_refinement hinit fun hs h => ?_
  obtain ⟨hact, hstep⟩ := (TransitionSystem.restrict_step_iff _).mp h
  obtain rfl := Option.some.inj hstep
  exact refines_lifoPool hs hact

/-! ### Ownership -/

/-- **Ownership of the objects.** In every state that admissible calls reach: no pointer is twice
below `top_`; the free pointers and those to the objects that are held are the `N` pointers of the
pool; `acquire` does not return an object that is held, and returns null exactly when all are; the
guard of `release` stops no object that is held; the available and the held objects are `N`; and
the object released last is the next to be acquired. -/
theorem ownership (hs : ((objectPool N).restrict Admissible).Reachable s) :
    s.pool.freeStack.Nodup ∧
    (s.pool.freeStack ++ s.held.map some).Perm ((List.range N).map some) ∧
    (∀ p, s.pool.acquire.1 = some p → p ∉ s.held) ∧
    (s.pool.acquire.1 = none ↔ s.held.length = N) ∧
    (∀ p ∈ s.held, ¬N ≤ s.pool.top) ∧
    s.pool.available + s.held.length = N ∧
    ∀ p rest, s.released = p :: rest → s.pool.acquire.1 = some p := by
  have hv := isInvariant_valid.of_reachable hs
  have hnodup : s.pool.freeStack.Nodup :=
    List.nodup_reverse.mp (hv.nodup_free (nodup_objects N))
  have hperm := perm_of_valid hv
  have hlen := top_add_length hv
  refine ⟨hnodup, hperm, fun p hp hheld => ?_, ?_, fun p hp hle => ?_, hlen,
    fun p rest hreleased => ?_⟩
  · have hfree := mem_freeStack_of_acquire hp
    exact hv.notMem_held (nodup_objects N) (List.mem_reverse.mpr hfree)
      (List.mem_map_of_mem hheld)
  · rw [acquire_eq_none_iff hperm]
    omega
  · have := List.length_pos_of_mem hp
    omega
  · have hhead := hv.head?_free (congrArg (List.map some) hreleased)
    rw [State.toLifo, List.head?_reverse] at hhead
    obtain ⟨rest, hfree⟩ := List.getLast?_eq_some_iff.mp hhead
    exact (acquire_of_freeStack hfree).1

/-- Two of three objects are acquired, and the second is released. -/
theorem ownership_threeObjects : ∃ s : State 3,
    (s.held = [2] ∧ s.released = [1]) ∧ s.pool.available + s.held.length = 3 ∧
      s.pool.acquire.1 = some 1 := by
  obtain ⟨s, hs, hheld, hreleased⟩ := TransitionSystem.exists_reachable
    (M := (objectPool 3).restrict Admissible)
    (p := fun s => s.held = [2] ∧ s.released = [1])
    [.acquire, .acquire, .release none, .release (some 1)] (by decide)
  obtain ⟨-, -, -, -, -, havailable, hlast⟩ := ownership hs
  exact ⟨s, ⟨hheld, hreleased⟩, havailable, hlast 1 [] hreleased⟩

end ObjectPool

end SystemsStack.Memory
