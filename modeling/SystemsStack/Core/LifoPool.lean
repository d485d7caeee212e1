import SystemsStack.Core.TransitionSystem
import Mathlib.Data.List.Basic
import Mathlib.Tactic.Common

/-!
# Pools that hand out the object released last

A pool owns a fixed collection of objects. An object is free or held; the free ones are stacked,
and the top of the stack is handed out. Objects that have been released and not handed out again
are on top of those that have never been released, the last one first.

## Main definitions

* `Core.LifoPool`, `Core.LifoPool.step`, `Core.lifoPool`.
* `Core.LifoPool.Valid`: the invariant.

## Main results

* `Core.LifoPool.isInvariant_valid`: the free and the held objects are the objects of the pool,
  and the released ones are the top of the stack.
-/

namespace Core

/-- The stack of free objects, the objects that are held, and those that have been released and
not handed out again, each with the last one first. -/
structure LifoPool (α : Type*) where
  free : List α
  held : List α := []
  released : List α := []

namespace LifoPool

variable {α : Type*}

/-- What is asked of the pool. -/
inductive Action (α : Type*) where
  /-- Hand out the top of the stack, if there is one. -/
  | acquire
  /-- Give an object back that is held. -/
  | release (p : α)
  /-- Ask for nothing. -/
  | idle

section Step

variable [BEq α] [LawfulBEq α]

/-- One step of the pool; only an object that is held can be given back. -/
def step (s : LifoPool α) : Action α → Option (LifoPool α)
  | .acquire =>
      match s.free with
      | [] => some s
      | p :: free => some { free, held := p :: s.held, released := s.released.erase p }
  | .release p =>
      if p ∈ s.held then
        some { free := p :: s.free, held := s.held.erase p, released := p :: s.released }
      else none
  | .idle => some s

end Step

/-- The free and the held objects are the objects of the pool, and the released ones are the top
of the stack. -/
structure Valid (objects : List α) (s : LifoPool α) : Prop where
  perm : (s.free ++ s.held).Perm objects
  released_prefix : s.released <+: s.free

variable {objects : List α} {s s' : LifoPool α} {p : α} {free : List α}

namespace Valid

theorem nodup_free (hs : s.Valid objects) (hobjects : objects.Nodup) : s.free.Nodup :=
  (List.nodup_append.mp (hs.perm.nodup_iff.mpr hobjects)).1

/-- A free object is not held. -/
theorem notMem_held (hs : s.Valid objects) (hobjects : objects.Nodup) (hp : p ∈ s.free) :
    p ∉ s.held := by
  intro hheld
  obtain ⟨-, -, hne⟩ := List.nodup_append.mp (hs.perm.nodup_iff.mpr hobjects)
  exact hne p hp p hheld rfl

theorem length_add_length (hs : s.Valid objects) :
    s.free.length + s.held.length = objects.length := by
  rw [← List.length_append, hs.perm.length_eq]

/-- The object released last is the top of the stack. -/
theorem head?_free {rest : List α} (hs : s.Valid objects) (hp : s.released = p :: rest) :
    s.free.head? = some p := by
  obtain ⟨free, hfree⟩ := hs.released_prefix
  rw [← hfree, hp]
  rfl

variable [BEq α] [LawfulBEq α]

theorem acquire (hs : s.Valid objects) (hfree : s.free = p :: free) :
    Valid objects { free, held := p :: s.held, released := s.released.erase p } where
  perm := by
    have hperm := hs.perm
    rw [hfree, List.cons_append] at hperm
    exact List.perm_middle.trans hperm
  released_prefix := by
    have hprefix := hs.released_prefix
    rw [hfree] at hprefix
    cases hreleased : s.released with
    | nil => exact List.nil_prefix
    | cons q rest =>
      rw [hreleased] at hprefix
      obtain ⟨rfl, hrest⟩ := List.cons_prefix_cons.mp hprefix
      rwa [List.erase_cons_head]

theorem release (hs : s.Valid objects) (hp : p ∈ s.held) :
    Valid objects { free := p :: s.free, held := s.held.erase p, released := p :: s.released } where
  perm := by
    have hheld : (p :: s.held.erase p).Perm s.held := (List.perm_cons_erase hp).symm
    have hmove : ((p :: s.free) ++ s.held.erase p).Perm (s.free ++ s.held) :=
      List.perm_middle.symm.trans (hheld.append_left s.free)
    exact hmove.trans hs.perm
  released_prefix := List.cons_prefix_cons.mpr ⟨rfl, hs.released_prefix⟩

theorem step (hs : s.Valid objects) {a : Action α} (h : s.step a = some s') :
    s'.Valid objects := by
  cases a with
  | acquire =>
    cases hfree : s.free with
    | nil =>
      simp only [LifoPool.step, hfree, Option.some.injEq] at h
      exact h ▸ hs
    | cons p free =>
      simp only [LifoPool.step, hfree, Option.some.injEq] at h
      exact h ▸ hs.acquire hfree
  | release p =>
    simp only [LifoPool.step, Option.ite_none_right_eq_some, Option.some.injEq] at h
    exact h.2 ▸ hs.release h.1
  | idle => exact Option.some.inj h ▸ hs

end Valid

end LifoPool

/-- The pool of the given objects, all of them free. -/
def lifoPool {α : Type*} [BEq α] [LawfulBEq α] (objects : List α) :
    TransitionSystem (LifoPool α) (LifoPool.Action α) where
  init := { free := objects }
  step s a := s.step a

theorem LifoPool.isInvariant_valid {α : Type*} [BEq α] [LawfulBEq α] (objects : List α) :
    (lifoPool objects).IsInvariant (LifoPool.Valid objects) where
  init := ⟨by rw [lifoPool, List.append_nil], List.nil_prefix⟩
  step hs h := hs.step h

end Core
