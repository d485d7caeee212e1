import Mathlib.Data.List.Basic
import Mathlib.Logic.Relation
import Mathlib.Tactic.Common

/-!
# Happens-before and data races

A run of several threads is a log of their memory accesses: to plain locations, and to atomic
locations, which are stored to with release semantics and loaded from with acquire semantics. The
stores to an atomic location form its modification order, in the order of the log. A load names the
store it reads from by its place in this order, `0` for the initial value; it may be stale.

An access *happens before* another one if it comes first in the same thread, if it is the store that
the other one, a load, reads from, or by a chain of such steps. A log is *free of data races* if any
two conflicting accesses of different threads are ordered in this way.

Data is handed over from a thread that owns an atomic location to one that loads from it: all that
the owner has done before its `p`-th store happens before a load that reads this store
(`Core.happensBefore_of_acquire`), and so before what the loading thread does then
(`Core.Handover.happensBefore`).

## Main definitions

* `Core.Access`, `Core.MemoryEvent`, `Core.releases`.
* `Core.HappensBefore`, `Core.MemoryEvent.Conflicts`, `Core.RaceFree`.
* `Core.Handover`: what a log says about an atomic location between two threads.

## Main results

* `Core.happensBefore_of_acquire`, `Core.HappensBefore.concat`.
* `Core.Handover.concat`, `Core.Handover.happensBefore`.
* `Core.RaceFree.concat`: one more access.
-/

namespace Core

/-! ### Logs of accesses -/

/-- An access to a plain location in `ℓ` or to an atomic location in `κ`. -/
inductive Access (ℓ κ : Type*) where
  /-- A plain access, which may write. -/
  | plain (l : ℓ) (writes : Bool)
  /-- A store to an atomic location, with release semantics. -/
  | release (a : κ)
  /-- A load that reads the store at this place of the modification order, with acquire
  semantics. -/
  | acquire (a : κ) (place : ℕ)
  deriving DecidableEq, Repr

/-- An access of a thread. -/
structure MemoryEvent (θ ℓ κ : Type*) where
  thread : θ
  access : Access ℓ κ
  deriving DecidableEq, Repr

variable {θ ℓ κ : Type*} [DecidableEq ℓ] [DecidableEq κ] {log : List (MemoryEvent θ ℓ κ)}
  {e e' : MemoryEvent θ ℓ κ} {a : κ} {i j k : ℕ}

/-- The number of stores to an atomic location among the first accesses of a log. -/
def releases (log : List (MemoryEvent θ ℓ κ)) (a : κ) (i : ℕ) : ℕ :=
  (log.take i).countP fun e => e.access = .release a

theorem releases_mono (log : List (MemoryEvent θ ℓ κ)) (a : κ) (h : i ≤ j) :
    releases log a i ≤ releases log a j :=
  (List.take_sublist_take_left h).countP_le

theorem releases_succ (h : log[i]? = some e) :
    releases log a (i + 1) = releases log a i + if e.access = .release a then 1 else 0 := by
  rw [releases, List.take_add_one, h, List.countP_append, releases]
  simp [List.countP_cons]

/-- What has been counted stays as it is when the log grows. -/
theorem releases_append (log' : List (MemoryEvent θ ℓ κ)) (a : κ) (h : i ≤ log.length) :
    releases (log ++ log') a i = releases log a i := by
  rw [releases, List.take_append_of_le_length h, releases]

theorem releases_concat (log : List (MemoryEvent θ ℓ κ)) (e : MemoryEvent θ ℓ κ) (a : κ) :
    releases (log ++ [e]) a (log ++ [e]).length =
      releases log a log.length + if e.access = .release a then 1 else 0 := by
  have hlast : (log ++ [e])[log.length]? = some e := by simp
  rw [List.length_append, List.length_singleton, releases_succ hlast,
    releases_append [e] a (Nat.le_refl _)]

/-- Between two numbers of stores there is each of the stores. -/
theorem exists_release {p : ℕ} (hi : releases log a i < p) (hk : p ≤ releases log a k) :
    ∃ r e, i ≤ r ∧ r < k ∧ log[r]? = some e ∧ e.access = .release a ∧
      releases log a r + 1 = p := by
  induction k with
  | zero =>
    have hmono := releases_mono log a (Nat.zero_le i)
    omega
  | succ k ih =>
    by_cases hp : p ≤ releases log a k
    · obtain ⟨r, e, hir, hrk, hr⟩ := ih hp
      exact ⟨r, e, hir, Nat.lt_succ_of_lt hrk, hr⟩
    · have hik : i ≤ k := by
        by_contra hlt
        have hmono := releases_mono log a (show k + 1 ≤ i by omega)
        omega
      rcases hget : log[k]? with _ | e
      · -- there is no access at `k`
        rw [List.getElem?_eq_none_iff] at hget
        rw [releases, List.take_of_length_le (Nat.le_succ_of_le hget)] at hk
        rw [releases, List.take_of_length_le hget] at hp
        exact absurd hk hp
      · rw [releases_succ hget] at hk
        split_ifs at hk with he
        · exact ⟨k, e, hik, Nat.lt_succ_self k, hget, he, by omega⟩
        · exact absurd hk hp

theorem getElem?_concat_eq_some_iff {α : Type*} {l : List α} {x y : α} :
    (l ++ [x])[i]? = some y ↔ l[i]? = some y ∨ i = l.length ∧ x = y := by
  rcases Nat.lt_trichotomy i l.length with h | rfl | h
  · rw [List.getElem?_append_left h]
    exact (or_iff_left fun h' => Nat.ne_of_lt h h'.1).symm
  · simp
  · rw [List.getElem?_eq_none (by simp; omega), List.getElem?_eq_none (Nat.le_of_lt h)]
    simp [Nat.ne_of_gt h]

/-- What holds of all accesses, each with the number of stores in front of it, holds when it holds
of one access more. -/
theorem forall_releases_concat {P : ℕ → MemoryEvent θ ℓ κ → Prop} :
    (∀ (i : ℕ) (e' : MemoryEvent θ ℓ κ), (log ++ [e])[i]? = some e' →
        P (releases (log ++ [e]) a i) e') ↔
      (∀ (i : ℕ) (e' : MemoryEvent θ ℓ κ), log[i]? = some e' → P (releases log a i) e') ∧
        P (releases log a log.length) e := by
  have hcount {i : ℕ} (hi : i ≤ log.length) : releases (log ++ [e]) a i = releases log a i :=
    releases_append [e] a hi
  refine ⟨fun h => ⟨fun i e' hi => ?_, ?_⟩, fun h i e' hi => ?_⟩
  · rw [← hcount (Nat.le_of_lt (List.getElem?_eq_some_iff.mp hi).1)]
    exact h i e' (getElem?_concat_eq_some_iff.mpr (.inl hi))
  · rw [← hcount (Nat.le_refl _)]
    exact h log.length e (getElem?_concat_eq_some_iff.mpr (.inr ⟨rfl, rfl⟩))
  · rcases getElem?_concat_eq_some_iff.mp hi with hi | ⟨rfl, rfl⟩
    · rw [hcount (Nat.le_of_lt (List.getElem?_eq_some_iff.mp hi).1)]
      exact h.1 i e' hi
    · rw [hcount (Nat.le_refl _)]
      exact h.2

/-! ### Happens-before -/

/-- One access directly orders a later one: in the same thread, or as the store that a load reads
from. -/
inductive Orders (log : List (MemoryEvent θ ℓ κ)) (i j : ℕ) : Prop
  | program {e e' : MemoryEvent θ ℓ κ} (lt : i < j) (hi : log[i]? = some e)
      (hj : log[j]? = some e') (thread : e.thread = e'.thread)
  | synchronizes {e e' : MemoryEvent θ ℓ κ} {a : κ} (lt : i < j) (hi : log[i]? = some e)
      (hj : log[j]? = some e') (release : e.access = .release a)
      (acquire : e'.access = .acquire a (releases log a i + 1))

/-- The access at place `i` of the log happens before the one at place `j`. -/
def HappensBefore (log : List (MemoryEvent θ ℓ κ)) : ℕ → ℕ → Prop := Relation.TransGen (Orders log)

theorem Orders.append (log' : List (MemoryEvent θ ℓ κ)) (h : Orders log i j) :
    Orders (log ++ log') i j := by
  have hget {k : ℕ} {e : MemoryEvent θ ℓ κ} (hk : log[k]? = some e) :
      (log ++ log')[k]? = some e := by
    rw [List.getElem?_append_left (List.getElem?_eq_some_iff.mp hk).1, hk]
  cases h with
  | program lt hi hj thread => exact .program lt (hget hi) (hget hj) thread
  | synchronizes lt hi hj release acquire =>
    refine .synchronizes lt (hget hi) (hget hj) release ?_
    rw [releases_append _ _ (Nat.le_of_lt (List.getElem?_eq_some_iff.mp hi).1), acquire]

/-- What happens before something, does so when the log grows. -/
theorem HappensBefore.append (log' : List (MemoryEvent θ ℓ κ)) (h : HappensBefore log i j) :
    HappensBefore (log ++ log') i j :=
  Relation.TransGen.mono (fun _ _ => Orders.append log') i j h

/-- **Handing over.** What the owner of an atomic location has done before its `p`-th store happens
before a load that reads this store. -/
theorem happensBefore_of_acquire {p : ℕ}
    (howner : ∀ (r : ℕ) (e' : MemoryEvent θ ℓ κ), log[r]? = some e' → e'.access = .release a →
      e'.thread = e.thread)
    (hi : log[i]? = some e) (hplain : e.access ≠ .release a) (hbefore : releases log a i < p)
    (hk : log[k]? = some e') (hacquire : e'.access = .acquire a p)
    (hread : p ≤ releases log a k) : HappensBefore log i k := by
  obtain ⟨r, released, hir, hrk, hr, hrelease, rfl⟩ := exists_release hbefore hread
  have hne : i ≠ r := by
    rintro rfl
    rw [hi] at hr
    exact hplain (Option.some.inj hr ▸ hrelease)
  have hprogram : Orders log i r :=
    .program (Nat.lt_of_le_of_ne hir hne) hi hr (howner r released hr hrelease).symm
  exact .tail (.single hprogram) (.synchronizes hrk hr hk hrelease hacquire)

/-- What happens before an access happens before the next access of the same thread. -/
theorem HappensBefore.concat (h : HappensBefore log i k) (hk : log[k]? = some e)
    (hthread : e.thread = e'.thread) : HappensBefore (log ++ [e']) i log.length :=
  .tail (h.append [e']) (.program (List.getElem?_eq_some_iff.mp hk).1
    (getElem?_concat_eq_some_iff.mpr (.inl hk)) (getElem?_concat_eq_some_iff.mpr (.inr ⟨rfl, rfl⟩))
    hthread)

/-! ### Handing over -/

/-- What a log says about an atomic location that one thread, its owner, stores to, and another one
loads from: it has all the stores; and the last one that the reader has seen, it has acquired. -/
structure Handover (log : List (MemoryEvent θ ℓ κ)) (a : κ) (owner reader : θ)
    (stores seen : ℕ) : Prop where
  stores : releases log a log.length = stores
  owner : ∀ (i : ℕ) (e : MemoryEvent θ ℓ κ), log[i]? = some e → e.access = .release a →
    e.thread = owner
  seen : 0 < seen → ∃ k : ℕ, log[k]? = some ⟨reader, .acquire a seen⟩ ∧ seen ≤ releases log a k

namespace Handover

variable {owner reader : θ} {stores seen stores' seen' : ℕ}

theorem nil : Handover ([] : List (MemoryEvent θ ℓ κ)) a owner reader 0 0 where
  stores := rfl
  owner i e hi := by simp at hi
  seen h := absurd h (Nat.lt_irrefl 0)

/-- One more access. -/
theorem concat (h : Handover log a owner reader stores seen)
    (hstores : stores' = stores + if e.access = .release a then 1 else 0)
    (howner : e.access = .release a → e.thread = owner)
    (hseen : seen' = seen ∨ e = ⟨reader, .acquire a seen'⟩ ∧ seen' ≤ stores) :
    Handover (log ++ [e]) a owner reader stores' seen' := by
  refine ⟨?_, ?_, fun hpos => ?_⟩
  · rw [releases_concat, h.stores, hstores]
  · exact (forall_releases_concat (a := a)
      (P := fun _ e => e.access = .release a → e.thread = owner)).mpr ⟨h.owner, howner⟩
  · rcases hseen with rfl | ⟨he, hle⟩
    · obtain ⟨k, hk, hle⟩ := h.seen hpos
      have hlt := Nat.le_of_lt (List.getElem?_eq_some_iff.mp hk).1
      exact ⟨k, getElem?_concat_eq_some_iff.mpr (.inl hk), by rwa [releases_append [e] a hlt]⟩
    · exact ⟨log.length, getElem?_concat_eq_some_iff.mpr (.inr ⟨rfl, he⟩),
        by rwa [releases_append [e] a (Nat.le_refl _), h.stores]⟩

/-- What the owner has done before a store that the reader has seen, happens before what the reader
does next. -/
theorem happensBefore (h : Handover log a owner reader stores seen) {access : Access ℓ κ}
    (hi : log[i]? = some ⟨owner, access⟩) (hplain : access ≠ .release a)
    (hbefore : releases log a i < seen) {access' : Access ℓ κ} :
    HappensBefore (log ++ [⟨reader, access'⟩]) i log.length := by
  obtain ⟨k, hk, hread⟩ := h.seen (Nat.zero_lt_of_lt hbefore)
  have hacquire : HappensBefore log i k :=
    happensBefore_of_acquire h.owner hi hplain hbefore hk rfl hread
  exact hacquire.concat hk rfl

end Handover

/-! ### Data races -/

/-- Two accesses of different threads to one plain location, one of which writes. -/
def MemoryEvent.Conflicts (e e' : MemoryEvent θ ℓ κ) : Prop :=
  e.thread ≠ e'.thread ∧
    ∃ l w w', e.access = .plain l w ∧ e'.access = .plain l w' ∧ (w = true ∨ w' = true)

/-- Of any two conflicting accesses, the first one happens before the second one. -/
def RaceFree (log : List (MemoryEvent θ ℓ κ)) : Prop :=
  ∀ i j e e', i < j → log[i]? = some e → log[j]? = some e' → e.Conflicts e' → HappensBefore log i j

theorem raceFree_nil : RaceFree ([] : List (MemoryEvent θ ℓ κ)) := by
  intro i j e e' _ hi
  simp at hi

/-- One more access, which the accesses it conflicts with happen before. -/
theorem RaceFree.concat (h : RaceFree log)
    (hlast : ∀ i e, log[i]? = some e → e.Conflicts e' →
      HappensBefore (log ++ [e']) i log.length) : RaceFree (log ++ [e']) := by
  intro i j e₁ e₂ hij hi hj hconflict
  have hi : log[i]? = some e₁ := by
    have hlt := (List.getElem?_eq_some_iff.mp hj).1
    rw [List.length_append, List.length_singleton] at hlt
    exact (getElem?_concat_eq_some_iff.mp hi).resolve_right fun h => by omega
  rcases getElem?_concat_eq_some_iff.mp hj with hj | ⟨rfl, rfl⟩
  · exact (h i j e₁ e₂ hij hi hj hconflict).append [e']
  · exact hlast i e₁ hi hconflict

end Core
