import Mathlib.Data.List.Induction
import Mathlib.Algebra.Order.Group.Nat

/-!
# Single-writer atomic locations with stale reads

A location that one thread stores to and another thread reads. The stores form the *modification
order* of the location. The writer always reads its own last store. A load by the reader may
return any store that is not before the one the reader has seen last: loads are *coherent*, and
they may be arbitrarily *stale*.

A location *tracks* a sequence `f` when its modification order is `f 0, f 1, …`; the store at
place `p` of the order then holds `f p`, whatever the number of stores is by now.

## Main definitions

* `Core.Atomic`, `Core.Atomic.current`, `Core.Atomic.store`, `Core.Atomic.load`.
* `Core.Atomic.Tracks`.

## Main results

* `Core.Atomic.load_eq_some_iff`: what a load can return.
* `Core.Atomic.Tracks.current_eq`, `Core.Atomic.Tracks.store`, `Core.Atomic.Tracks.load`.
-/

namespace Core

/-- An atomic location with one writing and one reading thread. -/
structure Atomic (α : Type*) where
  /-- The value before the first store. -/
  initial : α
  /-- The stored values, in modification order. -/
  stores : List α := []
  /-- The place in the modification order the reader has seen last, `0` for the initial value. -/
  seen : ℕ := 0
  deriving DecidableEq, Repr

namespace Atomic

variable {α : Type*} (a : Atomic α)

/-- The modification order, the initial value first. -/
def order : List α := a.initial :: a.stores

/-- The last store: what the writing thread reads. -/
def current : α := a.stores.getLastD a.initial

/-- A store by the writing thread. -/
def store (v : α) : Atomic α := { a with stores := a.stores ++ [v] }

/-- A load by the reading thread that returns the store at place `p` of the modification order;
not enabled when the reader has seen a later store, or when there is no store at `p` yet. -/
def load (p : ℕ) : Option (α × Atomic α) :=
  if a.seen ≤ p then a.order[p]?.map fun v => (v, { a with seen := p }) else none

@[simp] theorem stores_store (v : α) : (a.store v).stores = a.stores ++ [v] := rfl

@[simp] theorem seen_store (v : α) : (a.store v).seen = a.seen := rfl

@[simp] theorem order_store (v : α) : (a.store v).order = a.order ++ [v] := rfl

@[simp] theorem length_order : a.order.length = a.stores.length + 1 := rfl

theorem order_getElem?_current : a.order[a.stores.length]? = some a.current := by
  rw [order, current]
  cases h : a.stores using List.reverseRecOn with
  | nil => rfl
  | append_singleton l v => simp

@[simp] theorem current_store (v : α) : (a.store v).current = v := by
  simp [current]

variable {a}

/-- A load returns some store from the one last seen on, and marks it as seen. -/
theorem load_eq_some_iff {p : ℕ} {v : α} {a' : Atomic α} :
    a.load p = some (v, a') ↔
      a.seen ≤ p ∧ a.order[p]? = some v ∧ a' = { a with seen := p } := by
  rw [load]
  split_ifs with h
  · rw [Option.map_eq_some_iff]
    constructor
    · rintro ⟨w, hw, heq⟩
      obtain ⟨rfl, rfl⟩ := Prod.mk.inj heq
      exact ⟨h, hw, rfl⟩
    · rintro ⟨-, hv, rfl⟩
      exact ⟨v, hv, rfl⟩
  · exact ⟨nofun, fun h' => absurd h'.1 h⟩

/-- A load stores nothing. -/
theorem stores_of_load {p : ℕ} {v : α} {a' : Atomic α} (h : a.load p = some (v, a')) :
    a'.stores = a.stores := by
  rw [(load_eq_some_iff.mp h).2.2]

/-- The last store can be loaded. -/
theorem load_last (h : a.seen ≤ a.stores.length) :
    a.load a.stores.length = some (a.current, { a with seen := a.stores.length }) :=
  load_eq_some_iff.mpr ⟨h, a.order_getElem?_current, rfl⟩

/-! ### Locations that track a sequence -/

variable (a) in
/-- The modification order is `f 0, f 1, …`, and the reader has seen one of the stores. -/
structure Tracks (f : ℕ → α) : Prop where
  seen_le : a.seen ≤ a.stores.length
  order : ∀ p ≤ a.stores.length, a.order[p]? = some (f p)

namespace Tracks

variable {f : ℕ → α}

theorem mk_initial {v : α} (hv : v = f 0) : Tracks { initial := v } f where
  seen_le := le_rfl
  order p hp := by
    obtain rfl := Nat.le_zero.mp hp
    exact congrArg some hv

theorem current_eq (h : a.Tracks f) : a.current = f a.stores.length :=
  Option.some.inj (a.order_getElem?_current.symm.trans (h.order _ le_rfl))

theorem store (h : a.Tracks f) {v : α} (hv : v = f (a.stores.length + 1)) :
    (a.store v).Tracks f where
  seen_le := by
    have := h.seen_le
    simp only [seen_store, stores_store, List.length_append, List.length_singleton]
    omega
  order p hp := by
    rw [stores_store, List.length_append, List.length_singleton] at hp
    rw [order_store]
    rcases Nat.lt_or_eq_of_le hp with hlt | rfl
    · rw [List.getElem?_append_left (by simpa using hlt)]
      exact h.order p (Nat.le_of_lt_succ hlt)
    · rw [List.getElem?_append_right (by simp)]
      simp [hv]

/-- A load from a location that tracks `f` returns `f p` for the place `p` it reads. -/
theorem load (h : a.Tracks f) {p : ℕ} {v : α} {a' : Atomic α} (hl : a.load p = some (v, a')) :
    a.seen ≤ p ∧ p ≤ a.stores.length ∧ v = f p ∧ a' = { a with seen := p } ∧ a'.Tracks f := by
  obtain ⟨hseen, hv, rfl⟩ := load_eq_some_iff.mp hl
  have hp : p ≤ a.stores.length := by
    have := (List.getElem?_eq_some_iff.mp hv).1
    rw [length_order] at this
    omega
  exact ⟨hseen, hp, Option.some.inj (hv.symm.trans (h.order p hp)), rfl, hp, h.order⟩

end Tracks

end Atomic

end Core
