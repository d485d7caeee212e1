import SystemsStack.Memory.ObjectPool
import Mathlib.Data.List.Perm.Subperm

/-!
# Copies of object pools

`ll::ObjectPool` declares no copy or move operation, and the compiler provides all four of them.
They copy the pointers and `top_` member by member, so that the free pointers of a copy point into
the slots of the pool it was copied from. A pool whose free stack is empty has no such pointers: as
long as only such pools are copied or moved from, every free pointer of a pool points into its own
slots (`SystemsStack.Memory.ObjectPool.pools_own`).

The slots of the pool with the number `k` are the objects from `k * N` on.

Source: `include/ll/arena.hpp`, lines 57–88.

## Main definitions

* `SystemsStack.Memory.ObjectPool.Population`, `SystemsStack.Memory.pools`: the runs of any number
  of pools as a transition system.
* `SystemsStack.Memory.ObjectPool.OwnsFree`, `SystemsStack.Memory.ObjectPool.CopiesNothing`.

## Main results

* `SystemsStack.Memory.ObjectPool.owned_isInvariant`.
* `SystemsStack.Memory.ObjectPool.pools_own`.
-/

namespace SystemsStack.Memory

open Core

namespace ObjectPool

variable {N : ℕ}

/-! ### Pools and their copies -/

/-- The constructor, for the pool whose slots are the objects from `base` on. -/
def createAt (N base : ℕ) : ObjectPool N where
  free := .ofFn fun i => some (base + i)
  top := N
  top_le := Nat.le_refl N

/-- The slots of the first pool are the objects from `0` on. -/
theorem createAt_zero (N : ℕ) : createAt N 0 = create N := by
  simp only [createAt, create, Nat.zero_add]

/-- A member by member copy of the pointers and of `top_`: what all four operations provided by the
compiler do, as pointers are moved by copying them. -/
def copyMembers (src : ObjectPool N) : ObjectPool N where
  free := src.free
  top := src.top
  top_le := src.top_le

/-- `ObjectPool(const ObjectPool&)`. -/
def copyConstruct (src : ObjectPool N) : ObjectPool N := src.copyMembers

/-- `ObjectPool(ObjectPool&&)`. -/
def moveConstruct (src : ObjectPool N) : ObjectPool N := src.copyMembers

/-- `operator=(const ObjectPool&)`. -/
def copyAssign (_dst src : ObjectPool N) : ObjectPool N := src.copyMembers

/-- `operator=(ObjectPool&&)`. -/
def moveAssign (_dst src : ObjectPool N) : ObjectPool N := src.copyMembers

/-- A pool, and the objects that have been acquired from it and not been given back since. -/
structure Owner (N : ℕ) where
  pool : ObjectPool N
  held : List ℕ := []

/-- Pools of `N` objects, by their numbers. -/
abbrev Population (N : ℕ) : Type := List (Owner N)

/-- What can be done with pools. -/
inductive PoolAction where
  | create
  | acquire (k : ℕ)
  | release (k : ℕ) (p : Option ℕ)
  | copyConstruct (src : ℕ)
  | moveConstruct (src : ℕ)
  | copyAssign (dst src : ℕ)
  | moveAssign (dst src : ℕ)
  deriving DecidableEq

/-- A call of `acquire`. -/
def Owner.acquire (o : Owner N) : Owner N :=
  match o.pool.acquire with
  | (none, pool) => { o with pool }
  | (some p, pool) => { pool, held := p :: o.held }

/-- A call of `release`. -/
def Owner.release (o : Owner N) (p : Option ℕ) : Owner N where
  pool := o.pool.release p
  held := p.elim o.held o.held.erase

/-- One operation on pools that exist; only null and objects that are held are given back. -/
def Population.step (s : Population N) : PoolAction → Option (Population N)
  | .create => some (s ++ [{ pool := createAt N (s.length * N) }])
  | .acquire k => s[k]?.map fun o => s.set k o.acquire
  | .release k p =>
      s[k]?.bind fun o =>
        if ∀ i ∈ p, i ∈ o.held then some (s.set k (o.release p)) else none
  | .copyConstruct src => s[src]?.map fun o => s ++ [{ pool := o.pool.copyConstruct }]
  | .moveConstruct src => s[src]?.map fun o => s ++ [{ pool := o.pool.moveConstruct }]
  | .copyAssign dst src =>
      s[dst]?.bind fun d => s[src]?.map fun o =>
        s.set dst { d with pool := d.pool.copyAssign o.pool }
  | .moveAssign dst src =>
      s[dst]?.bind fun d => s[src]?.map fun o =>
        s.set dst { d with pool := d.pool.moveAssign o.pool }

end ObjectPool

/-- The runs of pools of `N` objects. -/
def pools (N : ℕ) : TransitionSystem (ObjectPool.Population N) ObjectPool.PoolAction where
  init := []
  step s a := ObjectPool.Population.step s a

namespace ObjectPool

variable {N k l : ℕ} {s s' : Population N} {o : Owner N} {a : PoolAction}

/-! ### Own slots -/

/-- The pointer points into the slots of the pool with the number `k`. -/
def Own (N k : ℕ) (p : Option ℕ) : Prop := ∃ i < N, p = some (k * N + i)

/-- The pointers into the slots of a pool. -/
def slots (N k : ℕ) : List (Option ℕ) := (List.range N).map fun i => some (k * N + i)

theorem mem_slots_iff {p : Option ℕ} : p ∈ slots N k ↔ Own N k p := by
  simp only [slots, Own, List.mem_map, List.mem_range, eq_comm]

theorem nodup_slots (N k : ℕ) : (slots N k).Nodup :=
  List.nodup_range.map fun _ _ h => Nat.add_left_cancel (Option.some.inj h)

theorem length_slots (N k : ℕ) : (slots N k).length = N := by
  rw [slots, List.length_map, List.length_range]

/-- Different pools have different slots. -/
theorem Own.eq {p : Option ℕ} (h : Own N k p) (h' : Own N l p) : k = l := by
  obtain ⟨i, hi, rfl⟩ := h
  obtain ⟨j, hj, heq⟩ := h'
  have hpos : 0 < N := Nat.lt_of_le_of_lt (Nat.zero_le i) hi
  have hdiv (m n : ℕ) (hn : n < N) : (m * N + n) / N = m := by
    rw [Nat.mul_comm, Nat.mul_add_div hpos, Nat.div_eq_of_lt hn, Nat.add_zero]
  rw [← hdiv k i hi, Option.some.inj heq, hdiv l j hj]

theorem freeStack_createAt (N k : ℕ) : (createAt N (k * N)).freeStack = slots N k := by
  rw [freeStack, createAt, Vector.toList_ofFn, List.take_of_length_le (by simp)]
  refine List.ext_getElem (by simp [slots]) fun i _ _ => ?_
  simp [slots]

/-- In every pool, each free pointer points into the slots of the pool; and what can be acquired
from it is an object of that pool, which is not held and cannot be acquired from another pool. -/
def OwnsFree (s : Population N) : Prop :=
  ∀ k o, s[k]? = some o →
    (∀ p ∈ o.pool.freeStack, Own N k p) ∧
    ∀ p, o.pool.acquire.1 = some p → Own N k (some p) ∧
      ∀ l o', s[l]? = some o' → p ∉ o'.held ∧ (l ≠ k → o'.pool.acquire.1 ≠ some p)

/-- The free pointers of a pool and those to the objects that are held are slots of the pool, none
of them twice. -/
def Owner.Owned (k : ℕ) (o : Owner N) : Prop := (o.pool.ledger o.held).Subperm (slots N k)

/-- All pools own their ledger. -/
def Population.Owned (s : Population N) : Prop :=
  ∀ (k : ℕ) (o : Owner N), s[k]? = some o → o.Owned k

namespace Owner.Owned

theorem own (h : o.Owned k) {p : Option ℕ} (hp : p ∈ o.pool.ledger o.held) : Own N k p :=
  mem_slots_iff.mp (h.subset hp)

theorem notMem_freeStack (h : o.Owned k) : none ∉ o.pool.freeStack := fun hnone => by
  obtain ⟨i, -, hi⟩ := h.own (List.mem_append_left _ hnone)
  exact nomatch hi

theorem acquire (h : o.Owned k) : o.acquire.Owned k := by
  rcases hacquire : o.pool.acquire with ⟨_ | p, pool⟩
  · obtain rfl := eq_of_acquire_none h.notMem_freeStack hacquire
    rw [Owner.acquire, hacquire]
    exact h
  · rw [Owner.acquire, hacquire]
    exact (ledger_acquire hacquire).subperm.trans h

theorem release (h : o.Owned k) {p : Option ℕ} (hp : ∀ i ∈ p, i ∈ o.held) :
    (o.release p).Owned k := by
  cases p with
  | none =>
    have hnone : o.pool.release none = o.pool := dif_pos (.inl rfl)
    rw [Owner.release, hnone]
    exact h
  | some p =>
    have hheld := hp p rfl
    have hlen : (o.pool.ledger o.held).length ≤ N := h.length_le.trans_eq (length_slots N k)
    exact (ledger_release hheld (top_lt_of_held hlen hheld)).subperm.trans h

/-- A pool without free pointers owns them all, whatever else is held. -/
theorem of_top_eq_zero {pool : ObjectPool N} (h : o.Owned k) (htop : pool.top = 0) :
    Owner.Owned k { o with pool } := by
  have hfree : pool.freeStack = [] := List.eq_nil_of_length_eq_zero (length_freeStack.trans htop)
  have hsublist : (o.held.map some).Sublist (o.pool.ledger o.held) := List.sublist_append_right _ _
  rw [Owner.Owned, ledger, hfree]
  exact hsublist.subperm.trans h

theorem createAt (N k : ℕ) : Owner.Owned k { pool := ObjectPool.createAt N (k * N) } := by
  rw [Owner.Owned, ledger, freeStack_createAt, List.map_nil, List.append_nil]

end Owner.Owned

namespace Population.Owned

theorem set (hs : s.Owned) (ho : o.Owned k) : Population.Owned (s.set k o) := by
  intro l o' ho'
  rw [List.getElem?_set] at ho'
  split_ifs at ho' with hkl hlt
  · obtain rfl := Option.some.inj ho'
    exact hkl ▸ ho
  · exact hs l o' ho'

theorem concat (hs : s.Owned) (ho : o.Owned s.length) : Population.Owned (s ++ [o]) := by
  intro l o' ho'
  rw [List.getElem?_append] at ho'
  split_ifs at ho' with hlt
  · exact hs l o' ho'
  · rw [List.getElem?_singleton] at ho'
    split_ifs at ho' with hzero
    obtain rfl := Option.some.inj ho'
    obtain rfl : l = s.length := by omega
    exact ho

/-- Pools that own their ledgers own their free pointers. -/
theorem ownsFree (hs : s.Owned) : OwnsFree s := by
  intro k o ho
  have hown := hs k o ho
  refine ⟨fun p hp => hown.own (List.mem_append_left _ hp), fun p hp => ?_⟩
  have hfree := mem_freeStack_of_acquire hp
  have hp : Own N k (some p) := hown.own (List.mem_append_left _ hfree)
  refine ⟨hp, fun l o' ho' => ⟨fun hheld => ?_, fun hne hacquire => ?_⟩⟩
  · obtain rfl : l = k := ((hs l o' ho').own (mem_ledger_of_held hheld)).eq hp
    obtain rfl := Option.some.inj (ho'.symm.trans ho)
    have hnodup : (o'.pool.ledger o'.held).Nodup := by
      obtain ⟨m, hperm, hsublist⟩ := hown
      exact hperm.nodup_iff.mp ((nodup_slots N l).sublist hsublist)
    exact (List.nodup_append.mp hnodup).2.2 _ hfree _ (List.mem_map_of_mem hheld) rfl
  · exact hne (((hs l o' ho').own (List.mem_append_left _
      (mem_freeStack_of_acquire hacquire))).eq hp)

end Population.Owned

/-! ### Copies of pools -/

/-- The operation copies or moves no free pointer to another pool. -/
def CopiesNothing (s : Population N) : PoolAction → Prop
  | .create | .acquire _ | .release _ _ => True
  | .copyConstruct src | .moveConstruct src => ∀ o ∈ s[src]?, o.pool.top = 0
  | .copyAssign dst src | .moveAssign dst src => dst = src ∨ ∀ o ∈ s[src]?, o.pool.top = 0

instance (s : Population N) : DecidablePred (CopiesNothing s)
  | .create | .acquire _ | .release _ _ => inferInstanceAs (Decidable True)
  | .copyConstruct src | .moveConstruct src =>
      inferInstanceAs (Decidable (∀ o ∈ s[src]?, o.pool.top = 0))
  | .copyAssign dst src | .moveAssign dst src =>
      inferInstanceAs (Decidable (dst = src ∨ ∀ o ∈ s[src]?, o.pool.top = 0))

/-- A new pool that is a copy. -/
theorem Population.Owned.construct (hs : s.Owned) {src : ℕ}
    (htop : ∀ o ∈ s[src]?, o.pool.top = 0) (ho : s[src]? = some o) :
    Population.Owned (s ++ [{ pool := o.pool.copyMembers }]) := by
  have hempty : Owner.Owned s.length ({ pool := createAt N (s.length * N) } : Owner N) :=
    .createAt N s.length
  exact hs.concat (hempty.of_top_eq_zero (htop o ho))

/-- An assigned pool. -/
theorem Population.Owned.assign (hs : s.Owned) {dst src : ℕ} {d : Owner N}
    (htop : dst = src ∨ ∀ o ∈ s[src]?, o.pool.top = 0) (hd : s[dst]? = some d)
    (ho : s[src]? = some o) :
    Population.Owned (s.set dst { d with pool := o.pool.copyMembers }) := by
  refine hs.set ?_
  rcases htop with rfl | htop
  · obtain rfl := Option.some.inj (hd.symm.trans ho)
    exact hs dst d hd
  · exact (hs dst d hd).of_top_eq_zero (htop o ho)

theorem Population.Owned.step (hs : s.Owned) (ha : CopiesNothing s a) (h : s.step a = some s') :
    s'.Owned := by
  cases a with
  | create =>
    obtain rfl := Option.some.inj h
    exact hs.concat (.createAt N s.length)
  | acquire k =>
    obtain ⟨o, ho, rfl⟩ := Option.map_eq_some_iff.mp h
    exact hs.set (hs k o ho).acquire
  | release k p =>
    obtain ⟨o, ho, hrelease⟩ := Option.bind_eq_some_iff.mp h
    split_ifs at hrelease with hp
    obtain rfl := Option.some.inj hrelease
    exact hs.set ((hs k o ho).release hp)
  | copyConstruct src | moveConstruct src =>
    obtain ⟨o, ho, rfl⟩ := Option.map_eq_some_iff.mp h
    exact hs.construct ha ho
  | copyAssign dst src | moveAssign dst src =>
    obtain ⟨d, hd, hassign⟩ := Option.bind_eq_some_iff.mp h
    obtain ⟨o, ho, rfl⟩ := Option.map_eq_some_iff.mp hassign
    exact hs.assign ha hd ho

theorem owned_isInvariant : ((pools N).restrict CopiesNothing).IsInvariant Population.Owned where
  init _ _ h := nomatch h
  step hs h := by
    obtain ⟨ha, hstep⟩ := (TransitionSystem.restrict_step_iff _).mp h
    exact hs.step ha hstep

/-- A pool that has taken over the free pointers of another pool does not own them. -/
theorem top_eq_zero_of_ownsFree (hs : s.Owned) (h : OwnsFree s') {src : ℕ}
    (ho : s[src]? = some o) {d : Owner N} (hd : s'[k]? = some d)
    (hpool : d.pool = o.pool.copyMembers) (hne : k ≠ src) : o.pool.top = 0 := by
  by_contra htop
  have hfree : o.pool.freeStack ≠ [] := fun hnil => htop (by rw [← length_freeStack, hnil]; rfl)
  obtain ⟨p, hp⟩ := List.exists_mem_of_ne_nil _ hfree
  have hsrc : Own N src p := (hs src o ho).own (List.mem_append_left _ hp)
  have hcopy : Own N k p := (h k d hd).1 p (by rw [hpool]; exact hp)
  exact hne (hcopy.eq hsrc)

/-- Copying free pointers to another pool gives up the ownership. -/
theorem copiesNothing_of_ownsFree (hs : s.Owned) (h : s.step a = some s') (hs' : OwnsFree s') :
    CopiesNothing s a := by
  cases a with
  | create | acquire | release => trivial
  | copyConstruct src | moveConstruct src =>
    obtain ⟨o, ho, rfl⟩ := Option.map_eq_some_iff.mp h
    intro o' ho'
    obtain rfl := Option.some.inj (ho.symm.trans ho')
    have hlt : src < s.length := (List.getElem?_eq_some_iff.mp ho).1
    exact top_eq_zero_of_ownsFree hs hs' ho List.getElem?_concat_length rfl (Nat.ne_of_gt hlt)
  | copyAssign dst src | moveAssign dst src =>
    obtain ⟨d, hd, hassign⟩ := Option.bind_eq_some_iff.mp h
    obtain ⟨o, ho, rfl⟩ := Option.map_eq_some_iff.mp hassign
    by_cases hne : dst = src
    · exact .inl hne
    · refine .inr fun o' ho' => ?_
      obtain rfl := Option.some.inj (ho.symm.trans ho')
      have hlt : dst < s.length := (List.getElem?_eq_some_iff.mp hd).1
      exact top_eq_zero_of_ownsFree hs hs' ho (List.getElem?_set_self hlt) rfl hne

/-- **Which copies keep the pools apart.** In every run in which pools are copied or moved from only
while they have no free objects, or are assigned to themselves, every free pointer points into the
slots of its own pool, and no object is handed out that is held or can be acquired from another
pool. The first other copy or move breaks that. -/
theorem pools_own (hs : ((pools N).restrict CopiesNothing).Reachable s) :
    OwnsFree s ∧ ∀ a s', s.step a = some s' → (OwnsFree s' ↔ CopiesNothing s a) := by
  have howned := owned_isInvariant.of_reachable hs
  exact ⟨howned.ownsFree, fun a s' h =>
    ⟨copiesNothing_of_ownsFree howned h, fun ha => (howned.step ha h).ownsFree⟩⟩

/-- A pool of one object is copied while the object is held. -/
theorem pools_own_copiedWhileHeld : ∃ s : Population 1, s.length = 2 ∧ OwnsFree s := by
  obtain ⟨s, hs, hlen⟩ := TransitionSystem.exists_reachable
    (M := (pools 1).restrict CopiesNothing) (p := fun s => s.length = 2)
    [.create, .acquire 0, .copyConstruct 0, .release 0 (some 0)] (by decide)
  exact ⟨s, hlen, (pools_own hs).1⟩

/-- The copy of a new pool hands out an object of the first pool. -/
theorem not_ownsFree_copy : ¬ ∀ (N : ℕ) (s : Population N), (pools N).Reachable s → OwnsFree s := by
  intro h
  obtain ⟨s, hs, o, ho, hfree⟩ := TransitionSystem.exists_reachable (M := pools 1)
    (p := fun s => ∃ o ∈ s[1]?, o.pool.freeStack = [some 0]) [.create, .copyConstruct 0] (by decide)
  have hmem : some 0 ∈ o.pool.freeStack := hfree ▸ List.mem_singleton_self _
  obtain ⟨i, -, hi⟩ := (h 1 s hs 1 o ho).1 (some 0) hmem
  exact absurd (Option.some.inj hi) (by omega)

end ObjectPool

end SystemsStack.Memory
