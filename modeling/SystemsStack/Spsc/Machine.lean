import SystemsStack.Core.Atomic
import SystemsStack.Core.Linearizability
import SystemsStack.Core.RingIndex
import SystemsStack.Core.TransitionSystem

/-!
# The single-producer single-consumer queue as a step machine

`ll::SpscQueue` is a ring of `Capacity` slots, a power of two, with an index `head_` that only the
consumer stores and an index `tail_` that only the producer stores. This file embeds
`try_push` and `try_pop` as machines whose steps are the atomic accesses of the source: the load
of the thread's own index, the load of the other thread's index, the access to the slot, and the
store of the own index. The two threads interleave in any way. The load of the other thread's
index may be stale (`Core.Atomic.load`); the load of the own index is not.

An action names the thread that moves and, for a load of the other thread's index, the store
that the load reads from. The calls of each thread are arbitrary: an idle thread may start any
call. An access to a slot outside the array is not a step of the machine;
`SystemsStack.Spsc.slotExclusivity` shows that no reachable state asks for one.

The index arithmetic is over `ℕ`. The source computes in `std::size_t`; as the capacity divides
`2 ^ 64`, the masked sum is the same (`SystemsStack.Spsc.Capacity.mask_sizeT`).

Source: `include/ll/spsc_queue.hpp`.

## Main definitions

* `SystemsStack.Spsc.Capacity`, `SystemsStack.Spsc.SlotType`, `SystemsStack.Spsc.Overload`.
* `SystemsStack.Spsc.State`, `SystemsStack.Spsc.tryPushStep`, `SystemsStack.Spsc.tryPopStep`.
* `SystemsStack.Spsc.queue`: the transition system.
* `SystemsStack.Spsc.Step`: its steps, one constructor for each atomic access.
* `SystemsStack.Spsc.State.accepted`, `SystemsStack.Spsc.State.returned`,
  `SystemsStack.Spsc.State.held`.

## Main results

* `SystemsStack.Spsc.Step.of_step`: every step of the machine is one of the atomic accesses.
-/

namespace SystemsStack.Spsc

open Core

/-! ### Template parameters -/

/-- The template parameter `Capacity` with its `requires` clause.

Source: `include/ll/spsc_queue.hpp`, lines 20–21. -/
structure Capacity where
  val : ℕ
  two_le : 2 ≤ val
  and_pred : val &&& (val - 1) = 0

namespace Capacity

variable (C : Capacity)

/-- `mask = Capacity - 1`. -/
def mask : ℕ := C.val - 1

theorem pos : 0 < C.val := Nat.lt_of_lt_of_le Nat.two_pos C.two_le

theorem and_mask (i : ℕ) : i &&& C.mask = i % C.val :=
  and_pred_eq_mod C.pos.ne' C.and_pred i

/-- The capacities are the powers `2 ^ k` with `1 ≤ k`. -/
theorem exists_two_pow : ∃ k, 1 ≤ k ∧ C.val = 2 ^ k := by
  obtain ⟨k, hk⟩ := (Nat.and_sub_one_eq_zero_iff_isPowerOfTwo C.pos.ne').mp C.and_pred
  refine ⟨k, Nat.one_le_iff_ne_zero.mpr fun h0 => ?_, hk⟩
  have := C.two_le
  rw [hk, h0] at this
  exact absurd this (by decide)

/-- Every power `2 ^ k` with `1 ≤ k` is a capacity. -/
def twoPow (k : ℕ) (hk : 1 ≤ k) : Capacity where
  val := 2 ^ k
  two_le := by simpa using Nat.pow_le_pow_right Nat.two_pos hk
  and_pred := by rw [Nat.and_two_pow_sub_one_eq_mod, Nat.mod_self]

/-- Masking a sum that has wrapped around in `std::size_t` gives the same index. -/
theorem mask_sizeT (hC : C.val ≤ 2 ^ 64) (i : ℕ) : (i % 2 ^ 64) &&& C.mask = i &&& C.mask := by
  obtain ⟨k, -, hk⟩ := C.exists_two_pow
  rw [C.and_mask, C.and_mask]
  rw [hk] at hC ⊢
  exact Nat.mod_mod_of_dvd i (Nat.pow_dvd_pow 2 ((Nat.pow_le_pow_iff_right (by decide)).mp hC))

end Capacity

/-- What the queue uses of its element type: the value `T{}` of a fresh slot, and the value that
moving out of an object leaves in it. -/
class SlotType (T : Type*) where
  fresh : T
  movedFrom : T → T

/-- The two overloads `try_push(const T&)` and `try_push(T&&)`. -/
inductive Overload where
  | copy
  | move
  deriving DecidableEq, Repr

/-- What the assignment `slots_[t] = item` of the overload leaves in the caller's argument. -/
def Overload.leaves {T : Type*} [SlotType T] : Overload → T → T
  | copy, item => item
  | move, item => SlotType.movedFrom item

/-! ### States -/

/-- Where the producer is in `try_push`; `call` numbers the call. The locals `t` and `next` are
those of the source. -/
inductive ProducerPc (T : Type*) where
  | idle
  | loadTail (call : ℕ) (o : Overload) (item : T)
  | loadHead (call : ℕ) (o : Overload) (item : T) (t next : ℕ)
  | writeSlot (call : ℕ) (o : Overload) (item : T) (t next : ℕ)
  | storeTail (call : ℕ) (o : Overload) (item : T) (t next : ℕ)
  deriving DecidableEq, Repr

/-- Where the consumer is in `try_pop`; `call` numbers the call. The locals `h` and `out` are
those of the source. -/
inductive ConsumerPc (T : Type*) where
  | idle
  | loadHead (call : ℕ)
  | loadTail (call : ℕ) (h : ℕ)
  | readSlot (call : ℕ) (h : ℕ)
  | storeHead (call : ℕ) (h : ℕ) (out : T)
  deriving DecidableEq, Repr

/-- The queue, its two threads, and what has happened so far. -/
structure State (T : Type*) where
  /-- The index `head_`, stored by the consumer and read by the producer. -/
  head : Atomic ℕ
  /-- The index `tail_`, stored by the producer and read by the consumer. -/
  tail : Atomic ℕ
  /-- The array `slots_`. -/
  slots : List T
  producer : ProducerPc T
  consumer : ConsumerPc T
  /-- The caller's argument of the last `try_push`. -/
  argument : Option T
  /-- The number of calls made so far, which is the number of the next call. -/
  calls : ℕ
  /-- The invocations and responses so far. -/
  history : List (Event ℕ (FifoOp T) (FifoAnswer T))
  /-- The calls that have loaded the other thread's index, each with the number of elements the
  queue held at that instant. -/
  loads : List (ℕ × ℕ)
  deriving DecidableEq, Repr

namespace State

variable {T : Type*} (s : State T)

/-- The number of stores to `tail_`. -/
def pushes : ℕ := s.tail.stores.length

/-- The number of stores to `head_`. -/
def pops : ℕ := s.head.stores.length

/-- The number of elements pushed and not yet popped. -/
def held : ℕ := s.pushes - s.pops

/-- The value of a successful `try_push` that has responded. -/
def acceptedValue : Event ℕ (FifoOp T) (FifoAnswer T) → Option T
  | .respond _ (.push v) (.pushed true) => some v
  | _ => none

/-- The value returned by a successful `try_pop`. -/
def returnedValue : Event ℕ (FifoOp T) (FifoAnswer T) → Option T
  | .respond _ _ (.popped out) => out
  | _ => none

/-- The values given to the successful `try_push` calls, in order. -/
def accepted : List T := s.history.filterMap acceptedValue

/-- The values returned by the successful `try_pop` calls, in order. -/
def returned : List T := s.history.filterMap returnedValue

end State

/-- Who moves, and what the environment chooses. -/
inductive Action (T : Type*) where
  /-- The idle producer calls an overload of `try_push`. -/
  | tryPush (o : Overload) (item : T)
  /-- The idle consumer calls `try_pop`. -/
  | tryPop
  /-- The next step of the producer; a load of `head_` reads the store at `place`. -/
  | producer (place : ℕ)
  /-- The next step of the consumer; a load of `tail_` reads the store at `place`. -/
  | consumer (place : ℕ)
  deriving DecidableEq, Repr

/-! ### Steps -/

variable {T : Type*} [SlotType T] (C : Capacity)

/-- The queue after its default construction, with both threads idle. -/
def init : State T where
  head := { initial := 0 }
  tail := { initial := 0 }
  slots := List.replicate C.val SlotType.fresh
  producer := .idle
  consumer := .idle
  argument := none
  calls := 0
  history := []
  loads := []

/-- The next step of the producer inside `try_push`, which is the same in both overloads but for
what the assignment leaves in the argument.

Source: `include/ll/spsc_queue.hpp`, lines 32–54. -/
def tryPushStep (s : State T) (place : ℕ) : Option (State T) :=
  match s.producer with
  | .idle => none
  | .loadTail c o item =>
      let t := s.tail.current
      let next := (t + 1) &&& C.mask
      some { s with producer := .loadHead c o item t next }
  | .loadHead c o item t next =>
      (s.head.load place).map fun (h, head) =>
        let s := { s with head := head, loads := s.loads ++ [(c, s.held)] }
        if next = h then
          { s with
            producer := .idle
            history := s.history ++ [.respond c (.push item) (.pushed false)] }
        else
          { s with producer := .writeSlot c o item t next }
  | .writeSlot c o item t next =>
      if t < s.slots.length then
        some { s with
          slots := s.slots.set t item
          argument := some (o.leaves item)
          producer := .storeTail c o item t next }
      else
        none
  | .storeTail c _ item _ next =>
      some { s with
        tail := s.tail.store next
        producer := .idle
        history := s.history ++ [.respond c (.push item) (.pushed true)] }

/-- The next step of the consumer inside `try_pop`.

Source: `include/ll/spsc_queue.hpp`, lines 57–66. -/
def tryPopStep (s : State T) (place : ℕ) : Option (State T) :=
  match s.consumer with
  | .idle => none
  | .loadHead c => some { s with consumer := .loadTail c s.head.current }
  | .loadTail c h =>
      (s.tail.load place).map fun (t, tail) =>
        let s := { s with tail := tail, loads := s.loads ++ [(c, s.held)] }
        if h = t then
          { s with
            consumer := .idle
            history := s.history ++ [.respond c .pop (.popped none)] }
        else
          { s with consumer := .readSlot c h }
  | .readSlot c h =>
      s.slots[h]?.map fun out =>
        { s with
          slots := s.slots.set h (SlotType.movedFrom out)
          consumer := .storeHead c h out }
  | .storeHead c h out =>
      some { s with
        head := s.head.store ((h + 1) &&& C.mask)
        consumer := .idle
        history := s.history ++ [.respond c .pop (.popped (some out))] }

/-- One step of the queue and its two threads. -/
def step (s : State T) : Action T → Option (State T)
  | .tryPush o item =>
      match s.producer with
      | .idle => some { s with
          producer := .loadTail s.calls o item
          argument := some item
          calls := s.calls + 1
          history := s.history ++ [.invoke s.calls (.push item)] }
      | _ => none
  | .tryPop =>
      match s.consumer with
      | .idle => some { s with
          consumer := .loadHead s.calls
          calls := s.calls + 1
          history := s.history ++ [.invoke s.calls .pop] }
      | _ => none
  | .producer place => tryPushStep C s place
  | .consumer place => tryPopStep C s place

/-- The queue shared by one producer and one consumer thread, with stale loads. -/
def queue (T : Type*) [SlotType T] (C : Capacity) : TransitionSystem (State T) (Action T) where
  init := init C
  step := step C

/-! ### The atomic accesses -/

/-- The steps of the queue, one constructor for each atomic access and each of its outcomes. -/
inductive Step (s : State T) : Action T → State T → Prop
  | callPush {o item} (pc : s.producer = .idle) :
      Step s (.tryPush o item) { s with
        producer := .loadTail s.calls o item
        argument := some item
        calls := s.calls + 1
        history := s.history ++ [.invoke s.calls (.push item)] }
  | callPop (pc : s.consumer = .idle) :
      Step s .tryPop { s with
        consumer := .loadHead s.calls
        calls := s.calls + 1
        history := s.history ++ [.invoke s.calls .pop] }
  | loadTail {place c o item} (pc : s.producer = .loadTail c o item) :
      Step s (.producer place) { s with
        producer := .loadHead c o item s.tail.current ((s.tail.current + 1) % C.val) }
  | full {place c o item t next head} (pc : s.producer = .loadHead c o item t next)
      (load : s.head.load place = some (next, head)) :
      Step s (.producer place) { s with
        head := head
        loads := s.loads ++ [(c, s.held)]
        producer := .idle
        history := s.history ++ [.respond c (.push item) (.pushed false)] }
  | room {place c o item t next h head} (pc : s.producer = .loadHead c o item t next)
      (load : s.head.load place = some (h, head)) (ne : next ≠ h) :
      Step s (.producer place) { s with
        head := head
        loads := s.loads ++ [(c, s.held)]
        producer := .writeSlot c o item t next }
  | writeSlot {place c o item t next} (pc : s.producer = .writeSlot c o item t next)
      (lt : t < s.slots.length) :
      Step s (.producer place) { s with
        slots := s.slots.set t item
        argument := some (o.leaves item)
        producer := .storeTail c o item t next }
  | storeTail {place c o item t next} (pc : s.producer = .storeTail c o item t next) :
      Step s (.producer place) { s with
        tail := s.tail.store next
        producer := .idle
        history := s.history ++ [.respond c (.push item) (.pushed true)] }
  | loadHead {place c} (pc : s.consumer = .loadHead c) :
      Step s (.consumer place) { s with consumer := .loadTail c s.head.current }
  | empty {place c h tail} (pc : s.consumer = .loadTail c h)
      (load : s.tail.load place = some (h, tail)) :
      Step s (.consumer place) { s with
        tail := tail
        loads := s.loads ++ [(c, s.held)]
        consumer := .idle
        history := s.history ++ [.respond c .pop (.popped none)] }
  | nonempty {place c h t tail} (pc : s.consumer = .loadTail c h)
      (load : s.tail.load place = some (t, tail)) (ne : h ≠ t) :
      Step s (.consumer place) { s with
        tail := tail
        loads := s.loads ++ [(c, s.held)]
        consumer := .readSlot c h }
  | readSlot {place c h out} (pc : s.consumer = .readSlot c h) (slot : s.slots[h]? = some out) :
      Step s (.consumer place) { s with
        slots := s.slots.set h (SlotType.movedFrom out)
        consumer := .storeHead c h out }
  | storeHead {place c h out} (pc : s.consumer = .storeHead c h out) :
      Step s (.consumer place) { s with
        head := s.head.store ((h + 1) % C.val)
        consumer := .idle
        history := s.history ++ [.respond c .pop (.popped (some out))] }

variable {C}

theorem Step.of_tryPushStep {s s' : State T} {place : ℕ} (h : tryPushStep C s place = some s') :
    Step C s (.producer place) s' := by
  cases pc : s.producer with
  | idle => simp [tryPushStep, pc] at h
  | loadTail c o item =>
    simp only [tryPushStep, pc, C.and_mask, Option.some.injEq] at h
    exact h ▸ .loadTail pc
  | loadHead c o item t next =>
    simp only [tryPushStep, pc, Option.map_eq_some_iff] at h
    obtain ⟨⟨v, head⟩, hload, rfl⟩ := h
    by_cases hv : next = v
    · subst hv
      rw [if_pos rfl]
      exact .full pc hload
    · rw [if_neg hv]
      exact .room pc hload hv
  | writeSlot c o item t next =>
    simp only [tryPushStep, pc] at h
    split_ifs at h with ht
    exact Option.some.inj h ▸ .writeSlot pc ht
  | storeTail c o item t next =>
    simp only [tryPushStep, pc, Option.some.injEq] at h
    exact h ▸ .storeTail pc

theorem Step.of_tryPopStep {s s' : State T} {place : ℕ} (h : tryPopStep C s place = some s') :
    Step C s (.consumer place) s' := by
  cases pc : s.consumer with
  | idle => simp [tryPopStep, pc] at h
  | loadHead c =>
    simp only [tryPopStep, pc, Option.some.injEq] at h
    exact h ▸ .loadHead pc
  | loadTail c i =>
    simp only [tryPopStep, pc, Option.map_eq_some_iff] at h
    obtain ⟨⟨v, tail⟩, hload, rfl⟩ := h
    by_cases hv : i = v
    · subst hv
      rw [if_pos rfl]
      exact .empty pc hload
    · rw [if_neg hv]
      exact .nonempty pc hload hv
  | readSlot c i =>
    simp only [tryPopStep, pc, Option.map_eq_some_iff] at h
    obtain ⟨out, hslot, rfl⟩ := h
    exact .readSlot pc hslot
  | storeHead c i out =>
    simp only [tryPopStep, pc, C.and_mask, Option.some.injEq] at h
    exact h ▸ .storeHead pc

/-- Every step of the machine is one of the atomic accesses. -/
theorem Step.of_step {s s' : State T} {a : Action T} (h : (queue T C).step s a = some s') :
    Step C s a s' := by
  cases a with
  | tryPush o item =>
    cases pc : s.producer <;> simp only [queue, step, pc, reduceCtorEq, Option.some.injEq] at h
    exact h ▸ .callPush pc
  | tryPop =>
    cases pc : s.consumer <;> simp only [queue, step, pc, reduceCtorEq, Option.some.injEq] at h
    exact h ▸ .callPop pc
  | producer place => exact .of_tryPushStep h
  | consumer place => exact .of_tryPopStep h

end SystemsStack.Spsc
