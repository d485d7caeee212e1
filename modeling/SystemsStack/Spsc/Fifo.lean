import SystemsStack.Spsc.Invariant

/-!
# First-in first-out order and exclusive slots

What the invariant of `SystemsStack.Spsc.Invariant` says about the queue as its two threads see
it, in every interleaving and for every choice of stale loads:

* the values that `try_pop` has returned are a prefix of those that `try_push` has accepted, and
  the rest of them is in the slots from `head_` to `tail_`, in ring order. While a `try_pop` is
  between the move out of its slot and its store of `head_`, the first of these slots holds what
  the move has left in it, and the value is in the local `out`
  (`SystemsStack.Spsc.returned_prefix_accepted`);
* the slot that the producer writes is never the slot that the consumer moves from, nor a slot
  that holds a published value (`SystemsStack.Spsc.slotExclusivity`). This is what makes the
  accesses to the slots free of data races.

## Main definitions

* `SystemsStack.Spsc.State.occupiedSlots`, `SystemsStack.Spsc.State.inRing`.

## Main results

* `SystemsStack.Spsc.returned_prefix_accepted`.
* `SystemsStack.Spsc.slotExclusivity`.

## References

* `include/ll/spsc_queue.hpp`, lines 31–66; `docs/blueprint/04-concurrency.md`, lines 19–44.
-/

namespace SystemsStack.Spsc

open Core

variable {T : Type*} {C : Capacity} {s : State T}

/-! ### The slots from `head_` to `tail_` -/

/-- The slots from `head_` to `tail_`, in ring order. -/
def State.occupiedSlots (C : Capacity) (s : State T) : List ℕ :=
  ringSlots C.val s.head.current s.tail.current

/-- What the slots from `head_` to `tail_` hold, in ring order. -/
def State.inRing (C : Capacity) (s : State T) : List T :=
  (s.occupiedSlots C).filterMap (s.slots[·]?)

/-- The slot that a `try_push` writes, from its successful full-check to its store of `tail_`. -/
def ProducerPc.slot? : ProducerPc T → Option ℕ
  | .writeSlot _ _ _ t _ | .storeTail _ _ _ t _ => some t
  | _ => none

/-- The slot that a `try_pop` moves from, from its successful empty-check to its store of
`head_`. -/
def ConsumerPc.slot? : ConsumerPc T → Option ℕ
  | .readSlot _ h | .storeHead _ h _ => some h
  | _ => none

namespace Indices

theorem occupiedSlots_eq (hs : Indices C s) :
    s.occupiedSlots C = (List.range s.held).map fun j => (s.pops + j) % C.val := by
  rw [State.occupiedSlots, hs.head_eq, hs.tail_eq,
    ringSlots_mod hs.pops_le_pushes hs.pushes_lt_pops, State.held]

theorem mem_occupiedSlots (hs : Indices C s) {t : ℕ} :
    t ∈ s.occupiedSlots C ↔ ∃ i, s.pops ≤ i ∧ i < s.pushes ∧ i % C.val = t := by
  rw [State.occupiedSlots, hs.head_eq, hs.tail_eq,
    mem_ringSlots_mod hs.pops_le_pushes hs.pushes_lt_pops]

/-- The producer writes the slot of the next push. -/
theorem producer_slot (hs : Indices C s) {t : ℕ} (ht : s.producer.slot? = some t) :
    t = s.pushes % C.val := by
  have hproducer := hs.producer
  cases pc : s.producer <;> simp only [ProducerInv, ProducerPc.slot?, pc, reduceCtorEq,
    Option.some.injEq] at hproducer ht
  all_goals exact ht ▸ hproducer.1

/-- The consumer moves from the slot of the next pop, which has been pushed. -/
theorem consumer_slot (hs : Indices C s) {h : ℕ} (hh : s.consumer.slot? = some h) :
    h = s.pops % C.val ∧ s.pops < s.pushes := by
  have hconsumer := hs.consumer
  have hseen := hs.tail.seen_le
  cases pc : s.consumer <;> simp only [ConsumerInv, ConsumerPc.slot?, pc, reduceCtorEq,
    Option.some.injEq] at hconsumer hh
  all_goals exact ⟨hh ▸ hconsumer.1, Nat.lt_of_lt_of_le hconsumer.2 hseen⟩

end Indices

/-- What the slots from `head_` to `tail_` hold is what has been accepted and not returned, but
for the first slot once it has been moved from. -/
theorem inRing_eq [SlotType T] (hs : Indices C s) (hc : Contents C s) :
    s.inRing C = s.consumer.out?.toList.map SlotType.movedFrom ++ s.accepted.drop s.inSlots := by
  have hle := hs.pops_le_pushes
  -- the slots still holding their accepted value, from the position `a` on
  have hslots (a n : ℕ) (ha : s.inSlots ≤ a) (hn : a + n = s.pushes) :
      ((List.range n).map fun j => (a + j) % C.val).filterMap (s.slots[·]?) =
        s.accepted.drop a := by
    induction n generalizing a with
    | zero => simp [List.drop_eq_nil_of_le, hc.accepted_length, ← hn]
    | succ n ih =>
      have hget := hc.occupied a ha (by omega)
      have hlt : a < s.accepted.length := by rw [hc.accepted_length]; omega
      rw [List.getElem?_eq_getElem hlt] at hget
      rw [List.range_succ_eq_map, List.map_cons, List.map_map,
        List.filterMap_cons_some (by simpa using hget), List.drop_eq_getElem_cons hlt,
        ← ih (a + 1) (by omega) (by omega)]
      simp [Function.comp_def, Nat.add_comm, Nat.add_left_comm]
  rw [State.inRing, hs.occupiedSlots_eq, State.held]
  cases hout : s.consumer.out? with
  | none =>
    have hin : s.inSlots = s.pops := by rw [State.inSlots, hout]; rfl
    rw [hslots s.pops _ hin.le (by omega), hin]
    rfl
  | some v =>
    obtain ⟨hacc, hmoved⟩ := hc.out v hout
    have hin : s.inSlots = s.pops + 1 := by rw [State.inSlots, hout]; rfl
    have hlt : s.pops < s.pushes := by
      rw [← hc.accepted_length]
      exact (List.getElem?_eq_some_iff.mp hacc).1
    obtain ⟨n, hn⟩ : ∃ n, s.pushes - s.pops = n + 1 := ⟨s.pushes - s.pops - 1, by omega⟩
    rw [hn, List.range_succ_eq_map, List.map_cons, List.map_map,
      List.filterMap_cons_some (by simpa using hmoved), hin,
      ← hslots (s.pops + 1) n hin.le (by omega)]
    simp [Function.comp_def, Nat.add_assoc, Nat.add_comm]

/-! ### First-in first-out order -/

/-- **First-in first-out order.** In every reachable state the returned values are a prefix of
the accepted ones. The values not returned yet are those in the slots from `head_` to `tail_`, in
ring order, except that a `try_pop` between its move and its store of `head_` has the first of
them in its local `out`, and the slot holds what the move has left. -/
theorem returned_prefix_accepted [SlotType T] (hs : (queue T C).Reachable s) :
    s.returned <+: s.accepted ∧
      (s.consumer.out? = none → s.accepted = s.returned ++ s.inRing C) ∧
      ∀ v, s.consumer.out? = some v → ∃ rest,
        s.inRing C = SlotType.movedFrom v :: rest ∧ s.accepted = s.returned ++ v :: rest := by
  obtain ⟨hi, hc⟩ := contents_isInvariant.of_reachable hs
  have hring := inRing_eq hi hc
  refine ⟨hc.returned_eq ▸ List.take_prefix _ _, fun hout => ?_, fun v hout => ?_⟩
  · rw [hring, State.inSlots, hout, hc.returned_eq]
    exact (List.take_append_drop _ _).symm
  · have hacc := (hc.out v hout).1
    obtain ⟨hlt, hget⟩ := List.getElem?_eq_some_iff.mp hacc
    refine ⟨s.accepted.drop (s.pops + 1), ?_, ?_⟩
    · rw [hring, State.inSlots, hout]
      rfl
    · rw [hc.returned_eq, ← hget, ← List.drop_eq_getElem_cons hlt, List.take_append_drop]

/-- An owning pointer such as `std::unique_ptr` as an element type: a fresh pointer is null, and
so is one that has been moved from. -/
instance (α : Type*) : SlotType (Option α) where
  fresh := none
  movedFrom _ := none

/-- A `try_push` of `7` followed by a `try_pop` up to its move out of the slot. -/
def popInFlight : List (Action (Option ℕ)) :=
  [.tryPush .move (some 7), .producer 0, .producer 0, .producer 0, .producer 0,
    .tryPop, .consumer 0, .consumer 1, .consumer 0]

/-- A slot that has been moved from does not hold the value that is not returned yet. -/
theorem returned_append_inRing_ne_accepted :
    ¬ ∀ s, (queue (Option ℕ) (.twoPow 1 le_rfl)).Reachable s →
      s.returned <+: s.accepted ∧ s.accepted = s.returned ++ s.inRing (.twoPow 1 le_rfl) := by
  intro h
  obtain ⟨s, hs, hne⟩ := TransitionSystem.exists_reachable
    (M := queue (Option ℕ) (.twoPow 1 le_rfl))
    (p := fun s => s.accepted ≠ s.returned ++ s.inRing (.twoPow 1 le_rfl)) popInFlight (by decide)
  exact hne (h s hs).2

/-- The pop in flight holds the accepted value. -/
theorem returned_prefix_accepted_popInFlight :
    ∃ s : State (Option ℕ), (s.consumer.out? = some (some 7) ∧ s.returned = []) ∧ ∃ rest,
      s.inRing (.twoPow 1 le_rfl) = none :: rest ∧ s.accepted = s.returned ++ some 7 :: rest := by
  obtain ⟨s, hs, hout, hret⟩ := TransitionSystem.exists_reachable
    (M := queue (Option ℕ) (.twoPow 1 le_rfl))
    (p := fun s => s.consumer.out? = some (some 7) ∧ s.returned = []) popInFlight (by decide)
  exact ⟨s, ⟨hout, hret⟩, (returned_prefix_accepted hs).2.2 (some 7) hout⟩

/-! ### Exclusive slots -/

/-- **Exclusive slots.** In every reachable state both indices are slots, at most `Capacity - 1`
elements are published and not popped, and the slot the producer writes is a slot of the array
that is neither the slot the consumer moves from nor one that holds a published element. -/
theorem slotExclusivity [SlotType T] (hs : (queue T C).Reachable s) :
    s.head.current < C.val ∧ s.tail.current < C.val ∧
      (s.occupiedSlots C).length = s.held ∧ s.held ≤ C.val - 1 ∧
      (∀ h, s.consumer.slot? = some h → h < s.slots.length) ∧
      ∀ t, s.producer.slot? = some t →
        t < s.slots.length ∧ s.consumer.slot? ≠ some t ∧ t ∉ s.occupiedSlots C := by
  obtain ⟨hi, hc⟩ := contents_isInvariant.of_reachable hs
  have hmod (i : ℕ) : i % C.val < C.val := Nat.mod_lt i C.pos
  refine ⟨hi.head_eq ▸ hmod _, hi.tail_eq ▸ hmod _, ?_, hi.held_le, fun h hh => ?_,
    fun t ht => ⟨?_, fun hh => ?_, fun hocc => ?_⟩⟩
  · rw [hi.occupiedSlots_eq, List.length_map, List.length_range]
  · rw [hc.slots_length, (hi.consumer_slot hh).1]
    exact hmod _
  · rw [hc.slots_length, hi.producer_slot ht]
    exact hmod _
  · obtain ⟨heq, hlt⟩ := hi.consumer_slot hh
    rw [hi.producer_slot ht] at heq
    exact hlt.ne' (hi.slot_inj hlt.le le_rfl le_rfl hlt.le heq)
  · obtain ⟨i, hpops, hlt, heq⟩ := hi.mem_occupiedSlots.mp hocc
    rw [hi.producer_slot ht] at heq
    exact hlt.ne (hi.slot_inj hpops hlt.le hi.pops_le_pushes le_rfl heq)

/-- Both threads past their checks: the producer writes slot `1` while the consumer moves from
slot `0`. -/
theorem slotExclusivity_bothPastChecks :
    ∃ s : State (Option ℕ), s.consumer.slot? = some 0 ∧ s.producer.slot? = some 1 ∧
      1 < s.slots.length ∧ s.consumer.slot? ≠ some 1 ∧
      1 ∉ s.occupiedSlots (.twoPow 2 (by decide)) := by
  obtain ⟨s, hs, hcons, hprod⟩ := TransitionSystem.exists_reachable
    (M := queue (Option ℕ) (.twoPow 2 (by decide)))
    (p := fun s => s.consumer.slot? = some 0 ∧ s.producer.slot? = some 1)
    (popInFlight ++ [.tryPush .copy (some 8), .producer 0, .producer 0, .producer 0]) (by decide)
  exact ⟨s, hcons, hprod, (slotExclusivity hs).2.2.2.2.2 1 hprod⟩

end SystemsStack.Spsc
