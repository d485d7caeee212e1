import SystemsStack.Spsc.Fifo

/-!
# Exceptions of the element type

The operations of the queue copy and move elements, which may throw. A call of `try_push` has one
such operation, the assignment to the slot; a call of `try_pop` has two, the move out of the slot
and the move into the optional that is returned. This file embeds whole calls of the queue, with
exceptions, as functions of the queue object. An operation that throws leaves its source unchanged;
an assignment that throws leaves any value in the slot.

The assignment and the move out of the slot come before the store of the index: when they throw, the
pops that follow return what they would have returned. The move into the returned optional comes
after the store of `head_`: when it throws, the element is lost. Nothing else goes wrong
(`SystemsStack.Spsc.exceptions_keep`).

Calls without exceptions are those of the step machine that no other thread interrupts
(`SystemsStack.Spsc.State.Represents.tryPush`, `SystemsStack.Spsc.State.Represents.tryPop`).

## Main definitions

* `SystemsStack.Spsc.Ring`, with `tryPush`, `tryPop`, `contents`, `pops`.
* `SystemsStack.Spsc.Call`, `SystemsStack.Spsc.Ring.Keeps`, `SystemsStack.Spsc.Ring.Loses`.
* `SystemsStack.Spsc.callQueue`: the runs of calls as a transition system.

## Main results

* `SystemsStack.Spsc.Ring.pops_eq`: what pops return.
* `SystemsStack.Spsc.exceptions_keep`.

## References

* `include/ll/spsc_queue.hpp`, lines 31–66.
-/

namespace SystemsStack.Spsc

open Core

variable {T : Type*} {C : Capacity}

/-! ### Calls -/

/-- The queue object between two calls. -/
structure Ring (T : Type*) (C : Capacity) where
  head : ℕ
  tail : ℕ
  slots : Vector T C.val
  head_lt : head < C.val
  tail_lt : tail < C.val

/-- The copies and moves of elements in a call. -/
inductive ElementOp where
  /-- `slots_[t] = item`, the copy or move assignment. -/
  | assign
  /-- The move construction of `out` from its slot. -/
  | moveOut
  /-- The move construction of the returned optional from `out`. -/
  | intoResult
  deriving DecidableEq, Repr

/-- A call of the queue, and where an exception of the element type strikes. -/
inductive Call (T : Type*) where
  /-- A call of `try_push`. When the assignment throws, it leaves the value `torn` in the slot. -/
  | tryPush (o : Overload) (item : T) (torn : Option T)
  /-- A call of `try_pop`. -/
  | tryPop (throws : Option ElementOp)
  deriving DecidableEq

namespace Ring

variable (r : Ring T C)

theorem mask_lt (C : Capacity) (i : ℕ) : i &&& C.mask < C.val := by
  rw [C.and_mask]
  exact Nat.mod_lt i C.pos

/-- `try_push`, of either overload: the answer and what is left in the argument. -/
def tryPush [SlotType T] (o : Overload) (item : T) (torn : Option T) :
    Except ElementOp (Bool × T) × Ring T C :=
  have htail := r.tail_lt
  let t := r.tail
  let next := (t + 1) &&& C.mask
  if next = r.head then
    (.ok (false, item), r)
  else
    match torn with
    | some junk => (.error .assign, { r with slots := r.slots.set t junk })
    | none => (.ok (true, o.leaves item),
        { r with slots := r.slots.set t item, tail := next, tail_lt := mask_lt C _ })

/-- `try_pop`. -/
def tryPop [SlotType T] (throws : Option ElementOp) : Except ElementOp (Option T) × Ring T C :=
  have hhead := r.head_lt
  let h := r.head
  if h = r.tail then
    (.ok none, r)
  else if throws = some .moveOut then
    (.error .moveOut, r)
  else
    let out := r.slots[h]
    let r := { r with
      slots := r.slots.set h (SlotType.movedFrom out)
      head := (h + 1) &&& C.mask
      head_lt := mask_lt C _ }
    if throws = some .intoResult then (.error .intoResult, r) else (.ok (some out), r)

/-- What the next pops return when nothing throws. -/
def pops [SlotType T] : ℕ → Ring T C → List (Except ElementOp (Option T))
  | 0, _ => []
  | n + 1, r => (r.tryPop none).1 :: pops n (r.tryPop none).2

/-- The call exits with an exception. -/
def Throws [SlotType T] : Call T → Prop
  | .tryPush o item torn => ∃ e, (r.tryPush o item torn).1 = .error e
  | .tryPop throws => ∃ e, (r.tryPop throws).1 = .error e

/-- The queue after the call. -/
def after [SlotType T] : Call T → Ring T C
  | .tryPush o item torn => (r.tryPush o item torn).2
  | .tryPop throws => (r.tryPop throws).2

/-- If the call exits with an exception, the next pops return what they would have returned. -/
def Keeps [SlotType T] (c : Call T) : Prop :=
  r.Throws c → ∀ n, pops n (r.after c) = pops n r

/-- A `try_pop` of a queue that is not empty whose move into the returned optional throws. -/
def Loses : Call T → Prop
  | .tryPush .. => False
  | .tryPop throws => throws = some .intoResult ∧ r.head ≠ r.tail

instance : DecidablePred r.Loses
  | .tryPush .. => inferInstanceAs (Decidable False)
  | .tryPop throws =>
      inferInstanceAs (Decidable (throws = some ElementOp.intoResult ∧ r.head ≠ r.tail))

/-! ### What the queue holds -/

/-- The elements in the slots from `head_` to `tail_`, in ring order. -/
def contents : List T := (ringSlots C.val r.head r.tail).filterMap (r.slots.toList[·]?)

variable {r} {item out : T}

/-- Writing a slot that is not between the indices. -/
theorem filterMap_set {l : List ℕ} {slots : Vector T C.val} {i : ℕ} (hi : i < C.val) (h : i ∉ l)
    (v : T) : l.filterMap ((slots.set i v).toList[·]?) = l.filterMap (slots.toList[·]?) := by
  refine List.filterMap_congr fun j hj => ?_
  rw [Vector.toList_set, List.getElem?_set_ne]
  exact fun hij => h (hij ▸ hj)

theorem contents_eq_nil (h : r.head = r.tail) : r.contents = [] := by
  rw [contents, (ringSlots_eq_nil_iff r.head_lt r.tail_lt).mpr h, List.filterMap_nil]

variable [SlotType T]

/-- A `try_push` of a full queue does nothing. -/
theorem tryPush_full (h : (r.tail + 1) &&& C.mask = r.head) (o : Overload) (item : T)
    (torn : Option T) : r.tryPush o item torn = (.ok (false, item), r) :=
  if_pos h

/-- A `try_push` of a queue with room: an assignment that throws does not touch what the queue
holds. -/
theorem exists_tryPush (h : (r.tail + 1) &&& C.mask ≠ r.head) (o : Overload) (item : T) :
    (∃ r' : Ring T C, r.tryPush o item none = (.ok (true, o.leaves item), r') ∧
      r'.contents = r.contents ++ [item]) ∧
    ∀ junk, ∃ r' : Ring T C, r.tryPush o item (some junk) = (.error .assign, r') ∧
      r'.contents = r.contents := by
  have htail := r.tail_lt
  have houtside : r.tail ∉ ringSlots C.val r.head r.tail :=
    tail_notMem_ringSlots r.head_lt htail
  refine ⟨⟨_, if_neg h, ?_⟩, fun junk => ⟨_, if_neg h, filterMap_set htail houtside junk⟩⟩
  rw [C.and_mask] at h
  have hslot : (r.slots.set r.tail item).toList[r.tail]? = some item := by
    rw [Vector.toList_set, List.getElem?_set_self (by rwa [Vector.length_toList])]
  rw [contents]
  dsimp only
  rw [C.and_mask, ringSlots_eq_concat r.head_lt htail h, List.filterMap_append,
    filterMap_set htail houtside, List.filterMap_cons_some hslot]
  rfl

/-- A `try_pop` of an empty queue does nothing. -/
theorem tryPop_empty (h : r.head = r.tail) (throws : Option ElementOp) :
    r.tryPop throws = (.ok none, r) :=
  if_pos h

/-- A `try_pop` of a queue that is not empty: the first element has left the queue when its move
into the result throws, not yet when the move out of its slot does. -/
theorem exists_tryPop (h : r.head ≠ r.tail) :
    ∃ (out : T) (r' : Ring T C), r.contents = out :: r'.contents ∧
      ∀ throws, r.tryPop throws =
        if throws = some .moveOut then (.error .moveOut, r)
        else if throws = some .intoResult then (.error .intoResult, r')
        else (.ok (some out), r') := by
  have hhead := r.head_lt
  obtain ⟨hslots, houtside⟩ := ringSlots_eq_cons r.head_lt r.tail_lt h
  refine ⟨r.slots[r.head], { r with
    slots := r.slots.set r.head (SlotType.movedFrom r.slots[r.head])
    head := (r.head + 1) &&& C.mask
    head_lt := mask_lt C _ }, ?_, fun throws => if_neg h⟩
  have hslot : r.slots.toList[r.head]? = some r.slots[r.head] := by
    rw [List.getElem?_eq_getElem (by rwa [Vector.length_toList]), Vector.getElem_toList]
  rw [contents, contents]
  dsimp only
  rw [hslots, List.filterMap_cons_some hslot, C.and_mask, filterMap_set hhead houtside]

/-- **What pops return.** The elements of the queue in their order, and then nothing. -/
theorem pops_eq (n : ℕ) (r : Ring T C) :
    r.pops n = (List.range n).map fun i => .ok r.contents[i]? := by
  induction n generalizing r with
  | zero => rfl
  | succ n ih =>
    rw [pops, List.range_succ_eq_map, List.map_cons, List.map_map, ih]
    by_cases h : r.head = r.tail
    · simp [tryPop_empty h, contents_eq_nil h, Function.comp_def]
    · obtain ⟨out, r', hcontents, hpop⟩ := exists_tryPop h
      simp [hpop, hcontents, Function.comp_def]

theorem contents_eq_of_pops {r' : Ring T C} (h : ∀ n, r'.pops n = r.pops n) :
    r'.contents = r.contents := by
  refine List.ext_getElem? fun i => ?_
  have hlast := congrArg (·[i]?) (h (i + 1))
  simp only [pops_eq] at hlast
  simpa using hlast

/-! ### Which calls keep what the queue holds -/

/-- A call that throws either keeps the contents, or loses the first element. -/
theorem contents_after {c : Call T} (hthrows : r.Throws c) :
    (¬r.Loses c ∧ (r.after c).contents = r.contents) ∨
      (r.Loses c ∧ ∃ out, r.contents = out :: (r.after c).contents) := by
  cases c with
  | tryPush o item torn =>
    obtain ⟨e, he⟩ := hthrows
    refine .inl ⟨id, ?_⟩
    by_cases hfull : (r.tail + 1) &&& C.mask = r.head
    · rw [tryPush_full hfull] at he
      exact nomatch he
    · obtain ⟨⟨_, hok, -⟩, htorn⟩ := exists_tryPush hfull o item
      cases torn with
      | none =>
        rw [hok] at he
        exact nomatch he
      | some junk =>
        obtain ⟨r', hpush, hcontents⟩ := htorn junk
        rw [after, hpush]
        exact hcontents
  | tryPop throws =>
    obtain ⟨e, he⟩ := hthrows
    by_cases hempty : r.head = r.tail
    · rw [tryPop_empty hempty] at he
      exact nomatch he
    · obtain ⟨out, r', hcontents, hpop⟩ := exists_tryPop hempty
      rw [hpop] at he
      rw [after, hpop]
      split_ifs at he ⊢ with hout hresult
      · exact .inl ⟨fun h => by simp [h.1] at hout, rfl⟩
      · exact .inr ⟨⟨hresult, hempty⟩, out, hcontents⟩

/-- The pops that follow an exception return what they would have returned, unless the call has
lost an element. -/
theorem keeps_iff (c : Call T) : r.Keeps c ↔ ¬r.Loses c := by
  constructor
  · intro hkeeps hloses
    have hthrows : r.Throws c := by
      cases c with
      | tryPush o item torn => exact hloses.elim
      | tryPop throws =>
        obtain ⟨rfl, hne⟩ := hloses
        obtain ⟨out, r', -, hpop⟩ := exists_tryPop hne
        exact ⟨.intoResult, by rw [hpop]; rfl⟩
    rcases contents_after hthrows with ⟨hnot, -⟩ | ⟨-, out, hcontents⟩
    · exact hnot hloses
    · rw [← contents_eq_of_pops (hkeeps hthrows)] at hcontents
      exact absurd (congrArg List.length hcontents) (by simp)
  · intro hnot hthrows n
    rcases contents_after hthrows with ⟨-, hcontents⟩ | ⟨hloses, -⟩
    · rw [pops_eq, pops_eq, hcontents]
    · exact absurd hloses hnot

end Ring

/-! ### Calls of the step machine -/

/-- Both threads are idle, and the queue object is that of the state. -/
structure State.Represents (s : State T) (r : Ring T C) : Prop where
  producer : s.producer = .idle
  consumer : s.consumer = .idle
  head : s.head.current = r.head
  tail : s.tail.current = r.tail
  slots : s.slots = r.slots.toList

namespace State.Represents

variable [SlotType T] {s : State T} {r : Ring T C}

/-- A `try_push` that nothing interrupts and in which nothing throws. -/
theorem tryPush (hs : Indices C s) (hr : s.Represents r) (o : Overload) (item : T) :
    ∃ as s' ok left, (queue T C).run s as = some s' ∧
      (r.tryPush o item none).1 = .ok (ok, left) ∧ s'.Represents (r.tryPush o item none).2 ∧
      s'.argument = some left ∧
      s'.history = s.history ++
        [.invoke s.calls (.push item), .respond s.calls (.push item) (.pushed ok)] := by
  have hload : s.head.load s.pops = some (r.head, { s.head with seen := s.pops }) :=
    hr.head ▸ Atomic.load_last hs.head.seen_le
  have hslot : r.tail < s.slots.length := by
    rw [hr.slots, Vector.length_toList]
    exact r.tail_lt
  by_cases hfull : (r.tail + 1) &&& C.mask = r.head
  · rw [Ring.tryPush_full hfull]
    refine ⟨.tryPush o item :: List.replicate 2 (.producer s.pops),
      { s with
        head := { s.head with seen := s.pops }
        producer := .idle
        argument := some item
        calls := s.calls + 1
        history := s.history ++ [.invoke s.calls (.push item)] ++
          [.respond s.calls (.push item) (.pushed false)]
        loads := s.loads ++ [(s.calls, s.held)] },
      false, item, ?_, rfl, ⟨rfl, hr.consumer, hr.head, hr.tail, hr.slots⟩, rfl,
      List.append_assoc _ _ _⟩
    simp only [TransitionSystem.run, queue, step, List.reduceReplicate, tryPushStep, hr.producer,
      hr.tail, hload, hfull, Option.map_some, Option.bind_some, ↓reduceIte]
    rfl
  · have hpush : r.tryPush o item none = (.ok (true, o.leaves item),
        { r with
          slots := r.slots.set r.tail item r.tail_lt
          tail := (r.tail + 1) &&& C.mask
          tail_lt := Ring.mask_lt C _ }) := if_neg hfull
    rw [hpush]
    refine ⟨.tryPush o item :: List.replicate 4 (.producer s.pops),
      { s with
        head := { s.head with seen := s.pops }
        tail := s.tail.store ((r.tail + 1) &&& C.mask)
        slots := s.slots.set r.tail item
        producer := .idle
        argument := some (o.leaves item)
        calls := s.calls + 1
        history := s.history ++ [.invoke s.calls (.push item)] ++
          [.respond s.calls (.push item) (.pushed true)]
        loads := s.loads ++ [(s.calls, s.held)] },
      true, o.leaves item, ?_, rfl,
      ⟨rfl, hr.consumer, hr.head, Atomic.current_store _ _, ?_⟩, rfl, List.append_assoc _ _ _⟩
    · simp only [TransitionSystem.run, queue, step, List.reduceReplicate, tryPushStep, hr.producer,
        hr.tail, hload, hfull, hslot, Option.map_some, Option.bind_some, ↓reduceIte]
      rfl
    · rw [Vector.toList_set, ← hr.slots]

/-- A `try_pop` that nothing interrupts and in which nothing throws. -/
theorem tryPop (hs : Indices C s) (hr : s.Represents r) :
    ∃ as s' out, (queue T C).run s as = some s' ∧
      (r.tryPop none).1 = .ok out ∧ s'.Represents (r.tryPop none).2 ∧
      s'.history = s.history ++ [.invoke s.calls .pop, .respond s.calls .pop (.popped out)] := by
  have hload : s.tail.load s.pushes = some (r.tail, { s.tail with seen := s.pushes }) :=
    hr.tail ▸ Atomic.load_last hs.tail.seen_le
  have hhead := r.head_lt
  by_cases hempty : r.head = r.tail
  · rw [Ring.tryPop_empty hempty]
    refine ⟨.tryPop :: List.replicate 2 (.consumer s.pushes),
      { s with
        tail := { s.tail with seen := s.pushes }
        consumer := .idle
        calls := s.calls + 1
        history := s.history ++ [.invoke s.calls .pop] ++ [.respond s.calls .pop (.popped none)]
        loads := s.loads ++ [(s.calls, s.held)] },
      none, ?_, rfl, ⟨hr.producer, rfl, hr.head, hr.tail, hr.slots⟩, List.append_assoc _ _ _⟩
    simp only [TransitionSystem.run, queue, step, List.reduceReplicate, tryPopStep, hr.consumer,
      hr.head, hload, hempty, Option.map_some, Option.bind_some, ↓reduceIte]
    rfl
  · have hslot : s.slots[r.head]? = some r.slots[r.head] := by
      rw [hr.slots, List.getElem?_eq_getElem (by rwa [Vector.length_toList]),
        Vector.getElem_toList]
    have hpop : r.tryPop none = (.ok (some r.slots[r.head]),
        { r with
          slots := r.slots.set r.head (SlotType.movedFrom r.slots[r.head])
          head := (r.head + 1) &&& C.mask
          head_lt := Ring.mask_lt C _ }) := if_neg hempty
    rw [hpop]
    refine ⟨.tryPop :: List.replicate 4 (.consumer s.pushes),
      { s with
        tail := { s.tail with seen := s.pushes }
        head := s.head.store ((r.head + 1) &&& C.mask)
        slots := s.slots.set r.head (SlotType.movedFrom r.slots[r.head])
        consumer := .idle
        calls := s.calls + 1
        history := s.history ++ [.invoke s.calls .pop] ++
          [.respond s.calls .pop (.popped (some r.slots[r.head]))]
        loads := s.loads ++ [(s.calls, s.held)] },
      some r.slots[r.head], ?_, rfl,
      ⟨hr.producer, rfl, Atomic.current_store _ _, hr.tail, ?_⟩, List.append_assoc _ _ _⟩
    · simp only [TransitionSystem.run, queue, step, List.reduceReplicate, tryPopStep, hr.consumer,
        hr.head, hload, hempty, hslot, Option.map_some, Option.bind_some, ↓reduceIte]
      rfl
    · rw [Vector.toList_set, ← hr.slots]

end State.Represents

/-! ### Runs of calls -/

variable [SlotType T]

/-- The queue after its default construction. -/
def Ring.fresh (T : Type*) [SlotType T] (C : Capacity) : Ring T C where
  head := 0
  tail := 0
  slots := .replicate C.val SlotType.fresh
  head_lt := C.pos
  tail_lt := C.pos

/-- The step machine starts with that queue. -/
theorem State.Represents.init : (Spsc.init C : State T).Represents (Ring.fresh T C) where
  producer := rfl
  consumer := rfl
  head := rfl
  tail := rfl
  slots := Vector.toList_replicate.symm

/-- The queue, the elements accepted and the elements returned so far. -/
structure Ledger (T : Type*) (C : Capacity) where
  ring : Ring T C
  accepted : List T := []
  returned : List T := []

/-- One call. -/
def Ledger.step (s : Ledger T C) : Call T → Ledger T C
  | .tryPush o item torn =>
      match s.ring.tryPush o item torn with
      | (.ok (true, _), ring) => { s with ring, accepted := s.accepted ++ [item] }
      | (_, ring) => { s with ring }
  | .tryPop throws =>
      match s.ring.tryPop throws with
      | (.ok (some out), ring) => { s with ring, returned := s.returned ++ [out] }
      | (_, ring) => { s with ring }

/-- The runs of calls, with exceptions anywhere. -/
def callQueue (T : Type*) [SlotType T] (C : Capacity) :
    TransitionSystem (Ledger T C) (Call T) where
  init := { ring := .fresh T C }
  step s c := some (s.step c)

/-- A call that loses no element. -/
def Ledger.LosesNothing (s : Ledger T C) (c : Call T) : Prop := ¬s.ring.Loses c

instance (s : Ledger T C) : DecidablePred s.LosesNothing := fun c =>
  inferInstanceAs (Decidable (¬s.ring.Loses c))

/-- What has been accepted has been returned or is held, in its order. -/
def Ledger.Balanced (s : Ledger T C) : Prop := s.accepted = s.returned ++ s.ring.contents

namespace Ledger

variable {s : Ledger T C}

theorem Balanced.step (hs : s.Balanced) {c : Call T} (hc : s.LosesNothing c) :
    (s.step c).Balanced := by
  have hs : s.accepted = s.returned ++ s.ring.contents := hs
  cases c with
  | tryPush o item torn =>
    rw [Ledger.step, Balanced]
    by_cases hfull : (s.ring.tail + 1) &&& C.mask = s.ring.head
    · rw [Ring.tryPush_full hfull]
      exact hs
    · obtain ⟨⟨ring, hok, hcontents⟩, htorn⟩ := Ring.exists_tryPush hfull o item
      cases torn with
      | none =>
        rw [hok]
        dsimp only
        rw [hs, hcontents, List.append_assoc]
      | some junk =>
        obtain ⟨ring, hthrows, hcontents⟩ := htorn junk
        rw [hthrows]
        dsimp only
        rw [hs, hcontents]
  | tryPop throws =>
    rw [Ledger.step, Balanced]
    by_cases hempty : s.ring.head = s.ring.tail
    · rw [Ring.tryPop_empty hempty]
      exact hs
    · obtain ⟨out, ring, hcontents, hpop⟩ := Ring.exists_tryPop hempty
      have hresult : throws ≠ some .intoResult := fun h => hc ⟨h, hempty⟩
      rw [hpop, if_neg hresult]
      split_ifs with hout
      · exact hs
      · dsimp only
        rw [hs, hcontents, List.append_assoc]
        rfl

theorem balanced_isInvariant :
    ((callQueue T C).restrict LosesNothing).IsInvariant Balanced where
  init := (Ring.contents_eq_nil rfl).symm
  step {s c s'} hs h := by
    obtain ⟨hc, hstep⟩ := (TransitionSystem.restrict_step_iff _).mp h
    obtain rfl := Option.some.inj hstep
    exact hs.step hc

end Ledger

/-- **Which exceptions keep what the queue holds.** In every reachable state, after a call that
exits with an exception the next pops return what they would have returned before it, if and only if
the call is not a `try_pop` of an element whose move into the returned optional throws. In runs
without such calls, the elements accepted are those returned followed by those held, whatever else
throws. -/
theorem exceptions_keep (T : Type*) [SlotType T] (C : Capacity) :
    (∀ s : Ledger T C, (callQueue T C).Reachable s →
      ∀ c, s.ring.Keeps c ↔ ¬s.ring.Loses c) ∧
    ∀ s : Ledger T C, ((callQueue T C).restrict Ledger.LosesNothing).Reachable s →
      s.accepted = s.returned ++ s.ring.contents :=
  ⟨fun _ _ c => Ring.keeps_iff c, fun _ hs => Ledger.balanced_isInvariant.of_reachable hs⟩

/-- An element type whose moves are copies, such as one with a copy constructor only. -/
instance : SlotType ℕ where
  fresh := 0
  movedFrom n := n

/-- The element `7` is lost when its move into the returned optional throws. -/
theorem not_keeps_intoResult : ¬ ∀ s : Ledger ℕ (.twoPow 1 le_rfl),
    (callQueue ℕ (.twoPow 1 le_rfl)).Reachable s → ∀ c, s.ring.Keeps c := by
  intro h
  obtain ⟨s, hs, hpop, hpops⟩ := TransitionSystem.exists_reachable
    (M := callQueue ℕ (.twoPow 1 le_rfl))
    (p := fun s => (s.ring.tryPop (some .intoResult)).1 = .error .intoResult ∧
      (s.ring.tryPop (some .intoResult)).2.pops 1 ≠ s.ring.pops 1)
    [.tryPush .copy 7 none] (by decide)
  exact hpops (h s hs (.tryPop (some .intoResult)) ⟨_, hpop⟩ 1)

/-- An assignment that throws, and a move out of the slot that throws. -/
theorem exceptions_keep_assignAndMoveOut : ∃ s : Ledger ℕ (.twoPow 1 le_rfl),
    s.ring.Keeps (.tryPop (some .moveOut)) ∧ s.accepted = [7] ∧
      s.accepted = s.returned ++ s.ring.contents := by
  obtain ⟨s, hs, haccepted⟩ := TransitionSystem.exists_reachable
    (M := (callQueue ℕ (.twoPow 1 le_rfl)).restrict Ledger.LosesNothing)
    (p := fun s => s.accepted = [7])
    [.tryPush .copy 5 (some 9), .tryPush .copy 7 none, .tryPop (some .moveOut)] (by decide)
  obtain ⟨hkeeps, hbalanced⟩ := exceptions_keep ℕ (.twoPow 1 le_rfl)
  refine ⟨s, (hkeeps s hs.of_restrict _).mpr ?_, haccepted, hbalanced s hs⟩
  exact fun h => nomatch h.1

end SystemsStack.Spsc
