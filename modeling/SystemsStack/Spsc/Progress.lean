import SystemsStack.Spsc.DataRaces

/-!
# The calls of the queue are wait-free

A call of `try_push` or `try_pop` makes at most four accesses, and none of them waits for the other
thread. So a thread returns from its call after at most four steps of its own, whatever the other
thread does in between, and as long as it has not returned it can take a step
(`SystemsStack.Spsc.waitFree`).

## Main definitions

* `SystemsStack.Spsc.Action.thread`, `SystemsStack.Spsc.Action.Calls`.
* `SystemsStack.Spsc.State.stepsLeft`: the accesses that the call of a thread still has to make.

## Main results

* `SystemsStack.Spsc.waitFree`.

## References

* `include/ll/spsc_queue.hpp`, lines 31–66.
-/

namespace SystemsStack.Spsc

open Core

variable {T : Type*} {C : Capacity} {s s' : State T}

/-- The thread that moves. -/
def Action.thread : Action T → Thread
  | tryPush _ _ | producer _ => .producer
  | tryPop | consumer _ => .consumer

/-- The action is a new call. -/
def Action.Calls : Action T → Prop
  | tryPush _ _ | tryPop => True
  | producer _ | consumer _ => False

/-- The accesses still to be made, if the call succeeds. -/
def ProducerPc.stepsLeft : ProducerPc T → ℕ
  | idle => 0
  | loadTail .. => 4
  | loadHead .. => 3
  | writeSlot .. => 2
  | storeTail .. => 1

def ConsumerPc.stepsLeft : ConsumerPc T → ℕ
  | idle => 0
  | loadHead _ => 4
  | loadTail .. => 3
  | readSlot .. => 2
  | storeHead .. => 1

/-- The accesses that the call of a thread still has to make, if it succeeds. -/
def State.stepsLeft (s : State T) : Thread → ℕ
  | .producer => s.producer.stepsLeft
  | .consumer => s.consumer.stepsLeft

/-- The steps of a thread in a run. -/
def stepsOf (t : Thread) (as : List (Action T)) : ℕ := as.countP (·.thread = t)

theorem State.stepsLeft_le (s : State T) (t : Thread) : s.stepsLeft t ≤ 4 := by
  cases t with
  | producer => cases h : s.producer <;> simp [State.stepsLeft, ProducerPc.stepsLeft, h]
  | consumer => cases h : s.consumer <;> simp [State.stepsLeft, ConsumerPc.stepsLeft, h]

/-- The thread is not inside a call. -/
def State.Idle (s : State T) : Thread → Prop
  | .producer => s.producer = .idle
  | .consumer => s.consumer = .idle

theorem State.stepsLeft_eq_zero (s : State T) (t : Thread) : s.stepsLeft t = 0 ↔ s.Idle t := by
  cases t with
  | producer => cases h : s.producer <;> simp [State.stepsLeft, ProducerPc.stepsLeft, Idle, h]
  | consumer => cases h : s.consumer <;> simp [State.stepsLeft, ConsumerPc.stepsLeft, Idle, h]

variable [SlotType T]

/-- A step of a call is one step less to make, and the other thread has as many left as before. -/
theorem Step.stepsLeft {a : Action T} (h : Step C s a s') {t : Thread}
    (hcalls : a.thread = t → ¬a.Calls) :
    s'.stepsLeft t + (if a.thread = t then 1 else 0) ≤ s.stepsLeft t := by
  cases h with
  | callPush pc =>
    cases t with
    | producer => exact absurd trivial (hcalls rfl)
    | consumer => exact Nat.le_refl _
  | callPop pc =>
    cases t with
    | producer => exact Nat.le_refl _
    | consumer => exact absurd trivial (hcalls rfl)
  | loadTail pc | full pc | room pc | writeSlot pc | storeTail pc =>
    cases t <;> simp [State.stepsLeft, ProducerPc.stepsLeft, Action.thread, pc]
  | loadHead pc | empty pc | nonempty pc | readSlot pc | storeHead pc =>
    cases t <;> simp [State.stepsLeft, ConsumerPc.stepsLeft, Action.thread, pc]

/-- A thread that is inside a call can take its next step: the slot it accesses is one of the array,
and it can load what has been stored last. -/
theorem exists_step (hs : Indices C s) (hc : Contents C s) {t : Thread} (ht : ¬s.Idle t) :
    ∃ a s', a.thread = t ∧ ¬a.Calls ∧ (queue T C).step s a = some s' := by
  have hslot (i : ℕ) : i % C.val < s.slots.length := by
    rw [hc.slots_length]
    exact Nat.mod_lt i C.pos
  cases t with
  | producer =>
    refine ⟨.producer s.pops, ?_⟩
    cases pc : s.producer with
    | idle => exact absurd pc ht
    | loadTail c o item => simp [queue, Spsc.step, tryPushStep, pc, Action.thread, Action.Calls]
    | loadHead c o item t next =>
      have hload := Atomic.load_last hs.head.seen_le
      simp [queue, Spsc.step, tryPushStep, pc, Action.thread, Action.Calls, State.pops, hload]
    | writeSlot c o item t next =>
      obtain ⟨rfl, -, -⟩ := hs.of_push_writeSlot pc
      simp [queue, Spsc.step, tryPushStep, pc, Action.thread, Action.Calls, hslot]
    | storeTail c o item t next =>
      simp [queue, Spsc.step, tryPushStep, pc, Action.thread, Action.Calls]
  | consumer =>
    refine ⟨.consumer s.pushes, ?_⟩
    cases pc : s.consumer with
    | idle => exact absurd pc ht
    | loadHead c => simp [queue, Spsc.step, tryPopStep, pc, Action.thread, Action.Calls]
    | loadTail c h =>
      have hload := Atomic.load_last hs.tail.seen_le
      simp [queue, Spsc.step, tryPopStep, pc, Action.thread, Action.Calls, State.pushes, hload]
    | readSlot c h =>
      obtain ⟨rfl, -⟩ := hs.of_pop_readSlot pc
      simp [queue, Spsc.step, tryPopStep, pc, Action.thread, Action.Calls, hslot]
    | storeHead c h out => simp [queue, Spsc.step, tryPopStep, pc, Action.thread, Action.Calls]

/-- What is left of a call after a run in which its thread makes no new one. -/
theorem stepsLeft_run {as : List (Action T)} {t : Thread} (h : (queue T C).run s as = some s')
    (hcalls : ∀ a ∈ as, a.thread = t → ¬a.Calls) :
    s'.stepsLeft t + stepsOf t as ≤ s.stepsLeft t := by
  induction as generalizing s with
  | nil =>
    obtain rfl : s = s' := Option.some.inj h
    exact Nat.le_refl _
  | cons a as ih =>
    obtain ⟨s₁, hstep, hrun⟩ := Option.bind_eq_some_iff.mp h
    obtain ⟨ha, has⟩ := List.forall_mem_cons.mp hcalls
    have hrest := ih hrun has
    have hfirst := (Step.of_step hstep).stepsLeft ha
    simp only [stepsOf, List.countP_cons, decide_eq_true_eq] at hrest ⊢
    omega

/-- **Wait-freedom.** In every run in which a thread makes no new call, the steps that it takes and
those that its call still has to take are at most four together, whatever the other thread does and
the loads read; none are left when the call has returned, and until then the thread can take a
step. -/
theorem waitFree {as : List (Action T)} {t : Thread} (hs : (queue T C).Reachable s)
    (h : (queue T C).run s as = some s') (hcalls : ∀ a ∈ as, a.thread = t → ¬a.Calls) :
    stepsOf t as + s'.stepsLeft t ≤ 4 ∧ (s'.stepsLeft t = 0 ↔ s'.Idle t) ∧
      (s'.Idle t ∨ ∃ a s'', a.thread = t ∧ ¬a.Calls ∧ (queue T C).step s' a = some s'') := by
  have hinv := contents_isInvariant.of_run (contents_isInvariant.of_reachable hs) h
  have hsteps := stepsLeft_run h hcalls
  have hle := s.stepsLeft_le t
  refine ⟨by omega, s'.stepsLeft_eq_zero t, ?_⟩
  by_cases hidle : s'.Idle t
  · exact .inl hidle
  · exact .inr (exists_step hinv.1 hinv.2 hidle)

/-- A `try_push` that is past its full-check, while the consumer pops what has been pushed before:
two of its four steps are left. -/
theorem waitFree_popInFlight :
    ∃ s : State (Option ℕ), s.stepsLeft .producer = 2 ∧
      ∃ a s', a.thread = .producer ∧ ¬a.Calls ∧
        (queue (Option ℕ) (.twoPow 2 (by decide))).step s a = some s' := by
  obtain ⟨s, hs, hleft⟩ := TransitionSystem.exists_reachable
    (M := queue (Option ℕ) (.twoPow 2 (by decide)))
    (p := fun s => s.stepsLeft .producer = 2)
    (popInFlight ++ [.tryPush .copy (some 8), .producer 0, .producer 0]) (by decide)
  have hrun : (queue (Option ℕ) (.twoPow 2 (by decide))).run s [] = some s := rfl
  obtain ⟨-, hidle, hstep⟩ := waitFree (t := .producer) hs hrun (by simp)
  have hbusy : ¬s.Idle .producer := fun h => by
    rw [← hidle, hleft] at h
    exact absurd h (by decide)
  exact ⟨s, hleft, hstep.resolve_left hbusy⟩

end SystemsStack.Spsc
