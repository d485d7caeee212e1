import SystemsStack.Spsc.Fifo

/-!
# The order in which calls to the queue respond

A refused `try_push` and a `try_pop` that finds nothing respond at their load of the other
thread's index, a successful call responds at the store of its own index. These are the last
atomic accesses of the call, and the order of the responses explains the history by a first-in
first-out queue of at most `Capacity - 1` values, for every choice of stale loads
(`SystemsStack.Spsc.responseOrder_step`). What the loads read from decides only when the queue
may refuse a value, and when it may claim to hold none.

## Main definitions

* `SystemsStack.Spsc.Thread`, `SystemsStack.Spsc.State.pending`, `SystemsStack.Spsc.State.queued`.
* `SystemsStack.Spsc.Ordered`.

## Main results

* `SystemsStack.Spsc.ordered_init`, `SystemsStack.Spsc.responseOrder_step`.

## References

* `include/ll/spsc_queue.hpp`, lines 31–66.
-/

namespace SystemsStack.Spsc

open Core

variable {T : Type*} {C : Capacity} {s s' : State T}

/-! ### Calls under way -/

/-- The two threads of the queue. -/
inductive Thread where
  | producer
  | consumer
  deriving DecidableEq

/-- The `try_push` under way. -/
def ProducerPc.call? : ProducerPc T → Option (ℕ × FifoOp T)
  | .idle => none
  | .loadTail c _ item | .loadHead c _ item _ _ | .writeSlot c _ item _ _
  | .storeTail c _ item _ _ => some (c, .push item)

/-- The `try_pop` under way. -/
def ConsumerPc.call? : ConsumerPc T → Option (ℕ × FifoOp T)
  | .idle => none
  | .loadHead c | .loadTail c _ | .readSlot c _ | .storeHead c _ _ => some (c, .pop)

/-- The call under way in each thread. -/
def State.pending (s : State T) : Thread → Option (ℕ × FifoOp T)
  | .producer => s.producer.call?
  | .consumer => s.consumer.call?

/-- The values accepted and not returned. -/
def State.queued (s : State T) : List T := s.accepted.drop s.pops

theorem pending_eq (hproducer : s'.producer.call? = s.producer.call?)
    (hconsumer : s'.consumer.call? = s.consumer.call?) : s'.pending = s.pending := by
  funext t
  cases t with
  | producer => exact hproducer
  | consumer => exact hconsumer

theorem pending_of_producer (hconsumer : s'.consumer = s.consumer) :
    s'.pending = Function.update s.pending .producer s'.producer.call? := by
  funext t
  cases t <;> simp [State.pending, hconsumer]

theorem pending_of_consumer (hproducer : s'.producer = s.producer) :
    s'.pending = Function.update s.pending .consumer s'.consumer.call? := by
  funext t
  cases t <;> simp [State.pending, hproducer]

theorem queued_eq (haccepted : s'.accepted = s.accepted) (hpops : s'.pops = s.pops) :
    s'.queued = s.queued := by
  rw [State.queued, State.queued, haccepted, hpops]

theorem length_queued [SlotType T] (hc : Contents C s) : s.queued.length = s.held := by
  rw [State.queued, List.length_drop, hc.accepted_length, State.held]

/-! ### The order of the responses -/

/-- The order of the responses explains the history by the queue of at most `Capacity - 1`
values, with the given conditions for refusing a push and for finding nothing. -/
def Ordered (C : Capacity) (Full Empty : List T → Prop) (s : State T) : Prop :=
  ResponseOrder (fifo T (C.val - 1) Full Empty) s.history s.calls s.pending s.queued

variable {Full Empty : List T → Prop}

theorem Ordered.of_eq {H n p q}
    (ho : ResponseOrder (fifo T (C.val - 1) Full Empty) H n p q) (hH : s.history = H)
    (hn : s.calls = n) (hp : s.pending = p) (hq : s.queued = q) : Ordered C Full Empty s := by
  rw [Ordered, hH, hn, hp, hq]
  exact ho

/-- The calls under way have been made. -/
theorem Ordered.producer_lt (ho : Ordered C Full Empty s) {c : ℕ} {op : FifoOp T}
    (hc : s.producer.call? = some (c, op)) : c < s.calls :=
  ho.call_lt (ho.invoked (t := .producer) hc)

theorem Ordered.consumer_lt (ho : Ordered C Full Empty s) {c : ℕ} {op : FifoOp T}
    (hc : s.consumer.call? = some (c, op)) : c < s.calls :=
  ho.call_lt (ho.invoked (t := .consumer) hc)

/-- The two threads make different calls. -/
theorem Ordered.call_ne (ho : Ordered C Full Empty s) {c d : ℕ} {op op' : FifoOp T}
    (hc : s.producer.call? = some (c, op)) (hd : s.consumer.call? = some (d, op')) : c ≠ d := by
  rintro rfl
  have hthread : Thread.producer = Thread.consumer := ho.distinct hc hd
  exact nomatch hthread

/-- Before its store of `tail_`, a `try_push` has room for one more element. -/
theorem held_lt_of_storeTail (hs : Indices C s) {c t next : ℕ} {o : Overload} {item : T}
    (pc : s.producer = .storeTail c o item t next) : s.held < C.val - 1 := by
  obtain ⟨-, -, hlt⟩ := hs.of_push_storeTail pc
  have hseen : s.head.seen ≤ s.pops := hs.head.seen_le
  have hle := hs.pops_le_pushes
  rw [State.held]
  omega

variable [SlotType T]

theorem ordered_init (C : Capacity) (Full Empty : List T → Prop) :
    Ordered C Full Empty (init (T := T) C) :=
  .of_eq (.nil _) rfl rfl (by funext t; cases t <;> rfl) rfl

/-- Before its store of `head_`, a `try_pop` holds the first value accepted and not returned. -/
theorem queued_of_storeHead (hc : Contents C s) {c h : ℕ} {out : T}
    (pc : s.consumer = .storeHead c h out) :
    s.queued = out :: s.accepted.drop (s.pops + 1) := by
  have hacc := (hc.out out (by rw [pc]; rfl)).1
  obtain ⟨hlt, hget⟩ := List.getElem?_eq_some_iff.mp hacc
  rw [State.queued, List.drop_eq_getElem_cons hlt, hget]

/-- **Every atomic access keeps the order of the responses**, provided a refused push finds the
queue `Full` and a pop that finds nothing finds it `Empty`. The hypotheses name the store that
the load has read from. -/
theorem responseOrder_step (hs : Indices C s) (hc : Contents C s) (ho : Ordered C Full Empty s)
    {a : Action T} (h : Step C s a s')
    (hfull : ∀ {place}, a = .producer place → s.head.seen ≤ place → place ≤ s.pops →
      s.pushes + 1 = place + C.val → Full s.queued)
    (hempty : ∀ {place}, a = .consumer place → s.tail.seen ≤ place → place ≤ s.pushes →
      s.pops = place → Empty s.queued) :
    Ordered C Full Empty s' := by
  cases h with
  | callPush pc =>
    exact .of_eq (ho.invoke .producer (.push _)) rfl rfl (pending_of_producer rfl)
      (queued_eq (by simp [State.accepted, State.acceptedValue]) rfl)
  | callPop pc =>
    exact .of_eq (ho.invoke .consumer .pop) rfl rfl (pending_of_consumer rfl)
      (queued_eq (by simp [State.accepted, State.acceptedValue]) rfl)
  | loadTail pc => exact .of_eq ho rfl rfl (pending_eq (by rw [pc]; rfl) rfl) rfl
  | @full _ c _ item _ _ _ pc load =>
    obtain ⟨h₁, h₂, heq, -⟩ := hs.head.load load
    obtain ⟨-, hnext⟩ := hs.of_push_loadHead pc
    have hfull := hfull rfl h₁ h₂ ((hs.full_iff h₁ h₂).mp (hnext.symm.trans heq))
    have hpending : s.pending .producer = some (c, .push item) := by
      rw [State.pending, pc]
      rfl
    exact .of_eq (ho.respond hpending (.refuse hfull)) rfl rfl (pending_of_producer rfl)
      (queued_eq (by simp [State.accepted, State.acceptedValue])
        (congrArg List.length (Atomic.stores_of_load load)))
  | room pc load ne =>
    exact .of_eq ho rfl rfl (pending_eq (by rw [pc]; rfl) rfl)
      (queued_eq rfl (congrArg List.length (Atomic.stores_of_load load)))
  | writeSlot pc lt => exact .of_eq ho rfl rfl (pending_eq (by rw [pc]; rfl) rfl) rfl
  | @storeTail _ c _ item _ _ pc =>
    have hroom : s.queued.length < C.val - 1 := length_queued hc ▸ held_lt_of_storeTail hs pc
    have hpending : s.pending .producer = some (c, .push item) := by
      rw [State.pending, pc]
      rfl
    refine .of_eq (ho.respond hpending (.accept hroom)) rfl rfl (pending_of_producer rfl) ?_
    have hle : s.pops ≤ s.accepted.length := hc.accepted_length ▸ hs.pops_le_pushes
    rw [State.queued, State.queued, ← List.drop_append_of_le_length hle]
    congr 1
    simp [State.accepted, State.acceptedValue]
  | loadHead pc => exact .of_eq ho rfl rfl (pending_eq rfl (by rw [pc]; rfl)) rfl
  | @empty _ c _ _ pc load =>
    obtain ⟨h₁, h₂, heq, -⟩ := hs.tail.load load
    have hindex := hs.of_pop_loadTail pc
    have hempty := hempty rfl h₁ h₂ ((hs.empty_iff h₁ h₂).mp (hindex.symm.trans heq))
    have hpending : s.pending .consumer = some (c, .pop) := by
      rw [State.pending, pc]
      rfl
    exact .of_eq (ho.respond hpending (.nothing hempty)) rfl rfl (pending_of_consumer rfl)
      (queued_eq (by simp [State.accepted, State.acceptedValue]) rfl)
  | nonempty pc load ne => exact .of_eq ho rfl rfl (pending_eq rfl (by rw [pc]; rfl)) rfl
  | readSlot pc slot => exact .of_eq ho rfl rfl (pending_eq rfl (by rw [pc]; rfl)) rfl
  | @storeHead _ c _ out pc =>
    have hpending : s.pending .consumer = some (c, .pop) := by
      rw [State.pending, pc]
      rfl
    have hstep : FifoStep (C.val - 1) Full Empty s.queued .pop (.popped (some out))
        (s.accepted.drop (s.pops + 1)) := queued_of_storeHead hc pc ▸ .take
    refine .of_eq (ho.respond hpending hstep) rfl rfl (pending_of_consumer rfl) ?_
    have haccepted : s.history.filterMap State.acceptedValue ++
        [Event.respond c .pop (.popped (some out))].filterMap State.acceptedValue =
          s.accepted := List.append_nil _
    rw [State.queued]
    simp [State.accepted, State.pops, haccepted]

end SystemsStack.Spsc
