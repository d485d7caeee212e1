import SystemsStack.Spsc.Linearization
import Mathlib.Logic.Function.Basic

/-!
# What `empty` observes

`empty()` loads `head_` and then `tail_`, and compares. Any thread may call it: the producer and the
consumer between their other calls, and any number of observers at any time. The steps of the other
threads go on between the two loads. This file adds these calls to the sequentially consistent
interleavings of the queue, and keeps for each of them the number of elements held at every instant
from its first load to its second.

An answer `false` is honest: some element was held at one of these instants. So is an answer `true`
of the producer or the consumer. An observer can miss laps of the ring: between its two loads the
pushes can get a multiple of the capacity ahead of the position loaded from `head_` without the
queue being empty at any instant (`SystemsStack.Spsc.not_honest_lap`). Nothing else goes wrong, and
with two slots nothing does (`SystemsStack.Spsc.emptyAnswers_honest`).

## Main definitions

* `SystemsStack.Spsc.Caller`, `SystemsStack.Spsc.EmptyCall`, `SystemsStack.Spsc.EmptyAnswer`.
* `SystemsStack.Spsc.observedQueue`: the transition system.
* `SystemsStack.Spsc.EmptyCall.Inv`: the invariant of a call between its two loads.

## Main results

* `SystemsStack.Spsc.emptyCalls_isInvariant`.
* `SystemsStack.Spsc.emptyAnswers_honest`.

## References

* `include/ll/spsc_queue.hpp`, lines 31–71.
-/

namespace SystemsStack.Spsc

open Core

variable {T : Type*} {C : Capacity}

/-! ### Calls of `empty` -/

/-- The threads that call `empty`. -/
inductive Caller where
  | producer
  | consumer
  | observer (i : ℕ)
  deriving DecidableEq, Repr

/-- The thread that takes a step of the queue. -/
def Action.caller : Action T → Caller
  | .tryPush .. | .producer _ => .producer
  | .tryPop | .consumer _ => .consumer

/-- A call between its two loads. -/
structure EmptyCall where
  /-- The value loaded from `head_`. -/
  head : ℕ
  /-- The number of pops at that load: the position that the value stands for. -/
  position : ℕ
  /-- The numbers of elements held since that load, one for each instant. -/
  held : List ℕ
  deriving DecidableEq, Repr

/-- A call that has returned. -/
structure EmptyAnswer where
  caller : Caller
  /-- The result. -/
  result : Bool
  /-- The numbers of elements held from the first load to the second. -/
  held : List ℕ
  /-- The positions that the values loaded from `head_` and from `tail_` stand for. -/
  headPosition : ℕ
  tailPosition : ℕ
  deriving DecidableEq, Repr

/-- The queue, the calls of `empty` that are between their two loads, and those that have
returned. -/
structure Observed (T : Type*) where
  queue : State T
  calls : Caller → Option EmptyCall := fun _ => none
  answers : List EmptyAnswer := []

/-- A step of the queue, or one of the loads of `empty`. -/
inductive ObservedAction (T : Type*) where
  | queue (a : Action T)
  | loadHead (t : Caller)
  | loadTail (t : Caller)
  deriving DecidableEq, Repr

/-- The thread is outside `try_push` and `try_pop`. -/
def State.IsIdle (s : State T) : Caller → Prop
  | .producer => s.producer.call?.isNone
  | .consumer => s.consumer.call?.isNone
  | .observer _ => True

instance (s : State T) : DecidablePred s.IsIdle
  | .producer => inferInstanceAs (Decidable (s.producer.call?.isNone = true))
  | .consumer => inferInstanceAs (Decidable (s.consumer.call?.isNone = true))
  | .observer _ => inferInstanceAs (Decidable True)

/-- The first load. -/
def State.loadHead (s : State T) : EmptyCall where
  head := s.head.current
  position := s.pops
  held := [s.held]

/-- One more instant before the second load. -/
def EmptyCall.observe (c : EmptyCall) (s : State T) : EmptyCall :=
  { c with held := c.held ++ [s.held] }

/-- The second load, and the comparison. -/
def EmptyCall.loadTail (c : EmptyCall) (caller : Caller) (s : State T) : EmptyAnswer where
  caller := caller
  result := c.head = s.tail.current
  held := c.held
  headPosition := c.position
  tailPosition := s.pushes

variable [SlotType T]

/-- One step. A thread is not inside `empty` and another call at once; every step of the queue is
an instant of all calls that are between their loads. -/
def observedStep (C : Capacity) (s : Observed T) : ObservedAction T → Option (Observed T)
  | .queue a =>
      if s.calls a.caller = none then
        ((sequentialQueue T C).step s.queue a).map fun queue =>
          { s with queue, calls := fun t => (s.calls t).map (·.observe queue) }
      else
        none
  | .loadHead t =>
      if s.calls t = none ∧ s.queue.IsIdle t then
        some { s with calls := Function.update s.calls t (some s.queue.loadHead) }
      else
        none
  | .loadTail t =>
      (s.calls t).map fun c =>
        { s with
          calls := Function.update s.calls t none
          answers := s.answers ++ [c.loadTail t s.queue] }

/-- The queue under the sequentially consistent interleavings of its two threads and of the calls
of `empty` by any thread. -/
def observedQueue (T : Type*) [SlotType T] (C : Capacity) :
    TransitionSystem (Observed T) (ObservedAction T) where
  init := { queue := init C }
  step := observedStep C

/-! ### A call between its two loads -/

variable {s s' : State T} {a : Action T} {t : Caller} {c : EmptyCall}

/-- A step pushes or pops at most one element, each by its own thread. -/
theorem Step.counts (h : Step C s a s') :
    s'.pushes = s.pushes ∧ s'.pops = s.pops ∨
    a.caller = .producer ∧ s'.pushes = s.pushes + 1 ∧ s'.pops = s.pops ∨
    a.caller = .consumer ∧ s'.pushes = s.pushes ∧ s'.pops = s.pops + 1 := by
  cases h with
  | storeTail pc => exact .inr (.inl ⟨rfl, by simp [State.pushes], rfl⟩)
  | storeHead pc => exact .inr (.inr ⟨rfl, rfl, by simp [State.pops]⟩)
  | full pc load | room pc load ne =>
    exact .inl ⟨rfl, congrArg List.length (Atomic.stores_of_load load)⟩
  | empty pc load | nonempty pc load ne =>
    exact .inl ⟨congrArg List.length (Atomic.stores_of_load load), rfl⟩
  | _ => exact .inl ⟨rfl, rfl⟩

/-- What is known between the two loads. Once an element has been pushed behind the position loaded
from `head_`, some element was held; as long as none has, none was held. The producer pushes
nothing meanwhile, and the consumer pops nothing. -/
structure EmptyCall.Inv (C : Capacity) (s : State T) (t : Caller) (c : EmptyCall) : Prop where
  head : c.head = c.position % C.val
  position_le : c.position ≤ s.pops
  current : s.held ∈ c.held
  pushed : c.position < s.pushes → ∃ n ∈ c.held, 0 < n
  drained : s.pushes = c.position → 0 ∈ c.held
  producer : t = .producer → s.pushes < c.position + C.val
  consumer : t = .consumer → s.pops = c.position
  two : C.val = 2 → c.position + 2 ≤ s.pushes → 0 ∈ c.held

namespace EmptyCall.Inv

omit [SlotType T] in
theorem of_loadHead (hs : Indices C s) (t : Caller) : s.loadHead.Inv C s t where
  head := hs.head_eq
  position_le := Nat.le_refl _
  current := List.mem_singleton_self _
  pushed h := ⟨s.held, List.mem_singleton_self _, Nat.sub_pos_of_lt h⟩
  drained h := List.mem_singleton.mpr (by rw [State.held, h]; exact (Nat.sub_self _).symm)
  producer _ := hs.pushes_lt_pops
  consumer _ := rfl
  two hC h := by
    have hlt : s.pushes < s.pops + C.val := hs.pushes_lt_pops
    have hle : s.pops + 2 ≤ s.pushes := h
    omega

/-- A step of another thread keeps what is known. -/
theorem observe (hs : Indices C s) (hs' : Indices C s') (hc : c.Inv C s t) (h : Step C s a s')
    (hne : t ≠ a.caller) : (c.observe s').Inv C s' t where
  head := hc.head
  position_le := by
    have := hc.position_le
    change c.position ≤ s'.pops
    rcases h.counts with h | h | h <;> omega
  current := List.mem_append_right _ (List.mem_singleton_self _)
  pushed hlt := by
    have hlt : c.position < s'.pushes := hlt
    by_cases hbefore : c.position < s.pushes
    · obtain ⟨n, hn, hpos⟩ := hc.pushed hbefore
      exact ⟨n, List.mem_append_left _ hn, hpos⟩
    · -- the first push behind the position
      refine ⟨s'.held, List.mem_append_right _ (List.mem_singleton_self _), ?_⟩
      have := hc.position_le
      have := hs.pops_le_pushes
      rw [State.held]
      rcases h.counts with h | h | h <;> omega
  drained heq := by
    have heq : s'.pushes = c.position := heq
    have := hc.position_le
    have := hs.pops_le_pushes
    exact List.mem_append_left _ (hc.drained (by rcases h.counts with h | h | h <;> omega))
  producer ht := by
    have := hc.producer ht
    change s'.pushes < c.position + C.val
    rcases h.counts with h | ⟨hcaller, -⟩ | h
    · omega
    · exact absurd (ht.trans hcaller.symm) hne
    · omega
  consumer ht := by
    have := hc.consumer ht
    change s'.pops = c.position
    rcases h.counts with h | h | ⟨hcaller, -⟩
    · omega
    · omega
    · exact absurd (ht.trans hcaller.symm) hne
  two hC hle := by
    have hle : c.position + 2 ≤ s'.pushes := hle
    by_cases hbefore : c.position + 2 ≤ s.pushes
    · exact List.mem_append_left _ (hc.two hC hbefore)
    · -- the element pushed before has been popped, as there is room for one only
      have hheld : s.held = 0 := by
        have := hs'.pushes_lt_pops
        rw [State.held]
        rcases h.counts with h | h | h <;> omega
      exact List.mem_append_left _ (hheld ▸ hc.current)

end EmptyCall.Inv

/-! ### Answers -/

/-- The capacity is not two: then it is four at least. -/
theorem Capacity.four_le (hC : C.val ≠ 2) : 4 ≤ C.val := by
  obtain ⟨k, hk, hpow⟩ := C.exists_two_pow
  obtain ⟨j, rfl⟩ : ∃ j, k = j + 2 := by
    refine ⟨k - 2, ?_⟩
    have hone : k ≠ 1 := fun h => hC (by rw [hpow, h, Nat.pow_one])
    omega
  rw [hpow, Nat.pow_add]
  exact Nat.le_mul_of_pos_left 4 (Nat.two_pow_pos j)

/-- What an answer says about the elements held between the two loads. -/
structure EmptyAnswer.Honest (C : Capacity) (a : EmptyAnswer) : Prop where
  of_false : a.result = false → ∃ n ∈ a.held, 0 < n
  of_true : a.result = true → 0 ∈ a.held ∨
    (∃ i, a.caller = .observer i) ∧ 4 ≤ C.val ∧
      ∃ k, 0 < k ∧ a.tailPosition = a.headPosition + k * C.val

omit [SlotType T] in
/-- The second load. -/
theorem EmptyCall.Inv.honest (hs : Indices C s) (hc : c.Inv C s t) :
    (c.loadTail t s).Honest C := by
  have hle : c.position ≤ s.pushes := Nat.le_trans hc.position_le hs.pops_le_pushes
  have hresult : (c.loadTail t s).result = true ↔ c.position % C.val = s.pushes % C.val := by
    rw [EmptyCall.loadTail, hc.head, hs.tail_eq, decide_eq_true_iff]
  refine ⟨fun hfalse => hc.pushed ?_, fun htrue => ?_⟩
  · have hne : c.position ≠ s.pushes := fun heq => by
      rw [hresult.mpr (congrArg (· % C.val) heq)] at hfalse
      exact nomatch hfalse
    exact Nat.lt_of_le_of_ne hle hne
  · rcases Nat.eq_or_lt_of_le hle with heq | hlt
    · exact .inl (hc.drained heq.symm)
    · -- the pushes are some laps ahead
      obtain ⟨k, hk⟩ : C.val ∣ s.pushes - c.position :=
        (Nat.modEq_iff_dvd' hle).mp (hresult.mp htrue)
      have hpos : 0 < k := Nat.pos_of_ne_zero fun h => by
        rw [h, Nat.mul_zero] at hk
        omega
      have hlap : C.val ≤ s.pushes - c.position := hk ▸ Nat.le_mul_of_pos_right _ hpos
      by_cases htwo : C.val = 2
      · exact .inl (hc.two htwo (by omega))
      · refine .inr ⟨?_, Capacity.four_le htwo, k, hpos, ?_⟩
        · cases t with
          | producer => exact absurd (hc.producer rfl) (by omega)
          | consumer =>
            have := hc.consumer rfl
            have := hs.pushes_lt_pops
            omega
          | observer i => exact ⟨i, rfl⟩
        · change s.pushes = c.position + k * C.val
          rw [Nat.mul_comm, ← hk]
          omega

/-- The calls between their loads keep their invariant, and the answers are honest. -/
structure Observed.Inv (C : Capacity) (s : Observed T) : Prop where
  indices : Indices C s.queue
  calls : ∀ t c, s.calls t = some c → c.Inv C s.queue t
  answers : ∀ a ∈ s.answers, a.Honest C

theorem emptyCalls_isInvariant : (observedQueue T C).IsInvariant (Observed.Inv C) where
  init := ⟨indices_isInvariant.init, nofun, fun _ h => absurd h List.not_mem_nil⟩
  step {s a s'} hs h := by
    cases a with
    | queue a =>
      simp only [observedQueue, observedStep, Option.ite_none_right_eq_some,
        Option.map_eq_some_iff] at h
      obtain ⟨houtside, queue, hstep, rfl⟩ := h
      have hstep := Step.of_step ((TransitionSystem.restrict_step_iff _).mp hstep).2
      have hindices := hs.indices.step hstep
      refine ⟨hindices, fun t c hc => ?_, hs.answers⟩
      obtain ⟨c, hcall, rfl⟩ := Option.map_eq_some_iff.mp hc
      have hne : t ≠ a.caller := fun heq => by
        rw [← heq, hcall] at houtside
        exact nomatch houtside
      exact (hs.calls t c hcall).observe hs.indices hindices hstep hne
    | loadHead t =>
      simp only [observedQueue, observedStep, Option.ite_none_right_eq_some,
        Option.some.injEq] at h
      obtain ⟨-, rfl⟩ := h
      refine ⟨hs.indices, fun t' c hc => ?_, hs.answers⟩
      dsimp only at hc
      rw [Function.update_apply] at hc
      split_ifs at hc with heq
      · obtain rfl := Option.some.inj hc
        exact .of_loadHead hs.indices t'
      · exact hs.calls t' c hc
    | loadTail t =>
      simp only [observedQueue, observedStep, Option.map_eq_some_iff] at h
      obtain ⟨c, hcall, rfl⟩ := h
      refine ⟨hs.indices, fun t' c' hc => ?_, fun a ha => ?_⟩
      · dsimp only at hc
        rw [Function.update_apply] at hc
        split_ifs at hc with heq
        exact hs.calls t' c' hc
      · rcases List.mem_append.mp ha with ha | ha
        · exact hs.answers a ha
        · obtain rfl := List.mem_singleton.mp ha
          exact (hs.calls t c hcall).honest hs.indices

/-- **What `empty` observes.** In every sequentially consistent interleaving, when a call of `empty`
by any thread has returned `false`, the queue held some element at an instant from its first load
to its second; when it has returned `true`, the queue held none at such an instant, unless the
caller is neither the producer nor the consumer, the capacity is at least four, and the position
loaded from `tail_` is some laps of the ring ahead of the position loaded from `head_`. -/
theorem emptyAnswers_honest {s : Observed T} (hs : (observedQueue T C).Reachable s) :
    ∀ a ∈ s.answers,
      (a.result = false → ∃ n ∈ a.held, 0 < n) ∧
      (a.result = true → 0 ∈ a.held ∨
        (∃ i, a.caller = .observer i) ∧ 4 ≤ C.val ∧
          ∃ k, 0 < k ∧ a.tailPosition = a.headPosition + k * C.val) := by
  intro a ha
  have hhonest := (emptyCalls_isInvariant.of_reachable hs).answers a ha
  exact ⟨hhonest.of_false, hhonest.of_true⟩

/-- A `try_push` in the step machine, when there have been as many pops. -/
def pushSteps (pops : ℕ) : List (ObservedAction (Option ℕ)) :=
  .queue (.tryPush .copy (some 7)) :: List.replicate 4 (.queue (.producer pops))

/-- A `try_pop` in the step machine, when there have been as many pushes. -/
def popSteps (pushes : ℕ) : List (ObservedAction (Option ℕ)) :=
  .queue .tryPop :: List.replicate 4 (.queue (.consumer pushes))

/-- Three elements are pushed; between the loads of an observer one is popped and one is pushed. -/
def lapRun : List (ObservedAction (Option ℕ)) :=
  pushSteps 0 ++ pushSteps 0 ++ pushSteps 0 ++ [.loadHead (.observer 0)] ++ popSteps 3 ++
    pushSteps 1 ++ [.loadTail (.observer 0)]

/-- With four slots an observer is told that a queue is empty that held two elements at least. -/
theorem not_honest_lap : ¬ ∀ s, (observedQueue (Option ℕ) (.twoPow 2 (by decide))).Reachable s →
    ∀ a ∈ s.answers, (a.result = false → ∃ n ∈ a.held, 0 < n) ∧
      (a.result = true → 0 ∈ a.held) := by
  intro h
  obtain ⟨s, hs, a, ha, hresult, hheld⟩ := TransitionSystem.exists_reachable
    (M := observedQueue (Option ℕ) (.twoPow 2 (by decide)))
    (p := fun s => ∃ a ∈ s.answers, a.result = true ∧ 0 ∉ a.held) lapRun (by decide)
  exact hheld ((h s hs a ha).2 hresult)

/-- The answers of the producer and the consumer of a queue with one element. -/
theorem emptyAnswers_honest_bothThreads : ∃ s : Observed (Option ℕ), ∃ a ∈ s.answers,
    a.result = false ∧ ∃ n ∈ a.held, 0 < n := by
  obtain ⟨s, hs, a, ha, hresult⟩ := TransitionSystem.exists_reachable
    (M := observedQueue (Option ℕ) (.twoPow 1 le_rfl))
    (p := fun s => ∃ a ∈ s.answers, a.result = false)
    (.loadHead .producer :: .loadTail .producer :: pushSteps 0 ++
      [.loadHead .consumer, .loadTail .consumer]) (by decide)
  exact ⟨s, a, ha, hresult, (emptyAnswers_honest hs a ha).1 hresult⟩

end SystemsStack.Spsc
