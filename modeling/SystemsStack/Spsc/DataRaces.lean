import SystemsStack.Core.HappensBefore
import SystemsStack.Spsc.ResponseOrder

/-!
# The accesses to the slots are ordered

The slots of the queue are not atomic. What orders the accesses of the two threads to one slot are
the two indices: each thread stores its own index with release semantics after it has accessed a
slot, and loads the other one with acquire semantics before. This file records the accesses of a run
and shows that the log is free of data races, in every interleaving and for all stale loads
(`SystemsStack.Spsc.raceFree_accesses`). The loads of a thread's own index are relaxed and order
nothing.

## Main definitions

* `SystemsStack.Spsc.Index`, `SystemsStack.Spsc.accessOf`, `SystemsStack.Spsc.accesses`.
* `SystemsStack.Spsc.Accounts`: what the log says about the indices.

## Main results

* `SystemsStack.Spsc.accounts_isInvariant`, `SystemsStack.Spsc.raceFree_accesses`.

## References

* `include/ll/spsc_queue.hpp`, lines 14–66; `docs/blueprint/04-concurrency.md`, lines 19–44.
-/

namespace SystemsStack.Spsc

open Core

/-! ### Accesses -/

/-- The atomic locations `head_` and `tail_`. -/
inductive Index where
  | head
  | tail
  deriving DecidableEq, Repr

/-- The accesses to slots and to the indices, but for the relaxed loads. -/
abbrev SlotEvent := MemoryEvent Thread ℕ Index

variable {T : Type*} {C : Capacity} {s s' : State T} {log : List SlotEvent} {e : SlotEvent}

/-- The access that a step makes. Moving out of a slot writes it. -/
def accessOf (s : State T) : Action T → Option SlotEvent
  | .tryPush _ _ | .tryPop => none
  | .producer place =>
      match s.producer with
      | .idle | .loadTail .. => none
      | .loadHead .. => some ⟨.producer, .acquire .head place⟩
      | .writeSlot _ _ _ t _ => some ⟨.producer, .plain t true⟩
      | .storeTail .. => some ⟨.producer, .release .tail⟩
  | .consumer place =>
      match s.consumer with
      | .idle | .loadHead _ => none
      | .loadTail .. => some ⟨.consumer, .acquire .tail place⟩
      | .readSlot _ h => some ⟨.consumer, .plain h true⟩
      | .storeHead .. => some ⟨.consumer, .release .head⟩

/-- The queue and the log of its accesses. -/
def accesses (T : Type*) [SlotType T] (C : Capacity) :
    TransitionSystem (State T × List SlotEvent) (Action T) :=
  (queue T C).recording accessOf

/-! ### What the log says about the indices -/

/-- The log of a run. It accounts for both indices, and every access to a slot is the one of the
next push or pop of its thread. -/
structure Accounts (C : Capacity) (s : State T) (log : List SlotEvent) : Prop where
  tail : Handover log .tail .producer .consumer s.pushes s.tail.seen
  head : Handover log .head .consumer .producer s.pops s.head.seen
  producer : ∀ (i : ℕ) (e : SlotEvent), log[i]? = some e → ∀ l w, e = ⟨.producer, .plain l w⟩ →
    l = releases log .tail i % C.val
  consumer : ∀ (i : ℕ) (e : SlotEvent), log[i]? = some e → ∀ l w, e = ⟨.consumer, .plain l w⟩ →
    l = releases log .head i % C.val ∧ releases log .head i < s.pushes

namespace Accounts

/-- A step without an access. -/
theorem of_frame (h : Accounts C s log) (hhead : s'.head = s.head) (htail : s'.tail = s.tail) :
    Accounts C s' log := by
  have hpushes : s'.pushes = s.pushes := by rw [State.pushes, htail, State.pushes]
  have hpops : s'.pops = s.pops := by rw [State.pops, hhead, State.pops]
  refine ⟨?_, ?_, h.producer, ?_⟩
  · rw [hpushes, htail]
    exact h.tail
  · rw [hpops, hhead]
    exact h.head
  · rw [hpushes]
    exact h.consumer

/-- A step with an access. -/
theorem concat (h : Accounts C s log)
    (htail : Handover (log ++ [e]) .tail .producer .consumer s'.pushes s'.tail.seen)
    (hhead : Handover (log ++ [e]) .head .consumer .producer s'.pops s'.head.seen)
    (hpushes : s.pushes ≤ s'.pushes)
    (hproducer : ∀ l w, e = ⟨.producer, .plain l w⟩ → l = s.pushes % C.val)
    (hconsumer : ∀ l w, e = ⟨.consumer, .plain l w⟩ → l = s.pops % C.val ∧ s.pops < s.pushes) :
    Accounts C s' (log ++ [e]) where
  tail := htail
  head := hhead
  producer := (forall_releases_concat
    (P := fun n (e : SlotEvent) => ∀ l w, e = ⟨.producer, .plain l w⟩ → l = n % C.val)).mpr
      ⟨h.producer, h.tail.stores ▸ hproducer⟩
  consumer := by
    refine (forall_releases_concat
      (P := fun n (e : SlotEvent) =>
        ∀ l w, e = ⟨.consumer, .plain l w⟩ → l = n % C.val ∧ n < s'.pushes)).mpr
          ⟨fun i e hi l w he => ?_, fun l w he => ?_⟩
    · exact (h.consumer i e hi l w he).imp_right fun hlt => Nat.lt_of_lt_of_le hlt hpushes
    · rw [h.head.stores]
      exact (hconsumer l w he).imp_right fun hlt => Nat.lt_of_lt_of_le hlt hpushes

theorem step [SlotType T] (hs : Indices C s) (h : Accounts C s log) {a : Action T}
    (hstep : Step C s a s') : Accounts C s' (log ++ (accessOf s a).toList) := by
  cases hstep with
  | callPush pc | callPop pc =>
    rw [accessOf, Option.toList_none, List.append_nil]
    exact h.of_frame rfl rfl
  | loadTail pc | loadHead pc =>
    simp only [accessOf, pc, Option.toList_none, List.append_nil]
    exact h.of_frame rfl rfl
  | full pc load | room pc load ne =>
    obtain ⟨-, hle, -, rfl, -⟩ := hs.head.load load
    simp only [accessOf, pc, Option.toList_some]
    exact h.concat (h.tail.concat rfl (by simp) (.inl rfl))
      (h.head.concat rfl (by simp) (.inr ⟨rfl, hle⟩)) le_rfl (by simp) (by simp)
  | empty pc load | nonempty pc load ne =>
    obtain ⟨-, hle, -, rfl, -⟩ := hs.tail.load load
    simp only [accessOf, pc, Option.toList_some]
    exact h.concat (h.tail.concat rfl (by simp) (.inr ⟨rfl, hle⟩))
      (h.head.concat rfl (by simp) (.inl rfl)) le_rfl (by simp) (by simp)
  | writeSlot pc lt =>
    obtain ⟨rfl, -, -⟩ := hs.of_push_writeSlot pc
    simp only [accessOf, pc, Option.toList_some]
    refine h.concat (h.tail.concat rfl (by simp) (.inl rfl))
      (h.head.concat rfl (by simp) (.inl rfl)) le_rfl (fun l w he => ?_) (by simp)
    obtain ⟨rfl, -⟩ := Access.plain.inj (MemoryEvent.mk.inj he).2
    rfl
  | readSlot pc slot =>
    obtain ⟨rfl, hlt⟩ := hs.of_pop_readSlot pc
    simp only [accessOf, pc, Option.toList_some]
    refine h.concat (h.tail.concat rfl (by simp) (.inl rfl))
      (h.head.concat rfl (by simp) (.inl rfl)) le_rfl (by simp) (fun l w he => ?_)
    obtain ⟨rfl, -⟩ := Access.plain.inj (MemoryEvent.mk.inj he).2
    exact ⟨rfl, Nat.lt_of_lt_of_le hlt hs.tail.seen_le⟩
  | storeTail pc =>
    simp only [accessOf, pc, Option.toList_some]
    exact h.concat (h.tail.concat (by simp [State.pushes]) (fun _ => rfl) (.inl rfl))
      (h.head.concat rfl (by simp) (.inl rfl)) (by simp [State.pushes]) (by simp) (by simp)
  | storeHead pc =>
    simp only [accessOf, pc, Option.toList_some]
    exact h.concat (h.tail.concat rfl (by simp) (.inl rfl))
      (h.head.concat (by simp [State.pops]) (fun _ => rfl) (.inl rfl)) le_rfl (by simp) (by simp)

end Accounts

/-- What the log says about the indices, in every reachable state. -/
theorem accounts_isInvariant [SlotType T] : (accesses T C).IsInvariant fun s =>
    Indices C s.1 ∧ Accounts C s.1 s.2 :=
  (indices_isInvariant.recording accessOf).of_relative
    { tail := .nil
      head := .nil
      producer := fun i _ hi => by simp [TransitionSystem.recording] at hi
      consumer := fun i _ hi => by simp [TransitionSystem.recording] at hi }
    fun hs h hstep => by
      obtain ⟨hstep, hlog⟩ := (TransitionSystem.recording_step_iff accessOf).mp hstep
      rw [hlog]
      exact h.step hs (.of_step hstep)

/-! ### No data races -/

namespace Accounts

/-- What the consumer has done in the slot of the next push happens before it: the producer has seen
the store of `head_` that followed. -/
theorem happensBefore_push (h : Accounts C s log)
    (hroom : s.pushes + 1 < s.head.seen + C.val) {i : ℕ} {w : Bool}
    (hi : log[i]? = some ⟨.consumer, .plain (s.pushes % C.val) w⟩) {access : Access ℕ Index} :
    HappensBefore (log ++ [⟨.producer, access⟩]) i log.length := by
  obtain ⟨hslot, hlt⟩ := h.consumer i _ hi _ w rfl
  -- the slot has been used a lap ago
  have hlap : releases log .head i + C.val ≤ s.pushes := by
    by_contra hnear
    exact hlt.ne' (mod_inj_of_window hlt.le (by omega) le_rfl (by omega) hslot)
  exact h.head.happensBefore hi (by simp) (by omega)

/-- What the producer has done in the slot of the next pop happens before it: the consumer has seen
the store of `tail_` that followed. -/
theorem happensBefore_pop (hs : Indices C s) (h : Accounts C s log)
    (hpushed : s.pops < s.tail.seen) {i : ℕ} {w : Bool}
    (hi : log[i]? = some ⟨.producer, .plain (s.pops % C.val) w⟩) {access : Access ℕ Index} :
    HappensBefore (log ++ [⟨.consumer, access⟩]) i log.length := by
  have hslot := h.producer i _ hi _ w rfl
  have hle : releases log .tail i ≤ s.pushes :=
    h.tail.stores ▸ releases_mono log .tail (List.getElem?_eq_some_iff.mp hi).1.le
  -- it is the push of the element, or one of an earlier lap
  have hpast : releases log .tail i ≤ s.pops := by
    by_contra hlater
    have hlt := hs.pushes_lt_pops
    exact hlater (mod_inj_of_window (a := s.pops) (by omega) (by omega) le_rfl (by omega)
      hslot.symm).le
  exact h.tail.happensBefore hi (by simp) (by omega)

/-- One more access keeps the log free of data races. -/
theorem raceFree_step (hs : Indices C s) (h : Accounts C s log) (hlog : RaceFree log)
    {a : Action T} [SlotType T] (hstep : Step C s a s') :
    RaceFree (log ++ (accessOf s a).toList) := by
  cases hstep with
  | callPush pc | callPop pc =>
    rw [accessOf, Option.toList_none, List.append_nil]
    exact hlog
  | loadTail pc | loadHead pc =>
    simp only [accessOf, pc, Option.toList_none, List.append_nil]
    exact hlog
  | full pc | room pc | empty pc | nonempty pc | storeTail pc | storeHead pc =>
    -- an access to an index conflicts with no access to a slot
    simp only [accessOf, pc, Option.toList_some]
    refine hlog.concat ?_
    rintro i e - ⟨-, l, w, w', -, hplain, -⟩
    exact nomatch hplain
  | writeSlot pc lt =>
    obtain ⟨rfl, -, hroom⟩ := hs.of_push_writeSlot pc
    simp only [accessOf, pc, Option.toList_some]
    refine hlog.concat ?_
    rintro i ⟨thread, access⟩ hi ⟨hthread, l, w, w', haccess, hplain, -⟩
    obtain rfl : access = .plain l w := haccess
    obtain ⟨rfl, -⟩ := Access.plain.inj hplain
    cases thread with
    | producer => exact absurd rfl hthread
    | consumer => exact h.happensBefore_push hroom hi
  | readSlot pc slot =>
    obtain ⟨rfl, hpushed⟩ := hs.of_pop_readSlot pc
    simp only [accessOf, pc, Option.toList_some]
    refine hlog.concat ?_
    rintro i ⟨thread, access⟩ hi ⟨hthread, l, w, w', haccess, hplain, -⟩
    obtain rfl : access = .plain l w := haccess
    obtain ⟨rfl, -⟩ := Access.plain.inj hplain
    cases thread with
    | producer => exact h.happensBefore_pop hs hpushed hi
    | consumer => exact absurd rfl hthread

end Accounts

/-- **No data races.** In every run, whatever the loads read, any two accesses of the two threads to
one slot are ordered by happens-before. -/
theorem raceFree_accesses [SlotType T] (hs : (accesses T C).Reachable (s, log)) : RaceFree log :=
  (accounts_isInvariant.of_relative (J := fun s => RaceFree s.2) raceFree_nil
    fun hinv hlog hstep => by
      obtain ⟨hstep, heq⟩ := (TransitionSystem.recording_step_iff accessOf).mp hstep
      rw [heq]
      exact hinv.2.raceFree_step hinv.1 hlog (.of_step hstep)).of_reachable hs |>.2

/-- Both threads access the slot `0`. -/
theorem raceFree_accesses_popInFlight : ∃ log : List SlotEvent,
    (⟨.producer, .plain 0 true⟩ ∈ log ∧ ⟨.consumer, .plain 0 true⟩ ∈ log) ∧ RaceFree log := by
  obtain ⟨⟨s, log⟩, hs, hboth⟩ := TransitionSystem.exists_reachable
    (M := accesses (Option ℕ) (.twoPow 1 le_rfl))
    (p := fun s => ⟨.producer, .plain 0 true⟩ ∈ s.2 ∧ ⟨.consumer, .plain 0 true⟩ ∈ s.2)
    popInFlight (by decide)
  exact ⟨log, hboth, raceFree_accesses hs⟩

end SystemsStack.Spsc
