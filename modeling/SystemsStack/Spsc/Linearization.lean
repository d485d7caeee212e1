import SystemsStack.Spsc.ResponseOrder

/-!
# Linearizability of the single-producer single-consumer queue

When every load reads the last store, the full-check and the empty-check are exact at the instant
of the load of the other thread's index: `try_push` returns `false` if and only if the queue then
holds `Capacity - 1` elements, and `try_pop` returns `nullopt` if and only if it then holds none.
Every history is then linearizable to the bounded first-in first-out queue of `Capacity - 1`
elements, in the order of its responses.

## Main definitions

* `SystemsStack.Spsc.ReadsLast`, `SystemsStack.Spsc.sequentialQueue`: the sequentially consistent
  interleavings.
* `SystemsStack.Spsc.Answers`: what the answer of a call says about the number of elements held.

## Main results

* `SystemsStack.Spsc.full_iff_held`, `SystemsStack.Spsc.empty_iff_held`: the two checks.
* `SystemsStack.Spsc.linearizable_boundedFifo`.

## References

* `include/ll/spsc_queue.hpp`, lines 31–66; `tests/test_ll_modules.cpp`, lines 20–32.
-/

namespace SystemsStack.Spsc

open Core

variable {T : Type*} {C : Capacity} {s s' : State T} {Full Empty : List T → Prop}

/-! ### The two checks against the last stores -/

/-- The load of the other thread's index reads the last store. -/
def ReadsLast (s : State T) : Action T → Prop
  | .producer place => place = s.pops
  | .consumer place => place = s.pushes
  | _ => True

instance (s : State T) : DecidablePred (ReadsLast s)
  | .producer place => inferInstanceAs (Decidable (place = s.pops))
  | .consumer place => inferInstanceAs (Decidable (place = s.pushes))
  | .tryPush _ _ | .tryPop => inferInstanceAs (Decidable True)

/-- Against the last store of `head_`, the full-check is exact. -/
theorem full_iff_held (hs : Indices C s) {c t next h : ℕ} {o : Overload} {item : T}
    {head : Atomic ℕ} (pc : s.producer = .loadHead c o item t next)
    (load : s.head.load s.pops = some (h, head)) : next = h ↔ s.held = C.val - 1 := by
  obtain ⟨-, hnext⟩ := hs.of_push_loadHead pc
  obtain ⟨hseen, hle, rfl, -⟩ := hs.head.load load
  have hpos := C.pos
  have hpops := hs.pops_le_pushes
  rw [hnext, hs.full_iff hseen hle, State.held]
  omega

/-- Against the last store of `tail_`, the empty-check is exact. -/
theorem empty_iff_held (hs : Indices C s) {c h t : ℕ} {tail : Atomic ℕ}
    (pc : s.consumer = .loadTail c h) (load : s.tail.load s.pushes = some (t, tail)) :
    h = t ↔ s.held = 0 := by
  have hindex := hs.of_pop_loadTail pc
  obtain ⟨hseen, hle, rfl, -⟩ := hs.tail.load load
  have hpops := hs.pops_le_pushes
  rw [hindex, hs.empty_iff hseen hle, State.held]
  omega

/-! ### What the answers say -/

/-- The numbers of elements held when the call `c` has loaded the other thread's index. -/
def State.loadsOf (s : State T) (c : ℕ) : List ℕ :=
  (s.loads.filter fun l => l.1 = c).map Prod.snd

/-- A `try_push` that has passed its full-check has loaded `head_` once, when the queue held less
than `Capacity - 1` elements. -/
def ProducerAnswers (C : Capacity) (s : State T) : Prop :=
  match s.producer with
  | .idle => True
  | .loadTail c .. | .loadHead c .. => s.loadsOf c = []
  | .writeSlot c .. | .storeTail c .. => ∃ n, s.loadsOf c = [n] ∧ n ≠ C.val - 1

/-- A `try_pop` that has passed its empty-check has loaded `tail_` once, when the queue held some
element. -/
def ConsumerAnswers (s : State T) : Prop :=
  match s.consumer with
  | .idle => True
  | .loadHead c | .loadTail c _ => s.loadsOf c = []
  | .readSlot c _ | .storeHead c _ _ => ∃ n, s.loadsOf c = [n] ∧ n ≠ 0

/-- Every call that has responded has loaded the other thread's index once, and its answer says
whether the queue was full, or empty, at the instant of that load. -/
structure Answers (C : Capacity) (s : State T) : Prop where
  fresh : ∀ c, s.calls ≤ c → s.loadsOf c = []
  producer : ProducerAnswers C s
  consumer : ConsumerAnswers s
  pushed : ∀ c v ok, .respond c (.push v) (.pushed ok) ∈ s.history →
    ∃ n, s.loadsOf c = [n] ∧ (ok = false ↔ n = C.val - 1)
  popped : ∀ c out, .respond c .pop (.popped out) ∈ s.history →
    ∃ n, s.loadsOf c = [n] ∧ (out = none ↔ n = 0)

theorem loadsOf_self {c n : ℕ} (hloads : s'.loads = s.loads ++ [(c, n)]) :
    s'.loadsOf c = s.loadsOf c ++ [n] := by
  simp [State.loadsOf, hloads]

theorem loadsOf_of_ne {c d n : ℕ} (hloads : s'.loads = s.loads ++ [(c, n)]) (hne : c ≠ d) :
    s'.loadsOf d = s.loadsOf d := by
  simp [State.loadsOf, hloads, hne]

theorem ProducerAnswers.of_eq (h : ProducerAnswers C s) (hproducer : s'.producer = s.producer)
    (hloads : ∀ c op, s.producer.call? = some (c, op) → s'.loadsOf c = s.loadsOf c) :
    ProducerAnswers C s' := by
  rw [ProducerAnswers, hproducer]
  rw [ProducerAnswers] at h
  cases pc : s.producer with
  | idle => trivial
  | loadTail c _ _ | loadHead c _ _ _ _ | writeSlot c _ _ _ _ | storeTail c _ _ _ _ =>
    rw [pc] at h hloads
    simpa only [hloads c _ rfl] using h

theorem ConsumerAnswers.of_eq (h : ConsumerAnswers s) (hconsumer : s'.consumer = s.consumer)
    (hloads : ∀ c op, s.consumer.call? = some (c, op) → s'.loadsOf c = s.loadsOf c) :
    ConsumerAnswers s' := by
  rw [ConsumerAnswers, hconsumer]
  rw [ConsumerAnswers] at h
  cases pc : s.consumer with
  | idle => trivial
  | loadHead c | loadTail c _ | readSlot c _ | storeHead c _ _ =>
    rw [pc] at h hloads
    simpa only [hloads c _ rfl] using h

namespace Answers

/-- An access that loads no other index; a call that answers has loaded it before. -/
theorem of_frame (ha : Answers C s) (hloads : s'.loads = s.loads) (hcalls : s.calls ≤ s'.calls)
    (hproducer : ProducerAnswers C s') (hconsumer : ConsumerAnswers s')
    (hpushed : ∀ c v ok, .respond c (.push v) (.pushed ok) ∈ s'.history →
      .respond c (.push v) (.pushed ok) ∈ s.history ∨
        ∃ n, s.loadsOf c = [n] ∧ (ok = false ↔ n = C.val - 1))
    (hpopped : ∀ c out, .respond c .pop (.popped out) ∈ s'.history →
      .respond c .pop (.popped out) ∈ s.history ∨
        ∃ n, s.loadsOf c = [n] ∧ (out = none ↔ n = 0)) :
    Answers C s' where
  fresh c hc := by
    rw [State.loadsOf, hloads]
    exact ha.fresh c (Nat.le_trans hcalls hc)
  producer := hproducer
  consumer := hconsumer
  pushed c v ok h := by
    rw [State.loadsOf, hloads]
    exact (hpushed c v ok h).elim (ha.pushed c v ok) id
  popped c out h := by
    rw [State.loadsOf, hloads]
    exact (hpopped c out h).elim (ha.popped c out) id

/-- A call loads the other thread's index for the first time, and may answer at once. -/
theorem of_load (ha : Answers C s) {c n : ℕ} (hc : s.loadsOf c = []) (hlt : c < s.calls)
    (hloads : s'.loads = s.loads ++ [(c, n)]) (hcalls : s'.calls = s.calls)
    (hproducer : ProducerAnswers C s') (hconsumer : ConsumerAnswers s')
    (hpushed : ∀ d v ok, .respond d (.push v) (.pushed ok) ∈ s'.history →
      .respond d (.push v) (.pushed ok) ∈ s.history ∨ d = c ∧ (ok = false ↔ n = C.val - 1))
    (hpopped : ∀ d out, .respond d .pop (.popped out) ∈ s'.history →
      .respond d .pop (.popped out) ∈ s.history ∨ d = c ∧ (out = none ↔ n = 0)) :
    Answers C s' := by
  have hself : s'.loadsOf c = [n] := by rw [loadsOf_self hloads, hc, List.nil_append]
  have hother {d m : ℕ} (hd : s.loadsOf d = [m]) : s'.loadsOf d = [m] := by
    have hne : c ≠ d := fun h => by simp [← h, hc] at hd
    rw [loadsOf_of_ne hloads hne, hd]
  exact {
    fresh := fun d hd => by
      rw [hcalls] at hd
      rw [loadsOf_of_ne hloads (Nat.ne_of_lt (Nat.lt_of_lt_of_le hlt hd)), ha.fresh d hd]
    producer := hproducer
    consumer := hconsumer
    pushed := fun d v ok h => by
      rcases hpushed d v ok h with h | ⟨rfl, hok⟩
      · obtain ⟨m, hm, hok⟩ := ha.pushed d v ok h
        exact ⟨m, hother hm, hok⟩
      · exact ⟨n, hself, hok⟩
    popped := fun d out h => by
      rcases hpopped d out h with h | ⟨rfl, hout⟩
      · obtain ⟨m, hm, hout⟩ := ha.popped d out h
        exact ⟨m, hother hm, hout⟩
      · exact ⟨n, hself, hout⟩ }

end Answers

/-! ### Sequentially consistent interleavings -/

variable [SlotType T]

/-- The queue under the sequentially consistent interleavings of the atomic accesses. -/
def sequentialQueue (T : Type*) [SlotType T] (C : Capacity) :
    TransitionSystem (State T) (Action T) :=
  (queue T C).restrict ReadsLast

/-- The strict conditions for refusing and finding nothing hold when the loads read the last
stores. -/
theorem Ordered.step_readsLast (hs : Indices C s) (hc : Contents C s)
    (ho : Ordered C (fun q => q.length = C.val - 1) (fun q => q = []) s) {a : Action T}
    (hlast : ReadsLast s a) (h : Step C s a s') :
    Ordered C (fun q => q.length = C.val - 1) (fun q => q = []) s' := by
  refine responseOrder_step hs hc ho h (fun ha _ _ heq => ?_) (fun ha _ _ heq => ?_)
  · subst ha
    rw [ReadsLast] at hlast
    rw [length_queued hc, State.held]
    omega
  · subst ha
    rw [ReadsLast] at hlast
    rw [← List.length_eq_zero_iff, length_queued hc, State.held]
    omega

theorem Answers.step (hs : Indices C s) (ho : Ordered C Full Empty s) (ha : Answers C s)
    {a : Action T} (hlast : ReadsLast s a) (h : Step C s a s') : Answers C s' := by
  have hproducer := ha.producer
  have hconsumer := ha.consumer
  cases h with
  | callPush pc =>
    exact ha.of_frame rfl (Nat.le_succ _) (ha.fresh s.calls le_rfl)
      (hconsumer.of_eq rfl fun _ _ _ => rfl) (fun d v ok hd => .inl (by simpa using hd))
      (fun d out hd => .inl (by simpa using hd))
  | callPop pc =>
    exact ha.of_frame rfl (Nat.le_succ _) (hproducer.of_eq rfl fun _ _ _ => rfl)
      (ha.fresh s.calls le_rfl) (fun d v ok hd => .inl (by simpa using hd))
      (fun d out hd => .inl (by simpa using hd))
  | loadTail pc | writeSlot pc lt =>
    simp only [ProducerAnswers, pc] at hproducer
    exact ha.of_frame rfl le_rfl hproducer (hconsumer.of_eq rfl fun _ _ _ => rfl)
      (fun d v ok => .inl) (fun d out => .inl)
  | loadHead pc | readSlot pc slot =>
    simp only [ConsumerAnswers, pc] at hconsumer
    exact ha.of_frame rfl le_rfl (hproducer.of_eq rfl fun _ _ _ => rfl) hconsumer
      (fun d v ok => .inl) (fun d out => .inl)
  | @full place c o item t next head pc load =>
    simp only [ProducerAnswers, pc] at hproducer
    simp only [ReadsLast] at hlast
    subst hlast
    have hheld : s.held = C.val - 1 := (full_iff_held hs pc load).mp rfl
    have hcall : s.producer.call? = some (c, .push item) := by rw [pc]; rfl
    refine ha.of_load (n := s.held) hproducer (ho.producer_lt hcall) rfl rfl trivial
      (hconsumer.of_eq rfl fun d op hd => ?_) (fun d v ok hd => ?_) (fun d out hd => ?_)
    · exact loadsOf_of_ne rfl (ho.call_ne hcall hd)
    · rcases List.mem_append.mp hd with hd | hd
      · exact .inl hd
      · obtain ⟨rfl, -, rfl⟩ : d = c ∧ v = item ∧ ok = false := by simpa using hd
        exact .inr ⟨rfl, by simp [hheld]⟩
    · exact .inl (by simpa using hd)
  | @room place c o item t next v head pc load ne =>
    simp only [ProducerAnswers, pc] at hproducer
    simp only [ReadsLast] at hlast
    subst hlast
    have hheld : s.held ≠ C.val - 1 := fun h => ne ((full_iff_held hs pc load).mpr h)
    have hcall : s.producer.call? = some (c, .push item) := by rw [pc]; rfl
    have hself : s.loadsOf c ++ [s.held] = [s.held] := by rw [hproducer, List.nil_append]
    refine ha.of_load (n := s.held) hproducer (ho.producer_lt hcall) rfl rfl
      ⟨s.held, (loadsOf_self rfl).trans hself, hheld⟩
      (hconsumer.of_eq rfl fun d op hd => ?_) (fun d v ok => .inl) (fun d out => .inl)
    exact loadsOf_of_ne rfl (ho.call_ne hcall hd)
  | @storeTail place c o item t next pc =>
    simp only [ProducerAnswers, pc] at hproducer
    obtain ⟨n, hn, hne⟩ := hproducer
    refine ha.of_frame rfl le_rfl trivial (hconsumer.of_eq rfl fun _ _ _ => rfl)
      (fun d v ok hd => ?_) (fun d out hd => .inl (by simpa using hd))
    rcases List.mem_append.mp hd with hd | hd
    · exact .inl hd
    · obtain ⟨rfl, -, rfl⟩ : d = c ∧ v = item ∧ ok = true := by simpa using hd
      exact .inr ⟨n, hn, by simp [hne]⟩
  | @empty place c i tail pc load =>
    simp only [ConsumerAnswers, pc] at hconsumer
    simp only [ReadsLast] at hlast
    subst hlast
    have hheld : s.held = 0 := (empty_iff_held hs pc load).mp rfl
    have hcall : s.consumer.call? = some (c, .pop) := by rw [pc]; rfl
    refine ha.of_load (n := s.held) hconsumer (ho.consumer_lt hcall) rfl rfl
      (hproducer.of_eq rfl fun d op hd => ?_) trivial (fun d v ok hd => ?_) (fun d out hd => ?_)
    · exact loadsOf_of_ne rfl (ho.call_ne hd hcall).symm
    · exact .inl (by simpa using hd)
    · rcases List.mem_append.mp hd with hd | hd
      · exact .inl hd
      · obtain ⟨rfl, rfl⟩ : d = c ∧ out = none := by simpa using hd
        exact .inr ⟨rfl, by simp [hheld]⟩
  | @nonempty place c i t tail pc load ne =>
    simp only [ConsumerAnswers, pc] at hconsumer
    simp only [ReadsLast] at hlast
    subst hlast
    have hheld : s.held ≠ 0 := fun h => ne ((empty_iff_held hs pc load).mpr h)
    have hcall : s.consumer.call? = some (c, .pop) := by rw [pc]; rfl
    have hself : s.loadsOf c ++ [s.held] = [s.held] := by rw [hconsumer, List.nil_append]
    refine ha.of_load (n := s.held) hconsumer (ho.consumer_lt hcall) rfl rfl
      (hproducer.of_eq rfl fun d op hd => ?_) ⟨s.held, (loadsOf_self rfl).trans hself, hheld⟩
      (fun d v ok => .inl) (fun d out => .inl)
    exact loadsOf_of_ne rfl (ho.call_ne hd hcall).symm
  | @storeHead place c i out pc =>
    simp only [ConsumerAnswers, pc] at hconsumer
    obtain ⟨n, hn, hne⟩ := hconsumer
    refine ha.of_frame rfl le_rfl (hproducer.of_eq rfl fun _ _ _ => rfl) trivial
      (fun d v ok hd => .inl (by simpa using hd)) (fun d out' hd => ?_)
    rcases List.mem_append.mp hd with hd | hd
    · exact .inl hd
    · obtain ⟨rfl, rfl⟩ : d = c ∧ out' = some out := by simpa using hd
      exact .inr ⟨n, hn, by simp [hne]⟩

/-- In the sequentially consistent interleavings, the order of the responses is a linearization
to the strict queue, and the answers tell when it is full or empty. -/
theorem answers_isInvariant :
    (sequentialQueue T C).IsInvariant fun s => (Indices C s ∧ Contents C s) ∧
      Ordered C (fun q => q.length = C.val - 1) (fun q => q = []) s ∧ Answers C s := by
  refine (contents_isInvariant.restrict ReadsLast).of_relative ?_ ?_
  · exact ⟨ordered_init C _ _, {
      fresh := fun _ _ => rfl
      producer := trivial
      consumer := trivial
      pushed := fun _ _ _ h => absurd h List.not_mem_nil
      popped := fun _ _ h => absurd h List.not_mem_nil }⟩
  · rintro s a s' ⟨hs, hc⟩ ⟨ho, ha⟩ h
    obtain ⟨hlast, hstep⟩ := (TransitionSystem.restrict_step_iff _).mp h
    have hstep := Step.of_step hstep
    exact ⟨ho.step_readsLast hs hc hlast hstep, ha.step hs ho hlast hstep⟩

/-- **Exact answers and linearizability.** In every sequentially consistent interleaving, a
`try_push` returns `false` if and only if the queue held `Capacity - 1` elements at the instant
of its one load of `head_`, a `try_pop` returns `nullopt` if and only if it held none at the
instant of its one load of `tail_`, and the history is linearizable to the bounded first-in
first-out queue of `Capacity - 1` elements. -/
theorem linearizable_boundedFifo (hs : (sequentialQueue T C).Reachable s) :
    (∀ c v ok, .respond c (.push v) (.pushed ok) ∈ s.history →
      ∃ n, s.loadsOf c = [n] ∧ (ok = false ↔ n = C.val - 1)) ∧
    (∀ c out, .respond c .pop (.popped out) ∈ s.history →
      ∃ n, s.loadsOf c = [n] ∧ (out = none ↔ n = 0)) ∧
    Linearizable (boundedFifo T (C.val - 1)) s.history := by
  obtain ⟨-, ho, ha⟩ := answers_isInvariant.of_reachable hs
  exact ⟨ha.pushed, ha.popped, _, _, ho.linearization⟩

/-- Two pushes and two pops on a queue of two slots, one after the other. -/
def fullThenEmpty : List (Action (Option ℕ)) :=
  [.tryPush .copy (some 7), .producer 0, .producer 0, .producer 0, .producer 0,
    .tryPush .copy (some 8), .producer 0, .producer 0,
    .tryPop, .consumer 1, .consumer 1, .consumer 1, .consumer 1,
    .tryPop, .consumer 1, .consumer 1]

/-- The second push finds the queue full, and the second pop finds it empty. -/
theorem linearizable_boundedFifo_fullThenEmpty :
    ∃ s : State (Option ℕ),
      (.respond 1 (.push (some 8)) (.pushed false) ∈ s.history ∧ s.loadsOf 1 = [1]) ∧
      (.respond 3 .pop (.popped none) ∈ s.history ∧ s.loadsOf 3 = [0]) ∧
      Linearizable (boundedFifo (Option ℕ) 1) s.history := by
  obtain ⟨s, hs, hpush, hpop⟩ := TransitionSystem.exists_reachable
    (M := sequentialQueue (Option ℕ) (.twoPow 1 le_rfl))
    (p := fun s =>
      (.respond 1 (.push (some 8)) (.pushed false) ∈ s.history ∧ s.loadsOf 1 = [1]) ∧
      (.respond 3 .pop (.popped none) ∈ s.history ∧ s.loadsOf 3 = [0])) fullThenEmpty (by decide)
  exact ⟨s, hpush, hpop, (linearizable_boundedFifo hs).2.2⟩

end SystemsStack.Spsc
