import SystemsStack.Core.Atomic
import SystemsStack.Core.FairRun
import SystemsStack.Core.HappensBefore
import SystemsStack.Spsc.ResponseOrder

/-!
# Payload, then flag

The example of the memory orders: one thread writes a payload and then stores to a flag with release
semantics; another one loads the flag with acquire semantics until it is set, and then reads the
payload. The loads may be stale. The two accesses to the payload are ordered, and what is read is
what has been written (`SystemsStack.Spsc.ReadyFlag.observed_eq`); and the loop ends
(`SystemsStack.Spsc.ReadyFlag.observed_eventually`).

## Main definitions

* `SystemsStack.Spsc.ReadyFlag.State`, `SystemsStack.Spsc.ReadyFlag.step`,
  `SystemsStack.Spsc.ReadyFlag.program`.
* `SystemsStack.Spsc.ReadyFlag.Published`: the payload is written before the flag is set.
* `SystemsStack.Spsc.ReadyFlag.Accounts`: what the log says about the flag.

## Main results

* `SystemsStack.Spsc.ReadyFlag.observed_eq`, `SystemsStack.Spsc.ReadyFlag.observed_eventually`.

## References

* `examples/memory_order/main.cpp`; `docs/blueprint/04-concurrency.md`, lines 46–55.
-/

namespace SystemsStack.Spsc.ReadyFlag

open Core

/-! ### The two threads -/

/-- Where the producer is. -/
inductive ProducerPc where
  | writeValue
  | storeReady
  | done
  deriving DecidableEq, Repr

/-- Where the consumer is. -/
inductive ConsumerPc where
  | loadReady
  | readValue
  | done
  deriving DecidableEq, Repr

/-- The locals of `main`, and its two threads. -/
structure State where
  /-- The payload `slot.value`. -/
  value : ℤ := 0
  ready : Atomic Bool := { initial := false }
  observed : ℤ := 0
  producer : ProducerPc := .writeValue
  consumer : ConsumerPc := .loadReady
  deriving DecidableEq, Repr

/-- Who moves; a load of `ready` reads the store at `place`. -/
inductive Action where
  | producer
  | consumer (place : ℕ)
  deriving DecidableEq, Repr

/-- The thread that moves. -/
def Action.thread : Action → Thread
  | producer => .producer
  | consumer _ => .consumer

/-- One step of a thread. -/
def step (s : State) : Action → Option State
  | .producer =>
      match s.producer with
      | .writeValue => some { s with value := 42, producer := .storeReady }
      | .storeReady => some { s with ready := s.ready.store true, producer := .done }
      | .done => none
  | .consumer place =>
      match s.consumer with
      | .loadReady =>
          (s.ready.load place).map fun (b, ready) =>
            { s with ready, consumer := if b then .readValue else .loadReady }
      | .readValue => some { s with observed := s.value, consumer := .done }
      | .done => none

/-- What `main` returns after both threads have been joined. -/
def State.result (s : State) : ℤ := if s.observed = 42 then 0 else 1

/-- The accesses to the payload and to the flag. -/
abbrev FlagEvent := MemoryEvent Thread Unit Unit

/-- The access that a step makes. -/
def accessOf (s : State) : Action → Option FlagEvent
  | .producer =>
      match s.producer with
      | .writeValue => some ⟨.producer, .plain () true⟩
      | .storeReady => some ⟨.producer, .release ()⟩
      | .done => none
  | .consumer place =>
      match s.consumer with
      | .loadReady => some ⟨.consumer, .acquire () place⟩
      | .readValue => some ⟨.consumer, .plain () false⟩
      | .done => none

/-- The threads of `main`. -/
def program : TransitionSystem State Action where
  init := {}
  step := step

/-- The threads and the log of their accesses. -/
def accesses : TransitionSystem (State × List FlagEvent) Action := program.recording accessOf

/-! ### Steps -/

/-- The steps, one constructor for each access and each of its outcomes. -/
inductive Step (s : State) : Action → State → Prop
  | writeValue (pc : s.producer = .writeValue) :
      Step s .producer { s with value := 42, producer := .storeReady }
  | storeReady (pc : s.producer = .storeReady) :
      Step s .producer { s with ready := s.ready.store true, producer := .done }
  | unset {place ready} (pc : s.consumer = .loadReady)
      (load : s.ready.load place = some (false, ready)) :
      Step s (.consumer place) { s with ready }
  | set {place ready} (pc : s.consumer = .loadReady)
      (load : s.ready.load place = some (true, ready)) :
      Step s (.consumer place) { s with ready, consumer := .readValue }
  | readValue {place} (pc : s.consumer = .readValue) :
      Step s (.consumer place) { s with observed := s.value, consumer := .done }

variable {s s' : State} {a : Action} {log : List FlagEvent}

theorem Step.of_step (h : step s a = some s') : Step s a s' := by
  cases a with
  | producer =>
    cases pc : s.producer <;> simp only [step, pc, Option.some.injEq, reduceCtorEq] at h
    · exact h ▸ .writeValue pc
    · exact h ▸ .storeReady pc
  | consumer place =>
    cases pc : s.consumer <;>
      simp only [step, pc, Option.some.injEq, Option.map_eq_some_iff, reduceCtorEq] at h
    · obtain ⟨⟨b, ready⟩, hload, rfl⟩ := h
      cases b with
      | false => simpa [pc] using Step.unset pc hload
      | true => exact .set pc hload
    · exact h ▸ .readValue pc

/-! ### Payload and flag -/

/-- The payload has been written before the flag is set, and the flag has been seen set before the
payload is read. -/
structure Published (s : State) : Prop where
  ready : s.ready.Tracks (0 < ·)
  unset : s.producer ≠ .done → s.ready.stores = []
  set : s.producer = .done → 0 < s.ready.stores.length
  value : s.producer ≠ .writeValue → s.value = 42
  consumer : s.consumer ≠ .loadReady → 0 < s.ready.seen
  observed : s.consumer = .done → s.observed = 42

namespace Published

/-- The flag has not been seen set before it is set. -/
theorem seen_eq_zero (hs : Published s) (hp : s.producer ≠ .done) : s.ready.seen = 0 := by
  have hle := hs.ready.seen_le
  rwa [hs.unset hp, List.length_nil, Nat.le_zero] at hle

/-- The flag has been seen set only if it is set. -/
theorem producer_done (hs : Published s) (hseen : 0 < s.ready.seen) : s.producer = .done := by
  by_contra hp
  exact hseen.ne' (hs.seen_eq_zero hp)

theorem step (hs : Published s) (h : Step s a s') : Published s' := by
  cases h with
  | writeValue pc =>
    have hnone := hs.unset (by simp [pc])
    exact ⟨hs.ready, fun _ => hnone, by simp, fun _ => rfl, hs.consumer, hs.observed⟩
  | storeReady pc =>
    have hvalue := hs.value (by simp [pc])
    exact ⟨hs.ready.store (by simp), absurd rfl, by simp, fun _ => hvalue, hs.consumer, hs.observed⟩
  | unset pc load =>
    obtain ⟨-, -, -, rfl, htracks⟩ := hs.ready.load load
    have hnot : s.consumer ≠ .done := by simp [pc]
    exact ⟨htracks, hs.unset, hs.set, hs.value, fun h => absurd pc h, fun h => absurd h hnot⟩
  | set pc load =>
    obtain ⟨-, -, hset, rfl, htracks⟩ := hs.ready.load load
    exact ⟨htracks, hs.unset, hs.set, hs.value, fun _ => by simpa using hset, by simp⟩
  | readValue pc =>
    have hseen := hs.consumer (by simp [pc])
    have hvalue := hs.value (by simp [hs.producer_done hseen])
    exact ⟨hs.ready, hs.unset, hs.set, hs.value, fun _ => hseen, fun _ => hvalue⟩

end Published

theorem published_isInvariant : program.IsInvariant Published where
  init := {
    ready := .mk_initial rfl
    unset := fun _ => rfl
    set := by simp [program]
    value := absurd rfl
    consumer := absurd rfl
    observed := by simp [program] }
  step hs h := hs.step (.of_step h)

/-! ### What the log says about the flag -/

/-- The log accounts for the flag; the payload has been written before the flag is set, and read
after it has been seen set. -/
structure Accounts (s : State) (log : List FlagEvent) : Prop where
  flag : Handover log () .producer .consumer s.ready.stores.length s.ready.seen
  written : ∀ (i : ℕ) (e : FlagEvent), log[i]? = some e → ∀ w, e = ⟨.producer, .plain () w⟩ →
    releases log () i = 0
  read : ∀ (i : ℕ) (e : FlagEvent), log[i]? = some e → ∀ w, e = ⟨.consumer, .plain () w⟩ →
    0 < s.ready.seen

namespace Accounts

/-- One more access. -/
theorem concat {e : FlagEvent} (h : Accounts s log)
    (hflag : Handover (log ++ [e]) () .producer .consumer s'.ready.stores.length s'.ready.seen)
    (hwritten : ∀ w, e = ⟨.producer, .plain () w⟩ → s.ready.stores = [])
    (hread : ∀ w, e = ⟨.consumer, .plain () w⟩ → 0 < s.ready.seen)
    (hseen : s.ready.seen ≤ s'.ready.seen) : Accounts s' (log ++ [e]) where
  flag := hflag
  written := by
    refine (forall_releases_concat
      (P := fun n (e : FlagEvent) => ∀ w, e = ⟨.producer, .plain () w⟩ → n = 0)).mpr
        ⟨h.written, fun w he => ?_⟩
    rw [h.flag.stores, hwritten w he, List.length_nil]
  read := (forall_releases_concat (a := ())
    (P := fun _ (e : FlagEvent) => ∀ w, e = ⟨.consumer, .plain () w⟩ → 0 < s'.ready.seen)).mpr
      ⟨fun i e hi w he => Nat.lt_of_lt_of_le (h.read i e hi w he) hseen,
        fun w he => Nat.lt_of_lt_of_le (hread w he) hseen⟩

theorem step (hs : Published s) (h : Accounts s log) (hstep : Step s a s') :
    Accounts s' (log ++ (accessOf s a).toList) := by
  cases hstep with
  | writeValue pc =>
    have hnone := hs.unset (by simp [pc])
    simp only [accessOf, pc, Option.toList_some]
    exact h.concat (h.flag.concat rfl (by simp) (.inl rfl)) (fun _ _ => hnone) (by simp) le_rfl
  | storeReady pc =>
    simp only [accessOf, pc, Option.toList_some]
    exact h.concat (h.flag.concat (by simp) (fun _ => rfl) (.inl rfl)) (by simp) (by simp) le_rfl
  | unset pc load | set pc load =>
    obtain ⟨hseen, hle, -, rfl, -⟩ := hs.ready.load load
    simp only [accessOf, pc, Option.toList_some]
    exact h.concat (h.flag.concat rfl (by simp) (.inr ⟨rfl, hle⟩)) (by simp) (by simp) hseen
  | readValue pc =>
    have hseen := hs.consumer (by simp [pc])
    simp only [accessOf, pc, Option.toList_some]
    exact h.concat (h.flag.concat rfl (by simp) (.inl rfl)) (by simp) (fun _ _ => hseen) le_rfl

/-- One more access keeps the log free of data races. -/
theorem raceFree_step (hs : Published s) (h : Accounts s log) (hlog : RaceFree log)
    (hstep : Step s a s') : RaceFree (log ++ (accessOf s a).toList) := by
  cases hstep with
  | storeReady pc | unset pc load | set pc load =>
    simp only [accessOf, pc, Option.toList_some]
    refine hlog.concat ?_
    rintro i e - ⟨-, l, w, w', -, hplain, -⟩
    cases hplain
  | writeValue pc =>
    -- the payload has not been read
    simp only [accessOf, pc, Option.toList_some]
    refine hlog.concat ?_
    rintro i ⟨thread, access⟩ hi ⟨hthread, l, w, w', haccess, -, -⟩
    obtain rfl : access = .plain () w := haccess
    cases thread with
    | producer => exact absurd rfl hthread
    | consumer => exact absurd (hs.seen_eq_zero (by simp [pc])) (h.read i _ hi w rfl).ne'
  | readValue pc =>
    -- the flag has been loaded, and stored before this
    simp only [accessOf, pc, Option.toList_some]
    refine hlog.concat ?_
    rintro i ⟨thread, access⟩ hi ⟨hthread, l, w, w', haccess, -, -⟩
    obtain rfl : access = .plain () w := haccess
    cases thread with
    | consumer => exact absurd rfl hthread
    | producer =>
      have hseen := hs.consumer (by simp [pc])
      exact h.flag.happensBefore hi (by simp) (h.written i _ hi w rfl ▸ hseen)

end Accounts

theorem accounts_isInvariant : accesses.IsInvariant fun s =>
    Published s.1 ∧ Accounts s.1 s.2 ∧ RaceFree s.2 :=
  (published_isInvariant.recording accessOf).of_relative
    ⟨⟨.nil, fun i _ hi => by simp [TransitionSystem.recording] at hi,
      fun i _ hi => by simp [TransitionSystem.recording] at hi⟩, raceFree_nil⟩
    fun hs h hstep => by
      obtain ⟨hstep, hlog⟩ := (TransitionSystem.recording_step_iff accessOf).mp hstep
      have hstep := Step.of_step hstep
      rw [hlog]
      exact ⟨h.1.step hs hstep, h.1.raceFree_step hs h.2 hstep⟩

/-- **The payload is published by the flag.** In every run, whatever the loads read, the accesses to
the payload are ordered by happens-before; and when the consumer has read it, it has read the value
that the producer has written. -/
theorem observed_eq (hs : accesses.Reachable (s, log)) :
    RaceFree log ∧ (s.consumer = .done → s.observed = 42 ∧ s.result = 0) := by
  obtain ⟨hpublished, -, hlog⟩ := accounts_isInvariant.of_reachable hs
  refine ⟨hlog, fun hdone => ?_⟩
  have hobserved := hpublished.observed hdone
  exact ⟨hobserved, if_pos hobserved⟩

/-- Both threads, with a load of the flag that comes too early. -/
def loadTwice : List Action :=
  [.producer, .consumer 0, .producer, .consumer 1, .consumer 0]

/-- The consumer has read the payload. -/
theorem observed_eq_loadTwice : ∃ (s : State) (log : List FlagEvent),
    s.consumer = .done ∧ RaceFree log ∧ s.observed = 42 := by
  obtain ⟨⟨s, log⟩, hs, hdone⟩ := TransitionSystem.exists_reachable (M := accesses)
    (p := fun s => s.1.consumer = .done) loadTwice (by decide)
  obtain ⟨hlog, hobserved⟩ := observed_eq hs
  exact ⟨s, log, hdone, hlog, (hobserved hdone).1⟩

/-! ### The loop ends -/

/-- The steps that a thread has left, if the flag is seen set. -/
def State.stepsLeft (s : State) : Thread → ℕ
  | .producer =>
      match s.producer with
      | .writeValue => 2
      | .storeReady => 1
      | .done => 0
  | .consumer =>
      match s.consumer with
      | .loadReady => 2
      | .readValue => 1
      | .done => 0

/-- The thread has ended. -/
def State.Done (s : State) : Thread → Prop
  | .producer => s.producer = .done
  | .consumer => s.consumer = .done

/-- A step of a thread is one step less to take, unless it is a load that reads the initial value of
the flag. -/
theorem Step.stepsLeft (h : Step s a s') {t : Thread} (hs : s.ready.Tracks (0 < ·))
    (hload : t = .consumer → ∀ place, accessOf s a = some ⟨.consumer, .acquire () place⟩ →
      0 < place) :
    s'.stepsLeft t + (if a.thread = t then 1 else 0) ≤ s.stepsLeft t := by
  cases h with
  | writeValue pc | storeReady pc => cases t <;> simp [State.stepsLeft, Action.thread, pc]
  | @unset place ready pc load =>
    obtain ⟨-, -, hunset, -⟩ := hs.load load
    cases t with
    | producer => exact Nat.le_refl _
    | consumer =>
      have hpos := hload rfl place (by simp only [accessOf, pc])
      simp [hpos] at hunset
  | set pc load | readValue pc => cases t <;> simp [State.stepsLeft, Action.thread, pc]

/-- What has been done stays done. -/
theorem Step.done {t : Thread} (h : Step s a s') (ht : s.Done t) : s'.Done t := by
  cases h <;> cases t <;> simp_all [State.Done]

/-- The set flag becomes visible to the consumer in finite time. -/
def Visible (E : Execution program) : Prop :=
  ∀ n, ∃ m ≥ n, ∀ k ≥ m, ∀ a, E.action k = some a → ∀ place,
    accessOf (E.state k) a = some ⟨.consumer, .acquire () place⟩ →
      (E.state n).ready.stores.length ≤ place

/-- A thread ends, if its loads see the set flag from some time on. -/
theorem exists_done {E : Execution program} {n : ℕ} {t : Thread}
    (hfair : E.FairTo (·.thread = t) (·.Done t))
    (hload : t = .consumer → ∀ m ≥ n, ∀ a, E.action m = some a → ∀ place,
      accessOf (E.state m) a = some ⟨.consumer, .acquire () place⟩ → 0 < place) :
    ∃ m ≥ n, (E.state m).Done t := by
  refine hfair.exists_done_of_add_le (f := (State.stepsLeft · t)) fun m hm a ha => ?_
  have hready := (published_isInvariant.of_reachable (E.reachable m)).ready
  exact (Step.of_step (E.step m a ha)).stepsLeft hready fun ht => hload ht m hm a ha

/-- **The payload is read.** If each thread is scheduled again and again until it has ended, and the
store of the flag becomes visible in finite time, then from some time on both threads have ended,
and the consumer has read what the producer has written. -/
theorem observed_eventually {E : Execution program}
    (hfair : ∀ t, E.FairTo (·.thread = t) (·.Done t)) (hvis : Visible E) :
    ∃ n, ∀ m ≥ n, (∀ t, (E.state m).Done t) ∧ (E.state m).observed = 42 := by
  have hinv (m : ℕ) : Published (E.state m) := published_isInvariant.of_reachable (E.reachable m)
  have hdone {t : Thread} {n m : ℕ} (hm : n ≤ m) : (E.state n).Done t → (E.state m).Done t := by
    refine E.le_of_le (f := (State.Done · t)) (n := 0) (fun k _ => ?_) (Nat.zero_le n) hm
    cases ha : E.action k with
    | none => exact (E.rest k ha).symm ▸ le_rfl
    | some a => exact (Step.of_step (E.step k a ha)).done
  obtain ⟨n₁, -, hproducer⟩ := exists_done (n := 0) (hfair .producer) (by simp)
  obtain ⟨n₂, hn₂, hvisible⟩ := hvis n₁
  -- from then on the flag is seen set
  obtain ⟨n, hn, hconsumer⟩ := exists_done (hfair .consumer) fun _ m hm a ha place h =>
    Nat.lt_of_lt_of_le ((hinv n₁).set hproducer) (hvisible m hm a ha place h)
  refine ⟨n, fun m hm => ⟨fun t => ?_, ?_⟩⟩
  · cases t with
    | producer => exact hdone (by omega) hproducer
    | consumer => exact hdone hm hconsumer
  · exact (hinv m).observed (hdone hm hconsumer)

/-- The run in which a load of the flag comes too early. -/
theorem observed_eventually_loadTwice : ∃ E : Execution program,
    E.action 1 = some (.consumer 0) ∧
      ∃ n, ∀ m ≥ n, (∀ t, (E.state m).Done t) ∧ (E.state m).observed = 42 := by
  obtain ⟨s, hrun, hended⟩ : ∃ s, program.run program.init loadTwice = some s ∧ ∀ t, s.Done t :=
    ⟨_, rfl, fun t => by cases t <;> rfl⟩
  refine ⟨.ofRun hrun, rfl,
    observed_eventually (fun t => Execution.ofRun_fairTo hrun (hended t)) fun n => ?_⟩
  refine ⟨max n loadTwice.length, Nat.le_max_left _ _, fun k hk a ha => ?_⟩
  exact nomatch (Execution.ofRun_action hrun (by omega)).symm.trans ha

end SystemsStack.Spsc.ReadyFlag
