import SystemsStack.Core.FairRun
import SystemsStack.Spsc.Empty
import SystemsStack.Spsc.Progress

/-!
# Handing over a stream

Two threads hand over a stream of elements through the queue: the first one pushes the elements in
their order, each until `try_push` accepts it, and the second one pops until it has as many. Both
loops only spin. These are the runs of the queue in which the calls are those of the loops
(`SystemsStack.Spsc.handoff`).

In every state the second thread has got a first part of the stream, and when both loops have ended
it has got all of it (`SystemsStack.Spsc.handoff_inOrder`). They do end
(`SystemsStack.Spsc.handoff_ends`): neither thread can be stuck, and if both are scheduled again and
again, and stores become visible to the other thread in finite time, as the language has it, then
at some time both have ended. For after the last stores everything is visible, and then one of the
two threads would store again.

## Main definitions

* `SystemsStack.Spsc.InLoop`, `SystemsStack.Spsc.handoff`, `SystemsStack.Spsc.State.Ended`.
* `SystemsStack.Spsc.Visible`: stores become visible.

## Main results

* `SystemsStack.Spsc.handoff_inOrder`, `SystemsStack.Spsc.handoff_ends`.

## References

* `examples/spsc/main.cpp`, lines 16–36; `tests/test_ll_modules.cpp`, lines 34–56.
-/

namespace SystemsStack.Spsc

open Core

variable {T : Type*} {C : Capacity} {s s' : State T} {stream : List T}

/-! ### The two loops -/

/-- The call is the next one of its loop: the first element that has not been accepted is pushed,
and a pop is tried until there have been as many as elements. -/
def InLoop (stream : List T) (s : State T) : Action T → Prop
  | .tryPush o item => o = .copy ∧ stream[s.accepted.length]? = some item
  | .tryPop => s.returned.length < stream.length
  | .producer _ | .consumer _ => True

instance [DecidableEq T] (s : State T) : DecidablePred (InLoop stream s)
  | .tryPush o item =>
      inferInstanceAs (Decidable (o = .copy ∧ stream[s.accepted.length]? = some item))
  | .tryPop => inferInstanceAs (Decidable (s.returned.length < stream.length))
  | .producer _ | .consumer _ => inferInstanceAs (Decidable True)

/-- The queue between the two loops. -/
def handoff [DecidableEq T] [SlotType T] (C : Capacity) (stream : List T) :
    TransitionSystem (State T) (Action T) :=
  (queue T C).restrict (InLoop stream)

/-- The loop of a thread has ended. -/
def State.Ended (stream : List T) (s : State T) : Thread → Prop
  | .producer => s.producer = .idle ∧ s.accepted.length = stream.length
  | .consumer => s.consumer = .idle ∧ s.returned.length = stream.length

/-- The element that is being pushed. -/
def ProducerPc.item? : ProducerPc T → Option T
  | idle => none
  | loadTail _ _ item | loadHead _ _ item _ _ | writeSlot _ _ item _ _ | storeTail _ _ item _ _ =>
      some item

/-- What the loops have done. -/
structure Loops (stream : List T) (s : State T) : Prop where
  accepted : s.accepted <+: stream
  item : ∀ v, s.producer.item? = some v → stream[s.accepted.length]? = some v
  popping : s.consumer ≠ .idle → s.returned.length < stream.length

namespace Loops

theorem concat_prefix {l : List T} {v : T} (h : l <+: stream) (hv : stream[l.length]? = some v) :
    l ++ [v] <+: stream := by
  obtain ⟨rest, rfl⟩ := h
  rw [List.getElem?_append_right (Nat.le_refl _), Nat.sub_self] at hv
  obtain ⟨w, rest, rfl⟩ := List.exists_cons_of_ne_nil (l := rest) (by rintro rfl; simp at hv)
  obtain rfl : w = v := Option.some.inj hv
  exact ⟨rest, by simp⟩

/-- A step that ends no successful call. -/
theorem of_frame (hs : Loops stream s) (haccepted : s'.accepted = s.accepted)
    (hreturned : s'.returned = s.returned)
    (hitem : ∀ v, s'.producer.item? = some v →
      s.producer.item? = some v ∨ stream[s.accepted.length]? = some v)
    (hpopping : s'.consumer ≠ .idle → s.consumer ≠ .idle ∨ s.returned.length < stream.length) :
    Loops stream s' where
  accepted := haccepted ▸ hs.accepted
  item v hv := haccepted ▸ (hitem v hv).elim (hs.item v) id
  popping h := hreturned ▸ (hpopping h).elim hs.popping id

theorem step [SlotType T] (hs : Loops stream s) {a : Action T} (ha : InLoop stream s a)
    (h : Step C s a s') : Loops stream s' := by
  cases h with
  | callPush pc =>
    refine hs.of_frame (by simp [State.accepted, State.acceptedValue])
      (by simp [State.returned, State.returnedValue]) (fun v hv => .inr ?_) .inl
    exact ha.2.trans hv
  | callPop pc =>
    exact hs.of_frame (by simp [State.accepted, State.acceptedValue])
      (by simp [State.returned, State.returnedValue]) (fun _ => .inl) (fun _ => .inr ha)
  | loadTail pc | room pc | writeSlot pc =>
    exact hs.of_frame rfl rfl (fun v hv => .inl (by rwa [pc])) .inl
  | loadHead pc | nonempty pc | readSlot pc =>
    exact hs.of_frame rfl rfl (fun _ => .inl) (fun _ => .inl (by simp [pc]))
  | full pc =>
    exact hs.of_frame (by simp [State.accepted, State.acceptedValue])
      (by simp [State.returned, State.returnedValue]) (by simp [ProducerPc.item?]) .inl
  | empty pc =>
    exact hs.of_frame (by simp [State.accepted, State.acceptedValue])
      (by simp [State.returned, State.returnedValue]) (fun _ => .inl) (absurd rfl)
  | @storeTail place c o item t next pc =>
    have hitem : stream[s.accepted.length]? = some item := hs.item item (by rw [pc]; rfl)
    set s' : State T := { s with
      tail := s.tail.store next
      producer := .idle
      history := s.history ++ [.respond c (.push item) (.pushed true)] } with hs'
    have haccepted : s'.accepted = s.accepted ++ [item] := by
      simp [hs', State.accepted, State.acceptedValue]
    have hreturned : s'.returned = s.returned := by simp [hs', State.returned, State.returnedValue]
    exact {
      accepted := haccepted ▸ concat_prefix hs.accepted hitem
      item := by simp [hs', ProducerPc.item?]
      popping := hreturned ▸ hs.popping }
  | @storeHead place c h out pc =>
    set s' : State T := { s with
      head := s.head.store ((h + 1) % C.val)
      consumer := .idle
      history := s.history ++ [.respond c .pop (.popped (some out))] } with hs'
    have haccepted : s'.accepted = s.accepted := by simp [hs', State.accepted, State.acceptedValue]
    exact {
      accepted := haccepted ▸ hs.accepted
      item := haccepted ▸ hs.item
      popping := absurd rfl }

end Loops

variable [SlotType T] [DecidableEq T]

/-- What the loops have done, in every reachable state. -/
theorem loops_isInvariant : (handoff C stream).IsInvariant fun s =>
    (Indices C s ∧ Contents C s) ∧ Loops stream s :=
  (contents_isInvariant.restrict (InLoop stream)).of_relative
    { accepted := List.nil_prefix
      item := nofun
      popping := absurd rfl }
    fun _ hs h => by
      obtain ⟨hloop, hstep⟩ := (TransitionSystem.restrict_step_iff _).mp h
      exact hs.step hloop (.of_step hstep)

/-! ### What has been handed over -/

namespace Loops

omit [DecidableEq T]

theorem pushes_le (hc : Contents C s) (hs : Loops stream s) : s.pushes ≤ stream.length :=
  hc.accepted_length ▸ hs.accepted.length_le

theorem length_returned (hi : Indices C s) (hc : Contents C s) : s.returned.length = s.pops := by
  rw [hc.returned_eq, List.length_take, hc.accepted_length, Nat.min_eq_left hi.pops_le_pushes]

/-- When everything has been pushed and popped, both loops have ended. -/
theorem ended (hi : Indices C s) (hc : Contents C s) (hs : Loops stream s)
    (hpops : s.pops = stream.length) (t : Thread) : s.Ended stream t := by
  have hreturned : s.returned.length = stream.length := (length_returned hi hc).trans hpops
  have haccepted : s.accepted.length = stream.length := by
    have hpushes := hi.pops_le_pushes
    have hle := hs.pushes_le hc
    rw [hc.accepted_length]
    omega
  cases t with
  | producer =>
    refine ⟨?_, haccepted⟩
    cases pc : s.producer with
    | idle => rfl
    | loadTail | loadHead | writeSlot | storeTail =>
      -- there is no element left to be pushed
      have hitem := hs.item _ (congrArg ProducerPc.item? pc)
      rw [List.getElem?_eq_none haccepted.ge] at hitem
      exact nomatch hitem
  | consumer =>
    refine ⟨?_, hreturned⟩
    by_contra hbusy
    exact (hs.popping hbusy).ne hreturned

/-- A thread whose loop has not ended can take its next step. -/
theorem exists_step [DecidableEq T] (hi : Indices C s) (hc : Contents C s) (hs : Loops stream s)
    {t : Thread} (ht : ¬s.Ended stream t) :
    ∃ a s', a.thread = t ∧ (handoff C stream).step s a = some s' := by
  by_cases hidle : s.Idle t
  · -- the next call of the loop
    cases t with
    | producer =>
      have pc : s.producer = .idle := hidle
      have hlt : s.accepted.length < stream.length :=
        Nat.lt_of_le_of_ne hs.accepted.length_le fun h => ht ⟨pc, h⟩
      refine ⟨.tryPush .copy stream[s.accepted.length], ?_⟩
      simp [handoff, TransitionSystem.restrict, InLoop, queue, Spsc.step, pc, Action.thread, hlt]
    | consumer =>
      have pc : s.consumer = .idle := hidle
      have hle : s.returned.length ≤ stream.length :=
        length_returned hi hc ▸ Nat.le_trans hi.pops_le_pushes (hs.pushes_le hc)
      have hlt : s.returned.length < stream.length :=
        Nat.lt_of_le_of_ne hle fun h => ht ⟨pc, h⟩
      refine ⟨.tryPop, ?_⟩
      simp [handoff, TransitionSystem.restrict, InLoop, queue, Spsc.step, pc, Action.thread, hlt]
  · obtain ⟨a, s', hthread, hcalls, hstep⟩ := Spsc.exists_step hi hc hidle
    refine ⟨a, s', hthread, (TransitionSystem.restrict_step_iff _).mpr ⟨?_, hstep⟩⟩
    cases a with
    | tryPush | tryPop => exact absurd trivial hcalls
    | producer | consumer => trivial

end Loops

/-- **The stream, in order and once.** In every reachable state what has been popped is a first part
of what has been pushed, and this of the stream, and fewer elements than the capacity are in
between. A thread that has not ended its loop can take a step; and when the second one has ended its
loop, it has got the stream, the first one has ended, and nothing is left in the queue. -/
theorem handoff_inOrder (hs : (handoff C stream).Reachable s) :
    s.returned <+: s.accepted ∧ s.accepted <+: stream ∧
      s.accepted.length < s.returned.length + C.val ∧
      (∀ t, ¬s.Ended stream t → ∃ a s', a.thread = t ∧ (handoff C stream).step s a = some s') ∧
      (s.Ended stream .consumer →
        s.returned = stream ∧ s.Ended stream .producer ∧ s.inRing C = []) := by
  obtain ⟨⟨hi, hc⟩, hl⟩ := loops_isInvariant.of_reachable hs
  have hreturned : s.returned <+: s.accepted := hc.returned_eq ▸ List.take_prefix _ _
  refine ⟨hreturned, hl.accepted, ?_, fun t => hl.exists_step hi hc, fun hended => ?_⟩
  · rw [hc.accepted_length, Loops.length_returned hi hc]
    exact hi.pushes_lt_pops
  · have hreturned : s.returned = stream := (hreturned.trans hl.accepted).eq_of_length hended.2
    have hpops : s.pops = stream.length := Loops.length_returned hi hc ▸ hended.2
    have hempty : s.held = 0 := Nat.sub_eq_zero_of_le (hpops ▸ hl.pushes_le hc)
    refine ⟨hreturned, hl.ended hi hc hpops .producer, ?_⟩
    rw [State.inRing, hi.occupiedSlots_eq, hempty]
    rfl

/-- A pop that finds nothing, a push, and the next pop, which takes what has been pushed. -/
def popAgain : List (Action (Option ℕ)) :=
  [.tryPop, .consumer 0, .tryPush .copy (some 7), .producer 0, .consumer 0, .producer 0,
    .producer 0, .producer 0, .tryPop, .consumer 0, .consumer 1, .consumer 0, .consumer 0]

/-- One element, handed over after a first pop that comes too early. -/
theorem handoff_inOrder_popAgain : ∃ s : State (Option ℕ),
    s.Ended [some 7] .consumer ∧ s.returned = [some 7] ∧ s.Ended [some 7] .producer := by
  have hrun : ∃ s, (handoff (.twoPow 1 le_rfl) [some 7]).run
      (handoff (.twoPow 1 le_rfl) [some 7]).init popAgain = some s ∧
      s.Ended [some 7] .consumer := ⟨_, rfl, rfl, rfl⟩
  obtain ⟨s, hrun, hended⟩ := hrun
  obtain ⟨hreturned, hproducer, -⟩ := (handoff_inOrder ⟨popAgain, hrun⟩).2.2.2.2 hended
  exact ⟨s, hended, hreturned, hproducer⟩

/-! ### The loops end -/

/-- The number of stores to an index. -/
def State.stored (s : State T) : Index → ℕ
  | .head => s.pops
  | .tail => s.pushes

/-- The index that a thread stores to. -/
def Thread.index : Thread → Index
  | producer => .tail
  | consumer => .head

/-- How far the producer is from its store of `tail_`, when there is room. -/
def ProducerPc.toStore : ProducerPc T → ℕ
  | idle => 5
  | loadTail .. => 4
  | loadHead .. => 3
  | writeSlot .. => 2
  | storeTail .. => 1

/-- How far the consumer is from its store of `head_`, when there is an element. -/
def ConsumerPc.toStore : ConsumerPc T → ℕ
  | idle => 5
  | loadHead _ => 4
  | loadTail .. => 3
  | readSlot .. => 2
  | storeHead .. => 1

/-- How far a thread is from its next store. -/
def State.toStore (s : State T) : Thread → ℕ
  | .producer => s.producer.toStore
  | .consumer => s.consumer.toStore

/-- There is room for a push, or an element for a pop. -/
def State.Ready (C : Capacity) (s : State T) : Thread → Prop
  | .producer => s.held + 1 < C.val
  | .consumer => 0 < s.held

/-- The step loads no older store than the last one. -/
def LoadsLast (s : State T) (a : Action T) : Prop :=
  ∀ t i place, accessOf s a = some ⟨t, .acquire i place⟩ → s.stored i ≤ place

omit [DecidableEq T] in
/-- A step of a thread whose check succeeds brings it nearer to its store, or is the store. -/
theorem Step.toStore {a : Action T} {t : Thread} (h : Step C s a s') (hs : Indices C s)
    (hload : LoadsLast s a) (hready : s.Ready C t)
    (hstored : s'.stored t.index = s.stored t.index) :
    s'.toStore t + (if a.thread = t then 1 else 0) ≤ s.toStore t := by
  cases h with
  | @full place _ _ _ _ _ _ pc load =>
    cases t with
    | consumer => exact Nat.le_refl _
    | producer =>
      obtain ⟨hseen, hle, heq, -⟩ := hs.head.load load
      have hlast : s.pops ≤ place := hload .producer .head _ (by simp only [accessOf, pc])
      obtain ⟨-, hnext⟩ := hs.of_push_loadHead pc
      have hfull := (hs.full_iff hseen hle).mp (hnext.symm.trans heq)
      have hroom : s.pushes - s.pops + 1 < C.val := hready
      omega
  | @empty place _ _ _ pc load =>
    cases t with
    | producer => exact Nat.le_refl _
    | consumer =>
      obtain ⟨hseen, hle, heq, -⟩ := hs.tail.load load
      have hlast : s.pushes ≤ place := hload .consumer .tail _ (by simp only [accessOf, pc])
      have hempty := (hs.empty_iff hseen hle).mp ((hs.of_pop_loadTail pc).symm.trans heq)
      have hheld : 0 < s.pushes - s.pops := hready
      omega
  | storeTail pc =>
    cases t with
    | producer => simp [State.stored, Thread.index, State.pushes] at hstored
    | consumer => exact Nat.le_refl _
  | storeHead pc =>
    cases t with
    | producer => exact Nat.le_refl _
    | consumer => simp [State.stored, Thread.index, State.pops] at hstored
  | callPush pc | loadTail pc | room pc | writeSlot pc =>
    cases t <;> simp [State.toStore, ProducerPc.toStore, Action.thread, pc]
  | callPop pc | loadHead pc | nonempty pc | readSlot pc =>
    cases t <;> simp [State.toStore, ConsumerPc.toStore, Action.thread, pc]

variable {E : Execution (handoff C stream)}

/-- Every store becomes visible to the other thread in finite time: the loads from some time on
read it, or a later one. -/
def Visible (E : Execution (handoff C stream)) : Prop :=
  ∀ n, ∃ m ≥ n, ∀ k ≥ m, ∀ a, E.action k = some a → ∀ t i place,
    accessOf (E.state k) a = some ⟨t, .acquire i place⟩ → (E.state n).stored i ≤ place

/-- Stores are not taken back. -/
theorem stored_le (E : Execution (handoff C stream)) (i : Index) (n : ℕ) :
    (E.state n).stored i ≤ (E.state (n + 1)).stored i := by
  cases ha : E.action n with
  | none => rw [E.rest n ha]
  | some a =>
    have hstep := ((TransitionSystem.restrict_step_iff _).mp (E.step n a ha)).2
    have hcounts := (Step.of_step hstep).counts
    cases i <;> simp only [State.stored] <;> omega

/-- At some time both threads have made their last store. -/
theorem exists_last_store (E : Execution (handoff C stream)) :
    ∃ n, ∀ m ≥ n, ∀ i, (E.state m).stored i = (E.state n).stored i := by
  have hmono (i : Index) {n m : ℕ} (h : n ≤ m) : (E.state n).stored i ≤ (E.state m).stored i :=
    E.le_of_le (f := (State.stored · i)) (n := 0) (fun m _ => stored_le E i m) (Nat.zero_le n) h
  have hbound (i : Index) (m : ℕ) : (E.state m).stored i ≤ stream.length := by
    obtain ⟨⟨hi, hc⟩, hl⟩ := loops_isInvariant.of_reachable (E.reachable m)
    have hpushes := hl.pushes_le hc
    cases i with
    | head => exact Nat.le_trans hi.pops_le_pushes hpushes
    | tail => exact hpushes
  obtain ⟨n₁, h₁⟩ := E.eventually_constant (f := (State.stored · .head)) (stored_le E .head)
    (hbound .head)
  obtain ⟨n₂, h₂⟩ := E.eventually_constant (f := (State.stored · .tail)) (stored_le E .tail)
    (hbound .tail)
  refine ⟨max n₁ n₂, fun m hm i => ?_⟩
  cases i with
  | head => exact (h₁ m (by omega)).trans (h₁ _ (Nat.le_max_left _ _)).symm
  | tail => exact (h₂ m (by omega)).trans (h₂ _ (Nat.le_max_right _ _)).symm

/-- Once there are no more stores, and all of them are visible, a thread whose check succeeds can
only have ended its loop. -/
theorem exists_ended {n : ℕ} {t : Thread} (hfair : E.FairTo (·.thread = t) (·.Ended stream t))
    (hstored : ∀ m ≥ n, ∀ i, (E.state m).stored i = (E.state n).stored i)
    (hload : ∀ m ≥ n, ∀ a, E.action m = some a → LoadsLast (E.state m) a)
    (hready : (E.state n).Ready C t) : ∃ m ≥ n, (E.state m).Ended stream t := by
  refine hfair.exists_done_of_add_le (f := (State.toStore · t)) fun m hm a ha => ?_
  have hi := (loops_isInvariant.of_reachable (E.reachable m)).1.1
  have hpushes : (E.state m).pushes = (E.state n).pushes := hstored m hm .tail
  have hpops : (E.state m).pops = (E.state n).pops := hstored m hm .head
  have hready' : (E.state m).Ready C t := by
    cases t <;> simpa only [State.Ready, State.held, hpushes, hpops] using hready
  have hnone := (hstored (m + 1) (by omega) t.index).trans (hstored m hm t.index).symm
  have h := ((TransitionSystem.restrict_step_iff _).mp (E.step m a ha)).2
  exact (Step.of_step h).toStore hi (hload m hm a ha) hready' hnone

/-- **The stream is handed over.** If each thread takes a step again and again until its loop has
ended, and stores become visible to the other thread in finite time, then from some time on both
loops have ended, and the second thread has got the stream. -/
theorem handoff_ends (hfair : ∀ t, E.FairTo (·.thread = t) (·.Ended stream t)) (hvis : Visible E) :
    ∃ n, ∀ m ≥ n, (∀ t, (E.state m).Ended stream t) ∧ (E.state m).returned = stream := by
  obtain ⟨n₀, hlast⟩ := exists_last_store E
  obtain ⟨n, hn, hvisible⟩ := hvis n₀
  have hstored (m : ℕ) (hm : m ≥ n) (i : Index) :
      (E.state m).stored i = (E.state n).stored i :=
    (hlast m (by omega) i).trans (hlast n hn i).symm
  have hload (m : ℕ) (hm : m ≥ n) (a : Action T) (ha : E.action m = some a) :
      LoadsLast (E.state m) a := fun t i place h => by
    rw [hlast m (by omega) i]
    exact hvisible m hm a ha t i place h
  have hinv (m : ℕ) := loops_isInvariant.of_reachable (E.reachable m)
  have hpops : (E.state n).pops = stream.length := by
    by_cases hheld : 0 < (E.state n).held
    · -- the consumer has ended
      obtain ⟨m, hm, -, hended⟩ := exists_ended (hfair .consumer) hstored hload hheld
      rw [← hended, Loops.length_returned (hinv m).1.1 (hinv m).1.2]
      exact (hstored m hm .head).symm
    · -- there is room, and the producer has ended
      have htwo := C.two_le
      obtain ⟨m, hm, -, hended⟩ := exists_ended (hfair .producer) hstored hload
        (show (E.state n).held + 1 < C.val by omega)
      rw [(hinv m).1.2.accepted_length] at hended
      have hpushes : (E.state m).pushes = (E.state n).pushes := hstored m hm .tail
      have hle := (hinv n).1.1.pops_le_pushes
      rw [State.held] at hheld
      omega
  refine ⟨n, fun m hm => ?_⟩
  obtain ⟨⟨hi, hc⟩, hl⟩ := hinv m
  have hended := hl.ended hi hc ((hstored m hm .head).trans hpops)
  have hreturned : (E.state m).returned <+: (E.state m).accepted :=
    hc.returned_eq ▸ List.take_prefix _ _
  exact ⟨hended, (hreturned.trans hl.accepted).eq_of_length (hended .consumer).2⟩

/-- One element, after a first pop that comes too early. -/
theorem handoff_ends_popAgain :
    ∃ E : Execution (handoff (.twoPow 1 le_rfl) [some 7]), E.action 4 = some (.consumer 0) ∧
      ∃ n, ∀ m ≥ n, (∀ t, (E.state m).Ended [some 7] t) ∧ (E.state m).returned = [some 7] := by
  obtain ⟨s, hrun, hended⟩ : ∃ s, (handoff (.twoPow 1 le_rfl) [some 7]).run
      (handoff (.twoPow 1 le_rfl) [some 7]).init popAgain = some s ∧ ∀ t, s.Ended [some 7] t := by
    refine ⟨_, rfl, fun t => ?_⟩
    cases t <;> exact ⟨rfl, rfl⟩
  refine ⟨.ofRun hrun, rfl,
    handoff_ends (fun t => Execution.ofRun_fairTo hrun (hended t)) fun n => ?_⟩
  refine ⟨max n popAgain.length, Nat.le_max_left _ _, fun k hk a ha => ?_⟩
  exact nomatch (Execution.ofRun_action hrun (by omega)).symm.trans ha

end SystemsStack.Spsc
