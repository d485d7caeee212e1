import SystemsStack.Spsc.Machine

/-!
# The invariant of the single-producer single-consumer queue

The two indices track the numbers of pushes and pops, each modulo the capacity. A load of the
other thread's index may be stale, but never so far that a lap of the ring is missed: the pushes
stay less than a capacity ahead of the pop the producer has seen last, and the pops do not pass
the push the consumer has seen last. This carries the meaning of the two comparisons of masked
indices through every wrap-around, and places the threads' locals (`SystemsStack.Spsc.Indices`).

On top of it, the slots between the indices hold the accepted values that have not been returned,
the first of them in the local `out` of the consumer while it has left its slot
(`SystemsStack.Spsc.Contents`).

## Main definitions

* `SystemsStack.Spsc.Indices`, `SystemsStack.Spsc.Contents`.

## Main results

* `SystemsStack.Spsc.indices_isInvariant`, `SystemsStack.Spsc.contents_isInvariant`.
-/

namespace SystemsStack.Spsc

open Core

variable {T : Type*} {C : Capacity} {s s' : State T}

/-! ### Indices -/

/-- The locals of the producer: once the full-check has succeeded, one more push stays less than
a capacity ahead of the pop the producer has seen last. -/
def ProducerInv (C : Capacity) (s : State T) : Prop :=
  match s.producer with
  | .idle | .loadTail .. => True
  | .loadHead _ _ _ t next => t = s.pushes % C.val ∧ next = (s.pushes + 1) % C.val
  | .writeSlot _ _ _ t next | .storeTail _ _ _ t next =>
      t = s.pushes % C.val ∧ next = (s.pushes + 1) % C.val ∧ s.pushes + 1 < s.head.seen + C.val

/-- The locals of the consumer: once the empty-check has succeeded, the next pop is one of the
pushes the consumer has seen. -/
def ConsumerInv (C : Capacity) (s : State T) : Prop :=
  match s.consumer with
  | .idle | .loadHead _ => True
  | .loadTail _ h => h = s.pops % C.val
  | .readSlot _ h | .storeHead _ h _ => h = s.pops % C.val ∧ s.pops < s.tail.seen

/-- The invariant of the two indices and of the locals computed from them. -/
structure Indices (C : Capacity) (s : State T) : Prop where
  head : s.head.Tracks (· % C.val)
  tail : s.tail.Tracks (· % C.val)
  pops_le : s.pops ≤ s.tail.seen
  pushes_lt : s.pushes < s.head.seen + C.val
  producer : ProducerInv C s
  consumer : ConsumerInv C s

namespace Indices

section Locals

variable {c h t next : ℕ} {o : Overload} {item : T}

theorem of_push_loadHead (hs : Indices C s) (pc : s.producer = .loadHead c o item t next) :
    t = s.pushes % C.val ∧ next = (s.pushes + 1) % C.val := by
  simpa only [ProducerInv, pc] using hs.producer

theorem of_push_writeSlot (hs : Indices C s) (pc : s.producer = .writeSlot c o item t next) :
    t = s.pushes % C.val ∧ next = (s.pushes + 1) % C.val ∧ s.pushes + 1 < s.head.seen + C.val := by
  simpa only [ProducerInv, pc] using hs.producer

theorem of_push_storeTail (hs : Indices C s) (pc : s.producer = .storeTail c o item t next) :
    t = s.pushes % C.val ∧ next = (s.pushes + 1) % C.val ∧ s.pushes + 1 < s.head.seen + C.val := by
  simpa only [ProducerInv, pc] using hs.producer

theorem of_pop_loadTail (hs : Indices C s) (pc : s.consumer = .loadTail c h) :
    h = s.pops % C.val := by
  simpa only [ConsumerInv, pc] using hs.consumer

theorem of_pop_readSlot (hs : Indices C s) (pc : s.consumer = .readSlot c h) :
    h = s.pops % C.val ∧ s.pops < s.tail.seen := by
  simpa only [ConsumerInv, pc] using hs.consumer

theorem of_pop_storeHead (hs : Indices C s) (pc : s.consumer = .storeHead c h item) :
    h = s.pops % C.val ∧ s.pops < s.tail.seen := by
  simpa only [ConsumerInv, pc] using hs.consumer

end Locals

theorem pops_le_pushes (hs : Indices C s) : s.pops ≤ s.pushes :=
  Nat.le_trans hs.pops_le hs.tail.seen_le

/-- The pushes are less than a capacity ahead of the pops. -/
theorem pushes_lt_pops (hs : Indices C s) : s.pushes < s.pops + C.val :=
  Nat.lt_of_lt_of_le hs.pushes_lt (Nat.add_le_add_right hs.head.seen_le C.val)

theorem head_eq (hs : Indices C s) : s.head.current = s.pops % C.val := hs.head.current_eq

theorem tail_eq (hs : Indices C s) : s.tail.current = s.pushes % C.val := hs.tail.current_eq

/-- No two of the positions from the next pop to the next push use the same slot. -/
theorem slot_inj (hs : Indices C s) {i j : ℕ} (hi : s.pops ≤ i) (hi' : i ≤ s.pushes)
    (hj : s.pops ≤ j) (hj' : j ≤ s.pushes) (h : i % C.val = j % C.val) : i = j := by
  have hlt := hs.pushes_lt_pops
  exact mod_inj_of_window hi (by omega) hj (by omega) h

/-- The number of elements held is at most one less than the capacity. -/
theorem held_le (hs : Indices C s) : s.held ≤ C.val - 1 := by
  have := hs.pushes_lt_pops
  simp only [State.held]
  omega

/-- A full-check against a store of `head_` at or after the one seen last compares the true
distance: the indices differ exactly when one more push stays less than a capacity ahead. -/
theorem full_iff (hs : Indices C s) {place : ℕ} (h₁ : s.head.seen ≤ place)
    (h₂ : place ≤ s.pops) :
    (s.pushes + 1) % C.val = place % C.val ↔ s.pushes + 1 = place + C.val := by
  have hlt := hs.pushes_lt
  have hle := hs.pops_le_pushes
  constructor
  · intro h
    rw [← Nat.add_mod_right place] at h
    exact mod_inj_of_window (a := place + 1) (by omega) (by omega)
      (by have := C.pos; omega) (by omega) h
  · intro h
    rw [h, Nat.add_mod_right]

/-- An empty-check against a store of `tail_` at or after the one seen last compares the true
positions. -/
theorem empty_iff (hs : Indices C s) {place : ℕ} (h₁ : s.tail.seen ≤ place)
    (h₂ : place ≤ s.pushes) : s.pops % C.val = place % C.val ↔ s.pops = place := by
  have hlt := hs.pushes_lt_pops
  have hle := hs.pops_le
  constructor
  · exact mod_inj_of_window (a := s.pops) le_rfl (by omega) (by omega) (by omega)
  · exact fun h => by rw [h]

theorem step [SlotType T] (hs : Indices C s) {a : Action T} (h : Step C s a s') : Indices C s' := by
  cases h with
  | callPush pc => exact { hs with producer := trivial }
  | callPop pc => exact { hs with consumer := trivial }
  | loadTail pc =>
    exact { hs with producer := ⟨hs.tail_eq, by rw [hs.tail_eq, Nat.mod_add_mod]; rfl⟩ }
  | full pc load =>
    obtain ⟨h₁, h₂, -, rfl, htracks⟩ := hs.head.load load
    exact { hs with
      head := htracks
      pushes_lt := Nat.lt_of_lt_of_le hs.pushes_lt (Nat.add_le_add_right h₁ C.val)
      producer := trivial }
  | @room place c o item t next v head pc load ne =>
    obtain ⟨h₁, h₂, rfl, rfl, htracks⟩ := hs.head.load load
    obtain ⟨rfl, rfl⟩ := hs.of_push_loadHead pc
    have hlt := hs.pushes_lt
    have hroom : s.pushes + 1 ≠ place + C.val := fun h => ne ((hs.full_iff h₁ h₂).mpr h)
    exact { hs with
      head := htracks
      pushes_lt := Nat.lt_of_lt_of_le hs.pushes_lt (Nat.add_le_add_right h₁ C.val)
      producer := ⟨rfl, rfl, by change s.pushes + 1 < place + C.val; omega⟩ }
  | writeSlot pc lt => exact { hs with producer := hs.of_push_writeSlot pc }
  | storeTail pc =>
    obtain ⟨-, rfl, hlt⟩ := hs.of_push_storeTail pc
    exact { hs with
      tail := hs.tail.store rfl
      pushes_lt := by simpa [State.pushes] using hlt
      producer := trivial }
  | loadHead pc => exact { hs with consumer := hs.head_eq }
  | empty pc load =>
    obtain ⟨h₁, h₂, -, rfl, htracks⟩ := hs.tail.load load
    exact { hs with
      tail := htracks
      pops_le := Nat.le_trans hs.pops_le h₁
      consumer := trivial }
  | @nonempty place c h v tail pc load ne =>
    obtain ⟨h₁, h₂, rfl, rfl, htracks⟩ := hs.tail.load load
    obtain rfl := hs.of_pop_loadTail pc
    have hle := hs.pops_le
    have hne : s.pops ≠ place := fun h => ne ((hs.empty_iff h₁ h₂).mpr h)
    exact { hs with
      tail := htracks
      pops_le := Nat.le_trans hs.pops_le h₁
      consumer := ⟨rfl, by change s.pops < place; omega⟩ }
  | readSlot pc slot => exact { hs with consumer := hs.of_pop_readSlot pc }
  | storeHead pc =>
    obtain ⟨rfl, hlt⟩ := hs.of_pop_storeHead pc
    exact { hs with
      head := hs.head.store (Nat.mod_add_mod _ _ _)
      pops_le := by simpa [State.pops, Nat.succ_le_iff] using hlt
      consumer := trivial }

end Indices

theorem indices_isInvariant [SlotType T] : (queue T C).IsInvariant (Indices C) where
  init := {
    head := .mk_initial rfl
    tail := .mk_initial rfl
    pops_le := le_rfl
    pushes_lt := by simpa [queue, init, State.pushes] using C.pos
    producer := trivial
    consumer := trivial }
  step hs h := hs.step (.of_step h)

/-! ### Contents -/

/-- The value that a `try_pop` has moved out of its slot and not returned yet. -/
def ConsumerPc.out? : ConsumerPc T → Option T
  | .storeHead _ _ out => some out
  | _ => none

/-- The value that a `try_push` has written to its slot and not published yet. -/
def ProducerPc.written? : ProducerPc T → Option T
  | .storeTail _ _ item _ _ => some item
  | _ => none

/-- The position of the first accepted value that is still in its slot. -/
def State.inSlots (s : State T) : ℕ := s.pops + s.consumer.out?.toList.length

/-- The slots between the indices hold the accepted values that have not been returned; the
first of them is in the local `out` of the consumer once it has been moved out of its slot. -/
structure Contents [SlotType T] (C : Capacity) (s : State T) : Prop where
  slots_length : s.slots.length = C.val
  accepted_length : s.accepted.length = s.pushes
  returned_eq : s.returned = s.accepted.take s.pops
  occupied : ∀ i, s.inSlots ≤ i → i < s.pushes → s.slots[i % C.val]? = s.accepted[i]?
  out : ∀ v, s.consumer.out? = some v →
    s.accepted[s.pops]? = some v ∧ s.slots[s.pops % C.val]? = some (SlotType.movedFrom v)
  written : ∀ v, s.producer.written? = some v → s.slots[s.pushes % C.val]? = some v

namespace Contents

variable [SlotType T]

/-- A step that touches neither the slots nor the indices, and no value between them, keeps the
contents. -/
theorem of_frame (hc : Contents C s) (hslots : s'.slots = s.slots)
    (haccepted : s'.accepted = s.accepted) (hreturned : s'.returned = s.returned)
    (hpushes : s'.pushes = s.pushes) (hpops : s'.pops = s.pops)
    (hout : s'.consumer.out? = s.consumer.out?)
    (hwritten : ∀ v, s'.producer.written? = some v → s.producer.written? = some v) :
    Contents C s' where
  slots_length := hslots ▸ hc.slots_length
  accepted_length := by rw [haccepted, hpushes, hc.accepted_length]
  returned_eq := by rw [hreturned, haccepted, hpops, hc.returned_eq]
  occupied i hi hi' := by
    rw [State.inSlots, hpops, hout] at hi
    rw [hslots, haccepted]
    exact hc.occupied i hi (hpushes ▸ hi')
  out v hv := by
    rw [haccepted, hslots, hpops]
    exact hc.out v (hout ▸ hv)
  written v hv := by
    rw [hslots, hpushes]
    exact hc.written v (hwritten v hv)

/-- The producer writes the slot of the next push. -/
theorem writeSlot (hs : Indices C s) (hc : Contents C s) {c : ℕ} {o : Overload} {item : T}
    {t next : ℕ} {arg : Option T} (pc : s.producer = .writeSlot c o item t next)
    (lt : t < s.slots.length) :
    Contents C { s with
      slots := s.slots.set t item
      argument := arg
      producer := .storeTail c o item t next } := by
  obtain ⟨rfl, -, -⟩ := hs.of_push_writeSlot pc
  have hle := hs.pops_le_pushes
  have hother {i : ℕ} (hi : s.pops ≤ i) (hi' : i < s.pushes) :
      s.pushes % C.val ≠ i % C.val := fun h =>
    hi'.ne' (hs.slot_inj hle le_rfl hi hi'.le h)
  exact {
    slots_length := by rw [List.length_set, hc.slots_length]
    accepted_length := hc.accepted_length
    returned_eq := hc.returned_eq
    occupied := fun i hi hi' => by
      rw [List.getElem?_set_ne (hother (Nat.le_trans (Nat.le_add_right _ _) hi) hi')]
      exact hc.occupied i hi hi'
    out := fun v hv => by
      have hlt : s.pops < s.pushes := by
        rw [← hc.accepted_length]
        exact (List.getElem?_eq_some_iff.mp (hc.out v hv).1).1
      change _ ∧ (s.slots.set _ _)[s.pops % C.val]? = _
      rw [List.getElem?_set_ne (hother le_rfl hlt)]
      exact hc.out v hv
    written := fun v hv => by
      change (s.slots.set _ _)[s.pushes % C.val]? = _
      rw [List.getElem?_set_self lt]
      exact hv }

/-- The producer publishes the slot it has written. -/
theorem storeTail (hs : Indices C s) (hc : Contents C s) {c : ℕ} {o : Overload} {item : T}
    {t next : ℕ} (pc : s.producer = .storeTail c o item t next) :
    Contents C { s with
      tail := s.tail.store next
      producer := .idle
      history := s.history ++ [.respond c (.push item) (.pushed true)] } := by
  have hle := hs.pops_le_pushes
  have hitem : s.slots[s.pushes % C.val]? = some item := hc.written item (by rw [pc]; rfl)
  set s' : State T := { s with
    tail := s.tail.store next
    producer := .idle
    history := s.history ++ [.respond c (.push item) (.pushed true)] } with hs'
  have haccepted : s'.accepted = s.accepted ++ [item] := by
    simp [hs', State.accepted, State.acceptedValue]
  have hreturned : s'.returned = s.returned := by
    simp [hs', State.returned, State.returnedValue]
  have hpushes : s'.pushes = s.pushes + 1 := by simp [hs', State.pushes]
  have hpops : s'.pops = s.pops := rfl
  exact {
    slots_length := hc.slots_length
    accepted_length := by rw [haccepted, hpushes, List.length_append, hc.accepted_length]; rfl
    returned_eq := by
      rw [hreturned, haccepted, hpops, hc.returned_eq,
        List.take_append_of_le_length (hc.accepted_length ▸ hle)]
    occupied := fun i hi hi' => by
      rw [hpushes] at hi'
      rw [haccepted]
      rcases Nat.lt_or_eq_of_le (Nat.le_of_lt_succ hi') with hlt | rfl
      · rw [List.getElem?_append_left (hc.accepted_length ▸ hlt)]
        exact hc.occupied i hi hlt
      · rw [← hc.accepted_length, List.getElem?_concat_length, hc.accepted_length]
        exact hitem
    out := fun v hv => by
      have hv' := hc.out v hv
      rw [haccepted, hpops, List.getElem?_append_left (List.getElem?_eq_some_iff.mp hv'.1).1]
      exact hv'
    written := nofun }

/-- The consumer moves the value of the next pop out of its slot. -/
theorem readSlot (hs : Indices C s) (hc : Contents C s) {c h : ℕ} {out : T}
    (pc : s.consumer = .readSlot c h) (slot : s.slots[h]? = some out) :
    Contents C { s with
      slots := s.slots.set h (SlotType.movedFrom out)
      consumer := .storeHead c h out } := by
  obtain ⟨rfl, hseen⟩ := hs.of_pop_readSlot pc
  have hlt : s.pops < s.pushes := Nat.lt_of_lt_of_le hseen hs.tail.seen_le
  have hother {i : ℕ} (hi : s.pops < i) (hi' : i ≤ s.pushes) :
      s.pops % C.val ≠ i % C.val := fun h =>
    hi.ne (hs.slot_inj le_rfl hlt.le hi.le hi' h)
  have hin : s.inSlots = s.pops := by rw [State.inSlots, pc]; rfl
  exact {
    slots_length := by rw [List.length_set, hc.slots_length]
    accepted_length := hc.accepted_length
    returned_eq := hc.returned_eq
    occupied := fun i hi hi' => by
      have hi : s.pops < i := hi
      rw [List.getElem?_set_ne (hother hi hi'.le)]
      exact hc.occupied i (hin ▸ hi.le) hi'
    out := fun v hv => by
      obtain rfl : out = v := Option.some.inj hv
      change s.accepted[s.pops]? = _ ∧ (s.slots.set _ _)[s.pops % C.val]? = _
      rw [List.getElem?_set_self (List.getElem?_eq_some_iff.mp slot).1, ← slot]
      exact ⟨(hc.occupied s.pops hin.le hlt).symm, rfl⟩
    written := fun v hv => by
      change (s.slots.set _ _)[s.pushes % C.val]? = _
      rw [List.getElem?_set_ne (hother hlt le_rfl)]
      exact hc.written v hv }

/-- The consumer gives the slot it has read back to the producer and returns the value. -/
theorem storeHead (hc : Contents C s) {c h i : ℕ} {out : T}
    (pc : s.consumer = .storeHead c h out) :
    Contents C { s with
      head := s.head.store i
      consumer := .idle
      history := s.history ++ [.respond c .pop (.popped (some out))] } := by
  have hout : s.consumer.out? = some out := by rw [pc]; rfl
  set s' : State T := { s with
    head := s.head.store i
    consumer := .idle
    history := s.history ++ [.respond c .pop (.popped (some out))] } with hs'
  have haccepted : s'.accepted = s.accepted := by
    simp [hs', State.accepted, State.acceptedValue]
  have hreturned : s'.returned = s.returned ++ [out] := by
    simp [hs', State.returned, State.returnedValue]
  have hpops : s'.pops = s.pops + 1 := by simp [hs', State.pops]
  have hin : s'.inSlots = s.inSlots := by
    rw [State.inSlots, State.inSlots, hpops, hout]
    rfl
  exact {
    slots_length := hc.slots_length
    accepted_length := by rw [haccepted]; exact hc.accepted_length
    returned_eq := by
      rw [hreturned, haccepted, hpops, List.take_add_one, (hc.out out hout).1, hc.returned_eq]
      rfl
    occupied := fun j hj hj' => by
      rw [haccepted]
      exact hc.occupied j (hin ▸ hj) hj'
    out := nofun
    written := hc.written }

theorem step (hs : Indices C s) (hc : Contents C s) {a : Action T} (h : Step C s a s') :
    Contents C s' := by
  cases h with
  | writeSlot pc lt => exact hc.writeSlot hs pc lt
  | storeTail pc => exact hc.storeTail hs pc
  | readSlot pc slot => exact hc.readSlot hs pc slot
  | storeHead pc => exact hc.storeHead pc
  -- the other accesses move no value and store no index
  | full pc load | room pc load ne =>
    exact hc.of_frame rfl (by simp [State.accepted, State.acceptedValue])
      (by simp [State.returned, State.returnedValue]) rfl
      (congrArg List.length (Atomic.stores_of_load load)) rfl
      (by simp [ProducerPc.written?])
  | empty pc load | nonempty pc load ne =>
    exact hc.of_frame rfl (by simp [State.accepted, State.acceptedValue])
      (by simp [State.returned, State.returnedValue])
      (congrArg List.length (Atomic.stores_of_load load)) rfl
      (by simp [ConsumerPc.out?, pc]) (by simp)
  | callPush pc | callPop pc | loadTail pc | loadHead pc =>
    exact hc.of_frame rfl (by simp [State.accepted, State.acceptedValue])
      (by simp [State.returned, State.returnedValue]) rfl rfl
      (by simp [ConsumerPc.out?, pc]) (by simp [ProducerPc.written?])

end Contents

/-- The indices and the contents hold in every reachable state. -/
theorem contents_isInvariant [SlotType T] :
    (queue T C).IsInvariant fun s => Indices C s ∧ Contents C s :=
  indices_isInvariant.of_relative
    { slots_length := List.length_replicate
      accepted_length := rfl
      returned_eq := rfl
      occupied := fun _ _ h => absurd h (Nat.not_lt_zero _)
      out := nofun
      written := nofun }
    fun hs hc h => hc.step hs (.of_step h)

end SystemsStack.Spsc
