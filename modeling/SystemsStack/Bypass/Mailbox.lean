import SystemsStack.Bypass.PollModeRx

/-!
# What the stub delivers

The log of a run tells what a `poll` delivers: the latest payload that fits into the slot and has
been injected since the last delivery. It is delivered once, if the device is open by then
(`SystemsStack.Bypass.poll_mailbox`).

The view is labelled when the payload is delivered, with the port and the queue opened last. They
are those that the payload has arrived on as long as the device is not opened for others in between
(`SystemsStack.Bypass.poll_attributes`).

## Main definitions

* `SystemsStack.Bypass.IsOpen`, `SystemsStack.Bypass.Waiting`, `SystemsStack.Bypass.Session`,
  `SystemsStack.Bypass.LastOpened`, `SystemsStack.Bypass.Arrived`: what a log says.
* `SystemsStack.Bypass.Tracks`: the invariant of the device.
* `SystemsStack.Bypass.Attributed`, `SystemsStack.Bypass.Steady`.

## Main results

* `SystemsStack.Bypass.tracks_isInvariant`.
* `SystemsStack.Bypass.poll_mailbox`, `SystemsStack.Bypass.poll_attributes`.

## References

* `include/ll/kernel_bypass.hpp`, lines 35–108; `tests/test_roadmap_stack.cpp`, lines 148–170.
-/

namespace SystemsStack.Bypass

open Core

/-! ### What a log says -/

/-- The payload fits into the slot and is put there. -/
def Event.Accepted : Event → Prop
  | .injected payload => payload.length ≤ slotSize
  | _ => False

/-- The slot is filled anew, or emptied. -/
def Event.Replaces : Event → Prop
  | .injected payload => payload.length ≤ slotSize
  | .delivered _ => True
  | _ => False

def Event.Opens : Event → Prop
  | .opened _ _ => True
  | _ => False

/-- A session begins or ends. -/
def Event.Switches : Event → Prop
  | .opened _ _ | .closed => True
  | _ => False

instance : DecidablePred Event.Accepted
  | .injected payload => inferInstanceAs (Decidable (payload.length ≤ slotSize))
  | .opened _ _ | .closed | .missed | .delivered _ => inferInstanceAs (Decidable False)

instance : DecidablePred Event.Replaces
  | .injected payload => inferInstanceAs (Decidable (payload.length ≤ slotSize))
  | .delivered _ => inferInstanceAs (Decidable True)
  | .opened _ _ | .closed | .missed => inferInstanceAs (Decidable False)

instance : DecidablePred Event.Opens
  | .opened _ _ => inferInstanceAs (Decidable True)
  | .closed | .injected _ | .missed | .delivered _ => inferInstanceAs (Decidable False)

instance : DecidablePred Event.Switches
  | .opened _ _ | .closed => inferInstanceAs (Decidable True)
  | .injected _ | .missed | .delivered _ => inferInstanceAs (Decidable False)

variable (log : List Event)

/-- The device has been opened, and not been closed since. -/
def IsOpen : Prop := Since (· ≠ .closed) (fun e _ => e.Opens) log

/-- The payload fits, and no other payload that fits has been injected and nothing has been
delivered since. -/
def Waiting (payload : List UInt8) : Prop :=
  Since (fun e => ¬e.Replaces) (fun e _ => e = .injected payload ∧ payload.length ≤ slotSize) log

/-- The session that the device is in: it has been opened for this port and this queue, and neither
been closed nor opened again since. -/
def Session (portId queueId : UInt16) : Prop :=
  Since (fun e => ¬e.Switches) (fun e _ => e = .opened portId queueId) log

/-- The port and the queue that the device has been opened for last. -/
def LastOpened (portId queueId : UInt16) : Prop :=
  Since (fun e => ¬e.Opens) (fun e _ => e = .opened portId queueId) log

/-- A payload is waiting that has been injected in a session on this port and this queue. -/
def Arrived (portId queueId : UInt16) : Prop :=
  Since (fun e => ¬e.Replaces) (fun e past => e.Accepted ∧ Session past portId queueId) log

/-- A payload is waiting that has been injected while the device was open. -/
def ArrivedOpen : Prop :=
  Since (fun e => ¬e.Replaces) (fun e past => e.Accepted ∧ IsOpen past) log

instance : Decidable (IsOpen log) := inferInstanceAs (Decidable (Since _ _ _))

instance (portId queueId : UInt16) : Decidable (Session log portId queueId) :=
  inferInstanceAs (Decidable (Since _ _ _))

instance (portId queueId : UInt16) : Decidable (Arrived log portId queueId) :=
  inferInstanceAs (Decidable (Since _ _ _))

instance : Decidable (ArrivedOpen log) := inferInstanceAs (Decidable (Since _ _ _))

variable {log} {payload : List UInt8} {portId queueId : UInt16}

/-- An event that neither opens nor closes the device. -/
theorem isOpen_cons {e : Event} (h : ¬e.Switches) : IsOpen (e :: log) ↔ IsOpen log := by
  have hopens : ¬e.Opens := fun hopens => h (by cases e <;> trivial)
  have hclosed : e ≠ .closed := fun hclosed => h (hclosed ▸ trivial)
  exact (or_iff_right hopens).trans (and_iff_right hclosed)

theorem lastOpened_cons {e : Event} (h : ¬e.Opens) :
    LastOpened (e :: log) portId queueId ↔ LastOpened log portId queueId := by
  have hopened : e ≠ .opened portId queueId := fun hopened => h (hopened ▸ trivial)
  exact (or_iff_right hopened).trans (and_iff_right h)

/-- An event that neither fills nor empties the slot. -/
theorem waiting_cons {e : Event} (h : ¬e.Replaces) :
    Waiting (e :: log) payload ↔ Waiting log payload := by
  have hinjected : ¬(e = .injected payload ∧ payload.length ≤ slotSize) := by
    rintro ⟨rfl, hfits⟩
    exact h hfits
  exact (or_iff_right hinjected).trans (and_iff_right h)

theorem Session.isOpen (h : Session log portId queueId) : IsOpen log :=
  Since.mono h (fun _ hswitch hclosed => hswitch (hclosed ▸ trivial))
    fun _ _ hopened => hopened ▸ trivial

theorem Session.lastOpened (h : Session log portId queueId) : LastOpened log portId queueId :=
  Since.mono h (fun e hswitch hopens => hswitch (by cases e <;> trivial)) fun _ _ => id

theorem Arrived.arrivedOpen (h : Arrived log portId queueId) : ArrivedOpen log :=
  Since.mono h (fun _ => id) fun _ _ h => ⟨h.1, h.2.isOpen⟩

theorem Arrived.exists_waiting (h : Arrived log portId queueId) :
    ∃ payload, Waiting log payload := by
  obtain ⟨later, e, past, rfl, ⟨haccepted, -⟩, hlater⟩ := since_iff_exists.mp h
  cases e with
  | injected payload =>
    exact ⟨payload, since_iff_exists.mpr ⟨later, _, past, rfl, ⟨rfl, haccepted⟩, hlater⟩⟩
  | opened | closed | missed | delivered => exact haccepted.elim

/-! ### The device follows its log -/

/-- The members of the device are what the log says. -/
structure Tracks (s : State) : Prop where
  isOpen_iff : s.rx.isOpen = true ↔ IsOpen s.log
  pending_iff : s.rx.pending = true ↔ ∃ payload, Waiting s.log payload
  waiting : ∀ payload, Waiting s.log payload → s.rx.slot.toList.take s.rx.len = payload
  port : ∀ portId queueId, LastOpened s.log portId queueId →
    s.rx.port = portId ∧ s.rx.queue = queueId
  lastOpened : IsOpen s.log → LastOpened s.log s.rx.port s.rx.queue
  delivered : ∀ later bytes past, s.log = later ++ .delivered bytes :: past →
    ∃ payload, bytes = some payload ∧ Waiting past payload

namespace Tracks

variable {s s' : State} {e : Event}

/-- What has been delivered before an event is known. -/
theorem delivered_cons (hs : Tracks s) (he : ∀ bytes, e = .delivered bytes →
      ∃ payload, bytes = some payload ∧ Waiting s.log payload) :
    ∀ later bytes past, e :: s.log = later ++ .delivered bytes :: past →
      ∃ payload, bytes = some payload ∧ Waiting past payload := by
  intro later bytes past hlog
  rcases later with _ | ⟨e', later⟩
  · obtain ⟨rfl, rfl⟩ := List.cons.inj hlog
    exact he bytes rfl
  · exact hs.delivered later bytes past (List.cons.inj hlog).2

theorem openPort (hs : Tracks s) (portId queueId : UInt16) :
    Tracks (step s (.openPort portId queueId)) where
  isOpen_iff := iff_of_true rfl (.inl trivial)
  pending_iff := hs.pending_iff.trans (exists_congr fun _ => (waiting_cons id).symm)
  waiting payload h := hs.waiting payload ((waiting_cons id).mp h)
  port portId' queueId' h := by
    rcases h with h | ⟨h, -⟩
    · exact Event.opened.inj h
    · exact absurd trivial h
  lastOpened _ := .inl rfl
  delivered := hs.delivered_cons nofun

theorem close (hs : Tracks s) : Tracks (step s .close) where
  isOpen_iff := iff_of_false Bool.false_ne_true fun h => h.elim id fun h => h.1 rfl
  pending_iff := hs.pending_iff.trans (exists_congr fun _ => (waiting_cons id).symm)
  waiting payload h := hs.waiting payload ((waiting_cons id).mp h)
  port portId queueId h := hs.port portId queueId ((lastOpened_cons id).mp h)
  lastOpened h := h.elim False.elim fun h => absurd rfl h.1
  delivered := hs.delivered_cons nofun

/-- A call that concerns the slot alone. -/
theorem ofSlot (hs : Tracks s) (hlog : s'.log = e :: s.log) (hswitches : ¬e.Switches)
    (hopen : s'.rx.isOpen = s.rx.isOpen) (hport : s'.rx.port = s.rx.port)
    (hqueue : s'.rx.queue = s.rx.queue)
    (hpending : s'.rx.pending = true ↔ ∃ payload, Waiting (e :: s.log) payload)
    (hwaiting : ∀ payload, Waiting (e :: s.log) payload →
      s'.rx.slot.toList.take s'.rx.len = payload)
    (hdelivered : ∀ bytes, e = .delivered bytes →
      ∃ payload, bytes = some payload ∧ Waiting s.log payload) : Tracks s' := by
  have hopens : ¬e.Opens := fun hopens => hswitches (by cases e <;> trivial)
  obtain ⟨rx, log⟩ := s'
  subst hlog
  exact {
    isOpen_iff := by rw [hopen, hs.isOpen_iff, isOpen_cons hswitches]
    pending_iff := hpending
    waiting := hwaiting
    port := fun portId queueId h => by
      rw [hport, hqueue]
      exact hs.port portId queueId ((lastOpened_cons hopens).mp h)
    lastOpened := fun h => by
      rw [hport, hqueue]
      exact (lastOpened_cons hopens).mpr (hs.lastOpened ((isOpen_cons hswitches).mp h))
    delivered := hs.delivered_cons hdelivered }

/-- A call that changes nothing. -/
theorem skip (hs : Tracks s) (hswitches : ¬e.Switches) (hreplaces : ¬e.Replaces)
    (hdelivered : ∀ bytes, e ≠ .delivered bytes) : Tracks { s with log := e :: s.log } :=
  hs.ofSlot rfl hswitches rfl rfl rfl
    (hs.pending_iff.trans (exists_congr fun _ => (waiting_cons hreplaces).symm))
    (fun payload h => hs.waiting payload ((waiting_cons hreplaces).mp h))
    fun bytes h => absurd h (hdelivered bytes)

theorem injectForTest (hs : Tracks s) (payload : List UInt8) :
    Tracks (step s (.injectForTest payload)) := by
  rcases Nat.lt_or_ge slotSize payload.length with hlong | hfits
  · rw [step, StubPollModeRx.injectForTest_of_lt hlong]
    exact hs.skip id (Nat.not_le.mpr hlong) nofun
  · rw [step, StubPollModeRx.injectForTest_of_le hfits]
    have hwaiting (payload' : List UInt8) :
        Waiting (.injected payload :: s.log) payload' ↔ payload' = payload := by
      constructor
      · rintro (⟨h, -⟩ | ⟨h, -⟩)
        · exact (Event.injected.inj h).symm
        · exact absurd hfits h
      · rintro rfl
        exact .inl ⟨rfl, hfits⟩
    refine hs.ofSlot rfl id rfl rfl rfl (iff_of_true rfl ⟨payload, (hwaiting payload).mpr rfl⟩)
      (fun payload' h => ?_) nofun
    rw [(hwaiting payload').mp h]
    exact take_copyToSlot hfits

theorem poll (hs : Tracks s) (out : List PacketView) : Tracks (step s (.poll out)) := by
  rcases s.rx.poll_cases out with ⟨-, hpending, -, hpoll⟩ | ⟨-, hpoll⟩
  · obtain ⟨payload, hpayload⟩ := hs.pending_iff.mp hpending
    have hevent : (s.rx.poll out).event = .delivered (some payload) := by
      rw [hpoll, Polled.event, if_pos rfl, List.head?_cons, Option.bind_some,
        StubPollModeRx.bytes_view, hs.waiting payload hpayload]
    have hwaiting (payload' : List UInt8) :
        ¬Waiting (.delivered (some payload) :: s.log) payload' := by
      rintro (⟨h, -⟩ | ⟨h, -⟩)
      · exact nomatch h
      · exact h trivial
    rw [step, hevent, hpoll]
    exact hs.ofSlot rfl id rfl rfl rfl
      (iff_of_false Bool.false_ne_true fun ⟨payload', h⟩ => hwaiting payload' h)
      (fun payload' h => absurd h (hwaiting payload'))
      fun bytes h => ⟨payload, (Event.delivered.inj h).symm, hpayload⟩
  · have hevent : (s.rx.poll out).event = .missed := by
      rw [hpoll]
      exact if_neg Nat.zero_ne_one
    rw [step, hevent, hpoll]
    exact hs.skip id id nofun

end Tracks

theorem tracks_isInvariant : stubRx.IsInvariant Tracks where
  init := ⟨iff_of_false Bool.false_ne_true id, iff_of_false Bool.false_ne_true fun h => h.elim
    fun _ => id, fun _ h => h.elim, fun _ _ h => h.elim, False.elim,
    fun _ _ _ h => absurd h (by simp [stubRx])⟩
  step {s a s'} hs h := by
    obtain rfl := Option.some.inj h
    cases a with
    | openPort portId queueId => exact hs.openPort portId queueId
    | close => exact hs.close
    | injectForTest payload => exact hs.injectForTest payload
    | poll out => exact hs.poll out

/-! ### Deliveries -/

variable {s : State}

/-- **A mailbox for one packet.** In every reachable state: a `poll` returns one exactly when the
device is open, there is a view to fill, and a payload is waiting, and then the first view denotes
the bytes of that payload and the other views stay; otherwise it returns zero and changes nothing.
What a `poll` has delivered was injected after the delivery before. -/
theorem poll_mailbox (hs : stubRx.Reachable s) :
    (∀ out,
      ((s.rx.poll out).count = 1 ↔
        IsOpen s.log ∧ out ≠ [] ∧ ∃ payload, Waiting s.log payload) ∧
      ((s.rx.poll out).count = 1 → ∃ view, (s.rx.poll out).out = view :: out.tail ∧
        ∀ payload, Waiting s.log payload → (s.rx.poll out).rx.bytes view = some payload) ∧
      ((s.rx.poll out).count ≠ 1 → (s.rx.poll out).count = 0 ∧ (s.rx.poll out).out = out ∧
        (s.rx.poll out).rx = s.rx)) ∧
    ∀ later second between first past,
      s.log = later ++ .delivered second :: (between ++ .delivered first :: past) →
        ∃ payload, second = some payload ∧ Event.injected payload ∈ between := by
  have htracks := tracks_isInvariant.of_reachable hs
  refine ⟨fun out => ?_, fun later second between first past hlog => ?_⟩
  · rw [← htracks.isOpen_iff, ← htracks.pending_iff]
    rcases s.rx.poll_cases out with ⟨hopen, hpending, hne, hpoll⟩ | ⟨hnot, hpoll⟩
    · rw [hpoll]
      refine ⟨iff_of_true rfl ⟨hopen, hne, hpending⟩, fun _ => ⟨_, rfl, fun payload h => ?_⟩,
        fun h => absurd rfl h⟩
      rw [StubPollModeRx.bytes_view, htracks.waiting payload h]
    · rw [hpoll]
      exact ⟨iff_of_false Nat.zero_ne_one fun h => hnot ⟨h.1, h.2.2, h.2.1⟩,
        fun h => absurd h Nat.zero_ne_one, fun _ => ⟨rfl, rfl, rfl⟩⟩
  · obtain ⟨payload, hsecond, hwaiting⟩ := htracks.delivered later second _ hlog
    obtain ⟨e, he, -, rfl, -⟩ := Since.exists_mem_of_not hwaiting (fun h => h trivial) nofun
    exact ⟨payload, hsecond, he⟩

/-- A payload of two bytes is injected behind a longer one, and polled with two views. -/
theorem poll_mailbox_twoBytes : ∃ s, stubRx.Reachable s ∧
    Waiting s.log [7, 8] ∧ (s.rx.poll [{}, {}]).count = 1 ∧
      ∃ view, (s.rx.poll [{}, {}]).out = [view, {}] ∧
        (s.rx.poll [{}, {}]).rx.bytes view = some [7, 8] := by
  obtain ⟨s, hs, hlog⟩ := TransitionSystem.exists_reachable (M := stubRx)
    (p := fun s => s.log = [.injected [7, 8], .injected [1, 2, 3], .opened 0 0])
    [.openPort 0 0, .injectForTest [1, 2, 3], .injectForTest [7, 8]] (by decide +kernel)
  have hwaiting : Waiting s.log [7, 8] := by
    rw [hlog]
    exact .inl ⟨rfl, by decide⟩
  have hopen : IsOpen s.log := by
    rw [hlog]
    decide
  obtain ⟨hcount, hdelivers, -⟩ := (poll_mailbox hs).1 [{}, {}]
  have hone := hcount.mpr ⟨hopen, by simp, _, hwaiting⟩
  obtain ⟨view, hout, hbytes⟩ := hdelivers hone
  exact ⟨s, hs, hwaiting, hone, view, hout, hbytes _ hwaiting⟩

/-! ### Attribution -/

/-- A `poll` that delivers a payload injected while the device was open labels it with the port and
the queue of that session. -/
def Attributed (s : State) : Prop :=
  ∀ out portId queueId, (s.rx.poll out).count = 1 → Arrived s.log portId queueId →
    ∃ view, (s.rx.poll out).out = view :: out.tail ∧ view.portId = portId ∧ view.queueId = queueId

/-- While a payload is waiting that was injected in a session, the device is opened only for the
port and the queue that it has been opened for last. -/
def Steady (s : State) : Action → Prop
  | .openPort portId queueId => ArrivedOpen s.log → portId = s.rx.port ∧ queueId = s.rx.queue
  | _ => True

instance (s : State) : DecidablePred (Steady s)
  | .openPort portId queueId => inferInstanceAs
      (Decidable (ArrivedOpen s.log → portId = s.rx.port ∧ queueId = s.rx.queue))
  | .close | .injectForTest _ | .poll _ => inferInstanceAs (Decidable True)

/-- The label is right exactly when the device has been opened last for the port and the queue that
the payload has arrived on. -/
theorem Tracks.attributed_iff (hs : Tracks s) : Attributed s ↔
    ∀ portId queueId, IsOpen s.log → Arrived s.log portId queueId →
      LastOpened s.log portId queueId := by
  constructor
  · intro hattributed portId queueId hopen harrived
    have hpending := hs.pending_iff.mpr harrived.exists_waiting
    have hpoll := StubPollModeRx.poll_of_pending (hs.isOpen_iff.mpr hopen) hpending {} []
    obtain ⟨view, hout, hport, hqueue⟩ :=
      hattributed [{}] portId queueId (by rw [hpoll]) harrived
    rw [hpoll] at hout
    obtain ⟨rfl, -⟩ := List.cons.inj hout
    exact hport ▸ hqueue ▸ hs.lastOpened hopen
  · intro hlast out portId queueId hcount harrived
    rcases s.rx.poll_cases out with ⟨hopen, -, -, hpoll⟩ | ⟨-, hpoll⟩
    · rw [hpoll]
      exact ⟨_, rfl, hs.port portId queueId
        (hlast portId queueId (hs.isOpen_iff.mp hopen) harrived)⟩
    · rw [hpoll] at hcount
      exact absurd hcount Nat.zero_ne_one

/-- In runs that are steady, a payload has arrived on the port and the queue opened last. -/
theorem tracks_arrived_isInvariant : (stubRx.restrict Steady).IsInvariant fun s =>
    Tracks s ∧ ∀ portId queueId, Arrived s.log portId queueId →
      LastOpened s.log portId queueId := by
  refine (tracks_isInvariant.restrict Steady).of_relative (fun _ _ h => h.elim) ?_
  intro s a s' htracks hs h
  obtain ⟨ha, hstep⟩ := (TransitionSystem.restrict_step_iff _).mp h
  obtain rfl := Option.some.inj hstep
  intro portId queueId hnow
  cases a with
  | openPort portId' queueId' =>
    have harrived : Arrived s.log portId queueId := (hnow.resolve_left fun h => h.1).2
    obtain ⟨rfl, rfl⟩ := ha harrived.arrivedOpen
    obtain ⟨hport, hqueue⟩ := htracks.port portId queueId (hs portId queueId harrived)
    exact .inl (hport ▸ hqueue ▸ rfl)
  | close =>
    have harrived : Arrived s.log portId queueId := (hnow.resolve_left fun h => h.1).2
    exact (lastOpened_cons id).mpr (hs portId queueId harrived)
  | injectForTest payload =>
    refine (lastOpened_cons id).mpr ?_
    rcases hnow with ⟨-, hsession⟩ | ⟨-, harrived⟩
    · exact hsession.lastOpened
    · exact hs portId queueId harrived
  | poll out =>
    have hopens : ¬(s.rx.poll out).event.Opens := by
      rw [Polled.event]
      split_ifs <;> exact id
    have haccepted : ¬(s.rx.poll out).event.Accepted := by
      rw [Polled.event]
      split_ifs <;> exact id
    have harrived : Arrived s.log portId queueId := (hnow.resolve_left fun h => haccepted h.1).2
    exact (lastOpened_cons hopens).mpr (hs portId queueId harrived)

/-- **Which packets are attributed to the queue they arrived on.** In every run in which the device
is not opened for another port or queue while a payload injected in a session is waiting, every
label is right. In any reachable state, the labels are right exactly when the device, if it is
open, has been opened last for the port and the queue of the session that the payload was injected
in. -/
theorem poll_attributes (s : State) :
    ((stubRx.restrict Steady).Reachable s → Attributed s) ∧
    (stubRx.Reachable s → (Attributed s ↔ ∀ portId queueId, IsOpen s.log →
      Arrived s.log portId queueId → LastOpened s.log portId queueId)) := by
  refine ⟨fun hs => ?_, fun hs => (tracks_isInvariant.of_reachable hs).attributed_iff⟩
  obtain ⟨htracks, hlast⟩ := tracks_arrived_isInvariant.of_reachable hs
  exact htracks.attributed_iff.mpr fun portId queueId _ => hlast portId queueId

/-- The device is closed and opened again for the same port and queue. -/
theorem poll_attributes_reopened : ∃ s, Arrived s.log 1 2 ∧ IsOpen s.log ∧ Attributed s := by
  obtain ⟨s, hs, harrived, hopen⟩ := TransitionSystem.exists_reachable
    (M := stubRx.restrict Steady) (p := fun s => Arrived s.log 1 2 ∧ IsOpen s.log)
    [.openPort 1 2, .injectForTest [7], .close, .openPort 1 2] (by decide +kernel)
  exact ⟨s, harrived, hopen, (poll_attributes s).1 hs⟩

/-- A payload that has arrived on port `1` is delivered with the label of port `2`. -/
theorem not_attributed_otherPort : ¬ ∀ s, stubRx.Reachable s → Attributed s := by
  intro h
  obtain ⟨s, hs, harrived, hcount, hout⟩ := TransitionSystem.exists_reachable (M := stubRx)
    (p := fun s => Arrived s.log 1 1 ∧ (s.rx.poll [{}]).count = 1 ∧
      (s.rx.poll [{}]).out.map PacketView.portId = [2])
    [.openPort 1 1, .injectForTest [7], .close, .openPort 2 2] (by decide +kernel)
  obtain ⟨view, hview, hport, -⟩ := h s hs [{}] 1 1 hcount harrived
  rw [hview, List.map_cons, hport] at hout
  exact absurd hout (by decide)

end SystemsStack.Bypass
