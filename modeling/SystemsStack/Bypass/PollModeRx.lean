import SystemsStack.Core.Since
import SystemsStack.Core.TransitionSystem

/-!
# The stub of a poll-mode receiver

`ll::bypass::StubPollModeRx` stands in for a network card that is polled: a test injects a payload,
and the next `poll` fills a view of it. The device has one slot, whose bytes behind the length of
the payload are those of earlier ones. This file embeds it, and its runs with a log of what has been
called and delivered.

Source: `include/ll/kernel_bypass.hpp`, lines 35–108.

## Main definitions

* `SystemsStack.Bypass.PacketView`, `SystemsStack.Bypass.StubPollModeRx`, with `openPort`, `close`,
  `injectForTest`, `poll`.
* `SystemsStack.Bypass.Event`, `SystemsStack.Bypass.stubRx`: the runs of the device as a transition
  system.
-/

namespace SystemsStack.Bypass

open Core

/-! ### The device -/

/-- A pointer to bytes: null, the start of the slot of the device, or some other address. -/
inductive BytePtr where
  | null
  | slot
  | address (a : ℕ)
  deriving DecidableEq, Repr

/-- A view of one received packet. -/
structure PacketView where
  data : BytePtr := .null
  length : ℕ := 0
  hwTimestampNs : UInt64 := 0
  portId : UInt16 := 0
  queueId : UInt16 := 0
  deriving DecidableEq, Repr

/-- `sizeof(slot_)`. -/
def slotSize : ℕ := 2048

/-- The members of the device. -/
structure StubPollModeRx where
  isOpen : Bool := false
  pending : Bool := false
  port : UInt16 := 0
  queue : UInt16 := 0
  len : ℕ := 0
  len_le : len ≤ slotSize := by decide
  slot : Vector UInt8 slotSize := .replicate slotSize 0

/-- The result of a `poll`, the views of the caller after it, and the device. -/
structure Polled where
  count : ℕ
  out : List PacketView
  rx : StubPollModeRx

namespace StubPollModeRx

variable (rx : StubPollModeRx)

/-- `open`, which always succeeds. -/
def openPort (portId queueId : UInt16) : Bool × StubPollModeRx :=
  (true, { rx with port := portId, queue := queueId, isOpen := true })

/-- `close`. -/
def close : StubPollModeRx := { rx with isOpen := false }

/-- The slot after a payload has been copied to its start. -/
def copyToSlot (payload : List UInt8) : Vector UInt8 slotSize :=
  .ofFn fun i => payload.getD i rx.slot[i]

/-- `inject_for_test`. -/
def injectForTest (payload : List UInt8) : StubPollModeRx :=
  if hsize : payload.length > slotSize then
    rx
  else
    { rx with
      slot := rx.copyToSlot payload
      len := payload.length
      len_le := Nat.le_of_not_lt hsize
      pending := true }

/-- The view of the payload in the slot. -/
def view : PacketView where
  data := .slot
  length := rx.len
  hwTimestampNs := 0
  portId := rx.port
  queueId := rx.queue

/-- `poll`, with the views of the caller. -/
def poll (out : List PacketView) : Polled :=
  if !rx.isOpen || !rx.pending || out.isEmpty then
    { count := 0, out, rx }
  else
    { count := 1, out := out.set 0 rx.view, rx := { rx with pending := false } }

/-- The bytes that a view of the slot denotes. -/
def bytes (view : PacketView) : Option (List UInt8) :=
  if view.data = .slot then some (rx.slot.toList.take view.length) else none

end StubPollModeRx

/-! ### Runs -/

/-- What has been called. -/
inductive Event where
  | opened (portId queueId : UInt16)
  | closed
  | injected (payload : List UInt8)
  /-- A `poll` that has returned zero. -/
  | missed
  /-- A `poll` that has delivered these bytes. -/
  | delivered (bytes : Option (List UInt8))
  deriving DecidableEq, Repr

/-- The device, and the log of the events, the latest first. -/
structure State where
  rx : StubPollModeRx := {}
  log : List Event := []

/-- The calls of a device. -/
inductive Action where
  | openPort (portId queueId : UInt16)
  | close
  | injectForTest (payload : List UInt8)
  | poll (out : List PacketView)
  deriving DecidableEq, Repr

/-- What a `poll` adds to the log. -/
def Polled.event (r : Polled) : Event :=
  if r.count = 1 then .delivered (r.out.head?.bind r.rx.bytes) else .missed

/-- One call. -/
def step (s : State) : Action → State
  | .openPort portId queueId =>
      { rx := (s.rx.openPort portId queueId).2, log := .opened portId queueId :: s.log }
  | .close => { rx := s.rx.close, log := .closed :: s.log }
  | .injectForTest payload =>
      { rx := s.rx.injectForTest payload, log := .injected payload :: s.log }
  | .poll out => { rx := (s.rx.poll out).rx, log := (s.rx.poll out).event :: s.log }

/-- The runs of a device. -/
def stubRx : TransitionSystem State Action where
  init := {}
  step s a := some (step s a)

/-! ### The slot -/

variable {rx : StubPollModeRx} {payload : List UInt8} {out : List PacketView}

/-- What has been copied to the slot is what is read from it, whatever was there before. -/
theorem take_copyToSlot (h : payload.length ≤ slotSize) :
    (rx.copyToSlot payload).toList.take payload.length = payload := by
  have hlen : ((rx.copyToSlot payload).toList.take payload.length).length = payload.length := by
    rw [List.length_take, Vector.length_toList, Nat.min_eq_left h]
  refine List.ext_getElem hlen fun i hi hi' => ?_
  simp [StubPollModeRx.copyToSlot, hi']

namespace StubPollModeRx

/-- A payload that is too long changes nothing. -/
theorem injectForTest_of_lt (h : slotSize < payload.length) : rx.injectForTest payload = rx :=
  dif_pos h

theorem injectForTest_of_le (h : payload.length ≤ slotSize) :
    rx.injectForTest payload = { rx with
      slot := rx.copyToSlot payload
      len := payload.length
      len_le := h
      pending := true } :=
  dif_neg (Nat.not_lt.mpr h)

/-- A `poll` delivers if the device is open, a payload is pending and there is a view to fill. -/
theorem poll_of_pending (hopen : rx.isOpen = true) (hpending : rx.pending = true) (v : PacketView)
    (rest : List PacketView) : rx.poll (v :: rest) =
      { count := 1, out := rx.view :: rest, rx := { rx with pending := false } } := by
  rw [poll, hopen, hpending]
  rfl

/-- Any other `poll` changes nothing. -/
theorem poll_of_not (h : ¬(rx.isOpen = true ∧ rx.pending = true ∧ out ≠ [])) :
    rx.poll out = { count := 0, out, rx } := by
  have hguard : (!rx.isOpen || !rx.pending || out.isEmpty) = true := by
    rw [← Bool.not_eq_false]
    intro hfalse
    simp only [Bool.or_eq_false_iff, Bool.not_eq_false', List.isEmpty_eq_false_iff] at hfalse
    exact h ⟨hfalse.1.1, hfalse.1.2, hfalse.2⟩
  exact if_pos hguard

/-- The cases of a `poll`. -/
theorem poll_cases (rx : StubPollModeRx) (out : List PacketView) :
    (rx.isOpen = true ∧ rx.pending = true ∧ out ≠ [] ∧ rx.poll out =
      { count := 1, out := rx.view :: out.tail, rx := { rx with pending := false } }) ∨
    (¬(rx.isOpen = true ∧ rx.pending = true ∧ out ≠ []) ∧
      rx.poll out = { count := 0, out, rx }) := by
  by_cases h : rx.isOpen = true ∧ rx.pending = true ∧ out ≠ []
  · obtain ⟨v, rest, rfl⟩ := List.exists_cons_of_ne_nil h.2.2
    exact .inl ⟨h.1, h.2.1, h.2.2, poll_of_pending h.1 h.2.1 v rest⟩
  · exact .inr ⟨h, poll_of_not h⟩

/-- What the view of the slot denotes. -/
theorem bytes_view (rx rx' : StubPollModeRx) :
    rx'.bytes rx.view = some (rx'.slot.toList.take rx.len) :=
  if_pos rfl

end StubPollModeRx

end SystemsStack.Bypass
