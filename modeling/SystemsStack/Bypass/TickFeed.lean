import SystemsStack.Bypass.PollModeRx
import SystemsStack.Sbe.RoundTrip

/-!
# Ticks through the stub

The example of the poll-mode receiver encodes a tick, injects its bytes into the device, polls, and
decodes the bytes that the view points to. Here these steps are taken in any order and number: a
view may be decoded long after the `poll` that has filled it, when the slot it points to has been
filled again.

On the level of ticks this is a mailbox (`SystemsStack.Bypass.TickMailbox`): the bytes of the device
refine it (`SystemsStack.Bypass.tickFeed_refines`). As all messages have the same length, a view
that has been kept never denotes a mixture of two of them; it always denotes the tick fed last.

Source: `examples/kernel_bypass/main.cpp`, lines 10–40.

## Main definitions

* `SystemsStack.Bypass.TickFeed`, with `feed`, `poll` and `decode`.
* `SystemsStack.Bypass.TickMailbox`.

## Main results

* `SystemsStack.Bypass.tickFeed_refines`.

## References

* `include/ll/kernel_bypass.hpp`, lines 57–108; `include/ll/sbe_codec.hpp`, lines 28–64.
-/

namespace SystemsStack.Bypass

open Core Sbe

/-! ### The feed -/

/-- What a decoder has returned, and its `out`. -/
abbrev Decoded := Except Fault Bool × TickValues

/-- The locals of the example, and what has been decoded so far. -/
structure TickFeed where
  rx : StubPollModeRx := {}
  /-- The views `batch`. -/
  batch : List PacketView := .replicate 8 {}
  /-- The number of views that the last `poll` has filled. -/
  got : ℕ := 0
  outcomes : List Decoded := []

/-- The array `wire`. -/
def wire : Span where
  bytes := .replicate 64 0
  length_lt := by decide

/-- The bytes of the slot that a view denotes, as a span. -/
def StubPollModeRx.span (rx : StubPollModeRx) (view : PacketView) : Span where
  bytes := (rx.bytes view).getD []
  length_lt := by
    rw [StubPollModeRx.bytes]
    split_ifs
    · refine Nat.lt_of_le_of_lt (List.length_take_le' _ _) ?_
      rw [Vector.length_toList]
      decide
    · decide

namespace TickFeed

variable (order : ByteOrder) (s : TickFeed)

/-- Encode a tick, and inject the bytes written. -/
def feed (v : TickValues) : TickFeed :=
  match (encodeTick order wire v).run wire.bytes with
  | (.ok n, bytes) => { s with rx := s.rx.injectForTest (bytes.take n.toNat) }
  | (.error _, _) => s

/-- Poll into the views. -/
def poll : TickFeed :=
  let polled := s.rx.poll s.batch
  { s with rx := polled.rx, batch := polled.out, got := polled.count }

/-- Decode the first view, if there is one. -/
def decode : TickFeed :=
  match s.got, s.batch with
  | 0, _ | _, [] => s
  | _ + 1, view :: _ =>
      { s with outcomes := s.outcomes ++ [(decodeTick order (s.rx.span view)).run {}] }

end TickFeed

/-- The calls, in any order. -/
inductive FeedCall where
  | openPort (portId queueId : UInt16)
  | close
  | feed (v : TickValues)
  | poll
  | decode
  deriving DecidableEq, Repr

/-- One call. -/
def TickFeed.step (order : ByteOrder) (s : TickFeed) : FeedCall → TickFeed
  | .openPort portId queueId => { s with rx := (s.rx.openPort portId queueId).2 }
  | .close => { s with rx := s.rx.close }
  | .feed v => s.feed order v
  | .poll => s.poll
  | .decode => s.decode order

/-! ### The mailbox -/

/-- A mailbox for one tick. -/
structure TickMailbox where
  isOpen : Bool := false
  /-- The tick fed last. -/
  last : Option TickValues := none
  /-- It has not been delivered. -/
  waiting : Bool := false
  /-- The last `poll` has delivered. -/
  got : Bool := false
  outcomes : List TickValues := []
  deriving DecidableEq, Repr

/-- One call. -/
def TickMailbox.step (m : TickMailbox) : FeedCall → TickMailbox
  | .openPort _ _ => { m with isOpen := true }
  | .close => { m with isOpen := false }
  | .feed v => { m with last := some v, waiting := true }
  | .poll => { m with waiting := m.waiting && !m.isOpen, got := m.isOpen && m.waiting }
  | .decode => if m.got then { m with outcomes := m.outcomes ++ m.last.toList } else m

/-! ### Refinement -/

/-- The feed stands for the mailbox: the slot holds the message of the tick fed last. -/
structure TickFeed.Represents (s : TickFeed) (m : TickMailbox) : Prop where
  isOpen : s.rx.isOpen = m.isOpen
  pending : s.rx.pending = m.waiting
  len : ∀ v, m.last = some v → s.rx.len = 32
  slot : ∀ v, m.last = some v → s.rx.slot.toList.take 32 = wireMessage v
  last : m.waiting = true ∨ m.got = true → m.last.isSome
  batch : s.batch ≠ []
  got : s.got = if m.got then 1 else 0
  view : m.got = true → ∃ view rest, s.batch = view :: rest ∧ view.data = .slot ∧ view.length = 32
  outcomes : s.outcomes = m.outcomes.map fun v => (.ok true, v)

variable {order : ByteOrder} {s : TickFeed} {m : TickMailbox}

/-- A tick is fed as the bytes of its message. -/
theorem TickFeed.feed_eq (order : ByteOrder) (s : TickFeed) (v : TickValues) :
    s.feed order v = { s with rx := s.rx.injectForTest (wireMessage v) } := by
  have hencode : (encodeTick order wire v).run wire.bytes =
      (.ok 32, wireMessage v ++ wire.bytes.drop 32) := encodeTick_of_le (by decide)
  rw [feed, hencode]
  have htake : (wireMessage v ++ wire.bytes.drop 32).take 32 = wireMessage v :=
    List.take_left' (length_wireMessage v)
  exact congrArg (fun bytes => { s with rx := s.rx.injectForTest bytes }) htake

namespace TickFeed.Represents

theorem feed (h : s.Represents m) (v : TickValues) :
    (s.step order (.feed v)).Represents (m.step (.feed v)) := by
  have hlen : (wireMessage v).length = 32 := length_wireMessage v
  have hfits : (wireMessage v).length ≤ slotSize := by rw [hlen]; decide
  have hslot : (s.rx.copyToSlot (wireMessage v)).toList.take 32 = wireMessage v :=
    hlen ▸ take_copyToSlot hfits
  rw [step, feed_eq, StubPollModeRx.injectForTest_of_le hfits]
  exact {
    isOpen := h.isOpen
    pending := rfl
    len := fun _ _ => hlen
    slot := fun v' hv' => Option.some.inj hv' ▸ hslot
    last := fun _ => rfl
    batch := h.batch
    got := h.got
    view := h.view
    outcomes := h.outcomes }

theorem poll (h : s.Represents m) : (s.step order .poll).Represents (m.step .poll) := by
  rcases s.rx.poll_cases s.batch with ⟨hopen, hpending, -, hpoll⟩ | ⟨hnot, hpoll⟩
  · have hopen' : m.isOpen = true := h.isOpen ▸ hopen
    have hwaiting : m.waiting = true := h.pending ▸ hpending
    obtain ⟨v, hv⟩ := Option.isSome_iff_exists.mp (h.last (.inl hwaiting))
    rw [step, TickFeed.poll, hpoll, TickMailbox.step, hopen', hwaiting]
    exact {
      isOpen := hopen
      pending := rfl
      len := h.len
      slot := h.slot
      last := fun _ => h.last (.inl hwaiting)
      batch := List.cons_ne_nil _ _
      got := rfl
      view := fun _ => ⟨_, _, rfl, rfl, h.len v hv⟩
      outcomes := h.outcomes }
  · have hidle : (m.isOpen && m.waiting) = false := by
      rw [← h.isOpen, ← h.pending, Bool.and_eq_false_iff]
      by_contra hboth
      push Not at hboth
      simp only [Bool.not_eq_false] at hboth
      exact hnot ⟨hboth.1, hboth.2, h.batch⟩
    have hwaiting : (m.waiting && !m.isOpen) = m.waiting := by
      revert hidle
      cases m.isOpen <;> cases m.waiting <;> decide
    rw [step, TickFeed.poll, hpoll, TickMailbox.step, hidle, hwaiting]
    exact {
      isOpen := h.isOpen
      pending := h.pending
      len := h.len
      slot := h.slot
      last := fun hor => h.last (.inl (hor.resolve_right Bool.false_ne_true))
      batch := h.batch
      got := rfl
      view := nofun
      outcomes := h.outcomes }

/-- A view that a `poll` has filled denotes the message of the tick fed last. -/
theorem span_view (h : s.Represents m) {v : TickValues} (hv : m.last = some v) {view : PacketView}
    (hdata : view.data = .slot) (hlength : view.length = 32) :
    (s.rx.span view).bytes = wireMessage v ++ [] := by
  have hbytes : s.rx.bytes view = some (s.rx.slot.toList.take view.length) := if_pos hdata
  rw [hlength, h.slot v hv] at hbytes
  exact (congrArg (Option.getD · []) hbytes).trans (List.append_nil _).symm

theorem decode (h : s.Represents m) : (s.step order .decode).Represents (m.step .decode) := by
  rw [step, TickFeed.decode, TickMailbox.step]
  cases hgot : m.got with
  | false =>
    have hzero : s.got = 0 := by rw [h.got, hgot]; rfl
    rw [hzero]
    exact h
  | true =>
    have hone : s.got = 1 := by rw [h.got, hgot]; rfl
    obtain ⟨view, rest, hbatch, hdata, hlength⟩ := h.view hgot
    obtain ⟨v, hv⟩ := Option.isSome_iff_exists.mp (h.last (.inr hgot))
    have hdecode : (decodeTick order (s.rx.span view)).run {} = (.ok true, v) :=
      decodeTick_wireMessage (h.span_view hv hdata hlength) {}
    rw [hone, hbatch, if_pos rfl, hv]
    exact {
      isOpen := h.isOpen
      pending := h.pending
      len := hv ▸ h.len
      slot := hv ▸ h.slot
      last := fun _ => rfl
      batch := List.cons_ne_nil _ _
      got := rfl
      view := fun _ => ⟨view, rest, rfl, hdata, hlength⟩
      outcomes := by
        change s.outcomes ++ [(decodeTick order (s.rx.span view)).run {}] = _
        rw [hdecode, Option.toList_some, List.map_append, ← h.outcomes]
        rfl }

theorem step (h : s.Represents m) (call : FeedCall) :
    (s.step order call).Represents (m.step call) := by
  cases call with
  | openPort portId queueId => exact { h with isOpen := rfl }
  | close => exact { h with isOpen := rfl }
  | feed v => exact h.feed v
  | poll => exact h.poll
  | decode => exact h.decode

end TickFeed.Represents

/-- **The device is a mailbox for ticks.** After any calls in any order, on a host of either byte
order: the last `poll` has filled a view exactly if the mailbox has delivered, and every decoding of
a view, however long after the `poll`, has succeeded, with the tick that was fed last by then. -/
theorem tickFeed_refines (order : ByteOrder) (calls : List FeedCall) :
    (calls.foldl (TickFeed.step order) {}).outcomes =
        (calls.foldl TickMailbox.step {}).outcomes.map (fun v => (.ok true, v)) ∧
      (calls.foldl (TickFeed.step order) {}).got =
        if (calls.foldl TickMailbox.step {}).got then 1 else 0 := by
  have hrun (s : TickFeed) (m : TickMailbox) (h : s.Represents m) :
      (calls.foldl (TickFeed.step order) s).Represents (calls.foldl TickMailbox.step m) := by
    induction calls generalizing s m with
    | nil => exact h
    | cons call calls ih => exact ih _ _ (h.step call)
  have hinit : TickFeed.Represents {} {} := {
    isOpen := rfl
    pending := rfl
    len := nofun
    slot := nofun
    last := fun h => h.elim nofun nofun
    batch := List.cons_ne_nil _ _
    got := rfl
    view := nofun
    outcomes := rfl }
  have h := hrun {} {} hinit
  exact ⟨h.outcomes, h.got⟩

end SystemsStack.Bypass
