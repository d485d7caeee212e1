import SystemsStack.Core.SubmissionRing
import SystemsStack.Core.TransitionSystem

/-!
# The io_uring helper as a step machine

`ll::uring::Ring` wraps a ring of liburing for one operation at a time: `submit_nop_and_wait` and
`read_file` each prepare one entry, submit it, and take the oldest completion. This file embeds
them as a machine whose steps are the calls into liburing, in the build that has it.

What liburing does is a submission ring (`Core.SubmissionRing`). Every call of it may fail, at any
time and in any pattern: `io_uring_get_sqe` may return a null pointer, `io_uring_submit` and
`io_uring_wait_cqe` may return a negative value, and then leave the ring as it was.
`io_uring_queue_init` and `io_uring_queue_exit` start from and discard an empty ring. The kernel
completes an operation in flight in a step of its own, between any two other steps; completing a
read stores bytes in the buffer that the entry names.

The ring remembers whether a submit or a wait has failed since it was opened
(`SystemsStack.Uring.State.failed`); no step depends on it.

Source: `include/ll/linux_uring.hpp`, lines 32–140.

## Main definitions

* `SystemsStack.Uring.Span`, `SystemsStack.Uring.Op`, `SystemsStack.Uring.Call`.
* `SystemsStack.Uring.State`, `SystemsStack.Uring.Action`, `SystemsStack.Uring.step`.
* `SystemsStack.Uring.uring`: the transition system.
* `SystemsStack.Uring.Step`: its steps, one constructor for each outcome.

## Main results

* `SystemsStack.Uring.Step.of_step`.
-/

namespace SystemsStack.Uring

open Core

/-! ### States -/

/-- A span of `char`: the address of its first byte, and its length. -/
structure Span where
  data : ℕ
  size : UInt64
  deriving DecidableEq, Repr

/-- A submission queue entry. -/
inductive Op where
  | nop
  | read (fd data : ℕ) (len : UInt32)
  deriving DecidableEq, Repr

/-- A call that has passed its checks: `submit_nop_and_wait`, or `read_file` with its open
descriptor and its buffer. -/
inductive Call where
  | nop
  | readFile (fd : ℕ) (dst : Span)
  deriving DecidableEq, Repr

/-- The entry that the call prepares; the length of the span is narrowed to an `unsigned`. -/
def Call.op : Call → Op
  | nop => .nop
  | readFile fd dst => .read fd dst.data dst.size.toUInt32

/-- What a call returns. -/
inductive Returned where
  | submitNopAndWait (ok : Bool)
  | readFile (n : Int32)
  deriving DecidableEq, Repr

/-- The call reports success. -/
def Returned.Success : Returned → Prop
  | submitNopAndWait ok => ok = true
  | readFile n => 0 ≤ n

instance : DecidablePred Returned.Success
  | .submitNopAndWait ok => inferInstanceAs (Decidable (ok = true))
  | .readFile n => inferInstanceAs (Decidable (0 ≤ n))

/-- What the call returns when it ends early, or with the result of the completion it has
taken. -/
def Call.returned : Call → Option Int32 → Returned
  | nop, none => .submitNopAndWait false
  | nop, some res => .submitNopAndWait (decide (0 ≤ res))
  | readFile _ _, none => .readFile (-1)
  | readFile _ _, some res => .readFile res

/-- Where the program is; `c` numbers the call. -/
inductive Pc where
  | idle
  | getSqe (c : ℕ) (call : Call)
  | submit (c : ℕ) (call : Call)
  | wait (c : ℕ) (call : Call)
  deriving DecidableEq, Repr

/-- The call under way. -/
def Pc.call? : Pc → Option (ℕ × Call)
  | idle => none
  | getSqe c call | submit c call | wait c call => some (c, call)

/-- A call that has returned: its number, what it has returned, and the call whose completion it
has taken. -/
structure Answer where
  call : ℕ
  returned : Returned
  harvested : Option ℕ
  deriving DecidableEq, Repr

/-- The ring, its program, and what is around them. -/
structure State where
  /-- The member `open_`. -/
  isOpen : Bool := false
  ring : SubmissionRing Op Int32 := {}
  /-- A submit or a wait has failed since the ring was opened. -/
  failed : Bool := false
  pc : Pc := .idle
  /-- The number of calls made so far, which is the number of the next call. -/
  calls : ℕ := 0
  answers : List Answer := []
  /-- The open descriptors, each with the contents of its file. -/
  files : ℕ → Option (List UInt8) := fun _ => none
  memory : ℕ → UInt8 := fun _ => 0

/-- What happens next, with the choices of liburing and of the kernel. -/
inductive Action where
  /-- Call `open`; `io_uring_queue_init` returns `rc`. -/
  | openRing (rc : Int32)
  /-- Call `close`. -/
  | closeRing
  | submitNopAndWait
  /-- Call `read_file`; the system call `open` gives a descriptor of a file, or fails. -/
  | readFile (path : Option String) (dst : Span) (opened : Option (ℕ × List UInt8))
  /-- `io_uring_get_sqe` returns a null pointer or an entry, which is prepared. -/
  | getSqe (null : Bool)
  /-- `io_uring_submit` returns `rc`. -/
  | submit (rc : Int32)
  /-- `io_uring_wait_cqe` returns `rc`; if it is not negative, the completion is taken. -/
  | wait (rc : Int32)
  /-- The kernel completes the operation in flight at place `i`; a read stores `bytes`. -/
  | complete (i : ℕ) (res : Int32) (bytes : List UInt8)
  deriving DecidableEq, Repr

/-! ### Steps -/

/-- `Ring::close`. -/
def State.close (s : State) : State :=
  if s.isOpen then { s with isOpen := false, ring := {}, failed := false } else s

/-- The system call `close`. -/
def closeFd (files : ℕ → Option (List UInt8)) : Call → ℕ → Option (List UInt8)
  | .nop => files
  | .readFile fd _ => Function.update files fd none

/-- The call returns; `read_file` closes its descriptor on every path. -/
def State.finish (s : State) (c : ℕ) (call : Call) (cqe : Option (ℕ × Int32)) : State :=
  { s with
    pc := .idle
    files := closeFd s.files call
    answers := s.answers ++ [⟨c, call.returned (cqe.map Prod.snd), cqe.map Prod.fst⟩] }

/-- A call returns before it has a descriptor or an entry. -/
def State.refuse (s : State) (returned : Returned) : State :=
  { s with calls := s.calls + 1, answers := s.answers ++ [⟨s.calls, returned, none⟩] }

/-- The memory after the bytes have been stored from the address on. -/
def storeBytes (memory : ℕ → UInt8) (addr : ℕ) (bytes : List UInt8) : ℕ → UInt8 := fun a =>
  if addr ≤ a then bytes.getD (a - addr) (memory a) else memory a

/-- The kernel executes an operation: a read stores at most the bytes it was asked for. -/
def execute (memory : ℕ → UInt8) : Op → List UInt8 → Option (ℕ → UInt8)
  | .nop, bytes => if bytes = [] then some memory else none
  | .read _ data len, bytes =>
      if bytes.length ≤ len.toNat then some (storeBytes memory data bytes) else none

/-- One step. -/
def step (s : State) : Action → Option State
  | .openRing rc =>
      match s.pc with
      | .idle =>
          let s := s.close
          some (if rc ≠ 0 then s else { s with isOpen := true, ring := {}, failed := false })
      | _ => none
  | .closeRing =>
      match s.pc with
      | .idle => some s.close
      | _ => none
  | .submitNopAndWait =>
      match s.pc with
      | .idle =>
          some (if s.isOpen then { s with calls := s.calls + 1, pc := .getSqe s.calls .nop }
            else s.refuse (.submitNopAndWait false))
      | _ => none
  | .readFile path dst opened =>
      match s.pc with
      | .idle =>
          if s.isOpen = false ∨ path = none ∨ dst.size = 0 then
            some (s.refuse (.readFile (-1)))
          else
            match opened with
            | none => some (s.refuse (.readFile (-1)))
            | some (fd, contents) =>
                -- the system gives out a descriptor that is not in use
                if s.files fd = none then
                  some { s with
                    calls := s.calls + 1
                    files := Function.update s.files fd (some contents)
                    pc := .getSqe s.calls (.readFile fd dst) }
                else
                  none
      | _ => none
  | .getSqe null =>
      match s.pc with
      | .getSqe c call =>
          some (if null then s.finish c call none
            else { s with ring := s.ring.prepare c call.op, pc := .submit c call })
      | _ => none
  | .submit rc =>
      match s.pc with
      | .submit c call =>
          some (if rc < 0 then { s.finish c call none with failed := true }
            else { s with ring := s.ring.submit, pc := .wait c call })
      | _ => none
  | .wait rc =>
      match s.pc with
      | .wait c call =>
          if rc < 0 then some { s.finish c call none with failed := true }
          else
            s.ring.harvest.map fun (cqe, ring) =>
              { s.finish c call (some cqe) with ring := ring }
      | _ => none
  | .complete i res bytes =>
      (s.ring.complete i res).bind fun (e, ring) =>
        (execute s.memory e.2 bytes).map fun memory => { s with ring := ring, memory := memory }

/-- The ring with any sequence of calls, failures and completions. -/
def uring : TransitionSystem State Action where
  init := {}
  step := step

/-! ### The outcomes of the steps -/

/-- The steps of the ring, one constructor for each outcome. -/
inductive Step (s : State) : Action → State → Prop
  | openFails {rc} (pc : s.pc = .idle) : Step s (.openRing rc) s.close
  | opens {rc} (pc : s.pc = .idle) :
      Step s (.openRing rc) { s.close with isOpen := true, ring := {}, failed := false }
  | closes (pc : s.pc = .idle) : Step s .closeRing s.close
  | refuses {a returned} (pc : s.pc = .idle) (fails : ¬returned.Success) :
      Step s a (s.refuse returned)
  | callNop (pc : s.pc = .idle) (isOpen : s.isOpen = true) :
      Step s .submitNopAndWait { s with calls := s.calls + 1, pc := .getSqe s.calls .nop }
  | callReadFile {path dst fd contents} (pc : s.pc = .idle) (isOpen : s.isOpen = true) :
      Step s (.readFile path dst (some (fd, contents))) { s with
        calls := s.calls + 1
        files := Function.update s.files fd (some contents)
        pc := .getSqe s.calls (.readFile fd dst) }
  | noSqe {c call} (pc : s.pc = .getSqe c call) : Step s (.getSqe true) (s.finish c call none)
  | prepares {c call} (pc : s.pc = .getSqe c call) :
      Step s (.getSqe false) { s with ring := s.ring.prepare c call.op, pc := .submit c call }
  | submitFails {rc c call} (pc : s.pc = .submit c call) (fails : rc < 0) :
      Step s (.submit rc) { s.finish c call none with failed := true }
  | submits {rc c call} (pc : s.pc = .submit c call) (ok : ¬rc < 0) :
      Step s (.submit rc) { s with ring := s.ring.submit, pc := .wait c call }
  | waitFails {rc c call} (pc : s.pc = .wait c call) (fails : rc < 0) :
      Step s (.wait rc) { s.finish c call none with failed := true }
  | harvests {rc c call cqe ring} (pc : s.pc = .wait c call) (ok : ¬rc < 0)
      (harvest : s.ring.harvest = some (cqe, ring)) :
      Step s (.wait rc) { s.finish c call (some cqe) with ring := ring }
  | completes {i res bytes e ring memory} (complete : s.ring.complete i res = some (e, ring))
      (execute : execute s.memory e.2 bytes = some memory) :
      Step s (.complete i res bytes) { s with ring := ring, memory := memory }

/-- Every step of the machine has one of these outcomes. -/
theorem Step.of_step {s s' : State} {a : Action} (h : uring.step s a = some s') : Step s a s' := by
  cases a with
  | openRing rc =>
    cases pc : s.pc <;> simp only [uring, step, pc, reduceCtorEq, Option.some.injEq] at h
    split_ifs at h with hrc
    · exact h ▸ .openFails pc
    · exact h ▸ .opens pc
  | closeRing =>
    cases pc : s.pc <;> simp only [uring, step, pc, reduceCtorEq, Option.some.injEq] at h
    exact h ▸ .closes pc
  | submitNopAndWait =>
    cases pc : s.pc <;> simp only [uring, step, pc, reduceCtorEq, Option.some.injEq] at h
    split_ifs at h with hopen
    · exact h ▸ .callNop pc hopen
    · exact h ▸ .refuses pc (by decide)
  | readFile path dst opened =>
    cases pc : s.pc <;> simp only [uring, step, pc, reduceCtorEq] at h
    split_ifs at h with hrefuse
    · exact Option.some.inj h ▸ .refuses pc (by decide)
    · have hopen : s.isOpen = true := by
        by_contra hclosed
        exact hrefuse (.inl (Bool.eq_false_iff.mpr hclosed))
      rcases opened with _ | ⟨fd, contents⟩
      · exact Option.some.inj h ▸ .refuses pc (by decide)
      · simp only [Option.ite_none_right_eq_some, Option.some.injEq] at h
        exact h.2 ▸ .callReadFile pc hopen
  | getSqe null =>
    cases pc : s.pc <;> simp only [uring, step, pc, reduceCtorEq, Option.some.injEq] at h
    cases null with
    | false => exact h ▸ .prepares pc
    | true => exact h ▸ .noSqe pc
  | submit rc =>
    cases pc : s.pc <;> simp only [uring, step, pc, reduceCtorEq, Option.some.injEq] at h
    split_ifs at h with hrc
    · exact h ▸ .submitFails pc hrc
    · exact h ▸ .submits pc hrc
  | wait rc =>
    cases pc : s.pc <;> simp only [uring, step, pc, reduceCtorEq] at h
    split_ifs at h with hrc
    · exact Option.some.inj h ▸ .waitFails pc hrc
    · obtain ⟨⟨cqe, ring⟩, hharvest, rfl⟩ := Option.map_eq_some_iff.mp h
      exact .harvests pc hrc hharvest
  | complete i res bytes =>
    simp only [uring, step] at h
    obtain ⟨⟨e, ring⟩, hcomplete, h⟩ := Option.bind_eq_some_iff.mp h
    obtain ⟨memory, hexecute, rfl⟩ := Option.map_eq_some_iff.mp h
    exact .completes hcomplete hexecute

end SystemsStack.Uring
