import SystemsStack.Uring.Buffers
import Mathlib.Algebra.Group.Nat.Defs

/-!
# Calls of `read_file` under watch

`read_file` is documented to return the number of bytes read, or `-1`. This file watches its calls
in the runs of the ring: for each of them, what the kernel has made of its read, what it has
returned, and the memory before and after. It states the contract of a call that has returned, and
what is assumed of the kernel while the call is under way: its read is completed as documented, it
takes its own completion, and no read left behind by another call stores into its buffer meanwhile.

A read that the kernel completes as documented leaves the buffer as the contract says, but the
contract also speaks of what is returned: an error other than `-1` is returned as it is, and nothing
is read from a file that is not empty when the length of the buffer is narrowed to zero
(`SystemsStack.Uring.contract_iff_of_waited`).

## Main definitions

* `SystemsStack.Uring.Attempt`, `SystemsStack.Uring.Outcome`, `SystemsStack.Uring.Watched`.
* `SystemsStack.Uring.watchedUring`: the transition system.
* `SystemsStack.Uring.Outcome.Contract`, `SystemsStack.Uring.Outcome.KeepsContract`.
* `SystemsStack.Uring.Documented`, `SystemsStack.Uring.Served`: the assumptions on a step.

## Main results

* `SystemsStack.Uring.contract_iff_of_waited`, `SystemsStack.Uring.contract_iff_of_early`.

## References

* `include/ll/linux_uring.hpp`, lines 98–133; `tests/test_roadmap_stack.cpp`, lines 98–105.
-/

namespace SystemsStack.Uring

open Core

/-! ### Calls under watch -/

/-- A call of `read_file` under way. -/
structure Attempt where
  dst : Span
  /-- The contents of the file, if it can be opened. -/
  contents : Option (List UInt8)
  /-- The memory when the call was made. -/
  before : ℕ → UInt8
  /-- The result of the read, once the kernel has completed it. -/
  read : Option Int32 := none
  /-- What is assumed of the kernel has held in each step since the call was made. -/
  served : Bool := true

/-- A call of `read_file` that has returned. -/
structure Outcome extends Attempt where
  /-- The entry was submitted, and the wait for a completion has succeeded. -/
  waited : Bool
  returned : Option Returned
  /-- The memory when the call has returned. -/
  after : ℕ → UInt8

/-- The ring, its call of `read_file` under way, and those that have returned. -/
structure Watched where
  state : State := {}
  attempt : Option Attempt := none
  outcomes : List Outcome := []

/-- The operation in flight at place `i` is that of the call under way. -/
def State.Own (s : State) (i : ℕ) : Prop :=
  s.pc.call?.map Prod.fst = s.ring.inFlight[i]?.map Prod.fst

instance (s : State) : DecidablePred s.Own := fun i =>
  inferInstanceAs (Decidable (s.pc.call?.map Prod.fst = s.ring.inFlight[i]?.map Prod.fst))

/-! ### Assumptions -/

/-- A read of `len` bytes of a file completes with an error, or stores a number of bytes of the
file: no more than there are and were asked for, and some if there are any. -/
def Documented (len : UInt32) (contents : List UInt8) (res : Int32) (bytes : List UInt8) : Prop :=
  res.toInt < 0 ∨
  0 ≤ res.toInt ∧ res.toInt ≤ min len.toNat contents.length ∧
    (0 < len.toNat → contents ≠ [] → 0 < res.toInt) ∧ bytes = contents.take res.toInt.toNat

instance (len : UInt32) (contents : List UInt8) (res : Int32) (bytes : List UInt8) :
    Decidable (Documented len contents res bytes) :=
  inferInstanceAs (Decidable (_ ∨ _ ∧ _ ∧ (_ → _ → _) ∧ _))

/-- The operation stores no byte in the buffer. -/
def Op.Apart (bytes : List UInt8) (dst : Span) : Op → Prop
  | .nop => True
  | .read _ data _ =>
      bytes = [] ∨ data + bytes.length ≤ dst.data ∨ dst.data + dst.size.toNat ≤ data

instance (bytes : List UInt8) (dst : Span) : DecidablePred (Op.Apart bytes dst)
  | .nop => inferInstanceAs (Decidable True)
  | .read _ data _ => inferInstanceAs
      (Decidable (bytes = [] ∨ data + bytes.length ≤ dst.data ∨ dst.data + dst.size.toNat ≤ data))

/-- While a call of `read_file` is under way, the kernel completes its read as documented, reads of
other calls store nothing in its buffer, and the completion that it takes is its own. -/
def Served (s : Watched) : Action → Prop
  | .complete i res bytes => ∀ t ∈ s.attempt, ∀ e ∈ s.state.ring.inFlight[i]?,
      (s.state.Own i → ∀ contents ∈ t.contents,
        Documented t.dst.size.toUInt32 contents res bytes) ∧
      (¬s.state.Own i → e.2.Apart bytes t.dst)
  | .wait rc => ¬rc < 0 → ∀ _t ∈ s.attempt, ∀ cqe ∈ s.state.ring.harvest.map Prod.fst,
      s.state.pc.call?.map Prod.fst = some cqe.1
  | _ => True

instance (s : Watched) : DecidablePred (Served s)
  | .complete i _ _ => inferInstanceAs (Decidable (∀ t ∈ s.attempt,
      ∀ e ∈ s.state.ring.inFlight[i]?, (_ → ∀ contents ∈ t.contents, Documented _ _ _ _) ∧ (_ → _)))
  | .wait rc => inferInstanceAs (Decidable (¬rc < 0 → ∀ t ∈ s.attempt,
      ∀ cqe ∈ s.state.ring.harvest.map Prod.fst, _ = some cqe.1))
  | .openRing _ | .closeRing | .submitNopAndWait | .readFile _ _ _ | .getSqe _ | .submit _ =>
      inferInstanceAs (Decidable True)

/-! ### Runs under watch -/

/-- A wait that succeeds. -/
def Action.waited : Action → Bool
  | .wait rc => ¬rc < 0
  | _ => false

/-- The result of the read of a call under way after a step. -/
def Watched.readAfter (s : Watched) (read : Option Int32) : Action → Option Int32
  | .complete i res _ => if s.state.Own i then some res else read
  | _ => read

/-- A call under way after a step. -/
def Watched.attend (s : Watched) (a : Action) (t : Attempt) : Attempt :=
  { t with read := s.readAfter t.read a, served := t.served && decide (Served s a) }

theorem Watched.attend_eq {s : Watched} {a : Action} {t : Attempt}
    (hread : s.readAfter t.read a = t.read) (hserved : Served s a) : s.attend a t = t := by
  rw [attend, hread, decide_eq_true hserved, Bool.and_true]

/-- The call of `read_file` under way after a step, or which has returned in it. -/
def Watched.attemptAfter (s : Watched) : Action → Option Attempt
  | .readFile _ dst opened =>
      some { dst, contents := opened.map Prod.snd, before := s.state.memory }
  | a => s.attempt.map (s.attend a)

/-- The call returns in the step `a` to the state `s`. -/
def Attempt.outcome (t : Attempt) (a : Action) (s : State) : Outcome where
  toAttempt := t
  waited := a.waited
  returned := s.answers.getLast?.map Answer.returned
  after := s.memory

/-- The step `a` leads to the state `state`. -/
def Watched.observe (s : Watched) (a : Action) (state : State) : Watched :=
  match s.attemptAfter a with
  | none => { s with state, attempt := none }
  | some t =>
      if state.pc = .idle then
        { state, attempt := none, outcomes := s.outcomes ++ [t.outcome a state] }
      else
        { s with state, attempt := some t }

/-- The runs of the ring, with the calls of `read_file` watched. -/
def watchedUring : TransitionSystem Watched Action where
  init := {}
  step s a := (uring.step s.state a).map (s.observe a)

/-! ### The contract -/

namespace Outcome

variable (o : Outcome)

/-- The call has returned `-1`, or a number of bytes: at most that of the buffer, which begins with
as many bytes of the file and is unchanged behind them, and zero only for an empty file. -/
def Contract : Prop :=
  o.returned = some (.readFile (-1)) ∨
  ∃ n contents, o.returned = some (.readFile n) ∧ o.contents = some contents ∧
    0 ≤ n.toInt ∧ n.toInt ≤ o.dst.size.toNat ∧
    (∀ j < n.toInt.toNat, contents[j]? = some (o.after (o.dst.data + j))) ∧
    (∀ j, n.toInt.toNat ≤ j → j < o.dst.size.toNat →
      o.after (o.dst.data + j) = o.before (o.dst.data + j)) ∧
    (n.toInt = 0 → contents = [])

/-- The call has ended early; or its read has failed with `-1`; or it has succeeded, and the length
of the buffer is not narrowed to zero unless the file is empty. -/
def KeepsContract : Prop :=
  o.waited = false ∨ ∃ res, o.read = some res ∧
    (res = -1 ∨ 0 ≤ res.toInt ∧ (o.dst.size.toNat % 2 ^ 32 ≠ 0 ∨ o.contents = some []))

end Outcome

/-! ### What a completed read leaves in the buffer -/

theorem storeBytes_add (memory : ℕ → UInt8) (data j : ℕ) (bytes : List UInt8) :
    storeBytes memory data bytes (data + j) = bytes.getD j (memory (data + j)) := by
  rw [storeBytes, if_pos (Nat.le_add_right data j), Nat.add_sub_cancel_left]

/-- Bytes stored behind the end or before the start of the buffer are not in it. -/
theorem execute_apart {memory memory' : ℕ → UInt8} {op : Op} {bytes : List UInt8} {dst : Span}
    (h : execute memory op bytes = some memory') (hapart : op.Apart bytes dst) {j : ℕ}
    (hj : j < dst.size.toNat) : memory' (dst.data + j) = memory (dst.data + j) := by
  cases op with
  | nop =>
    simp only [execute, Option.ite_none_right_eq_some, Option.some.injEq] at h
    rw [h.2]
  | read fd data len =>
    simp only [execute, Option.ite_none_right_eq_some, Option.some.injEq] at h
    obtain ⟨-, rfl⟩ := h
    by_contra hne
    obtain ⟨hle, hlt⟩ := storeBytes_ne hne
    rcases hapart with rfl | hbefore | hbehind
    · rw [List.length_nil] at hlt
      omega
    · omega
    · omega

/-- A call that has taken the completion of its read keeps its contract as long as the read has not
failed with another error than `-1`, and the length has not been narrowed to zero. -/
theorem contract_iff_of_waited {o : Outcome} {res : Int32} {contents bytes : List UInt8}
    (hwaited : o.waited = true) (hread : o.read = some res)
    (hreturned : o.returned = some (.readFile res)) (hcontents : o.contents = some contents)
    (hres : Documented o.dst.size.toUInt32 contents res bytes)
    (hafter : 0 ≤ res.toInt → ∀ j < o.dst.size.toNat,
      o.after (o.dst.data + j) = storeBytes o.before o.dst.data bytes (o.dst.data + j)) :
    o.Contract ↔ o.KeepsContract := by
  have hlen : o.dst.size.toUInt32.toNat = o.dst.size.toNat % 2 ^ 32 := UInt64.toNat_toUInt32 _
  have hkeeps : o.KeepsContract ↔ res = -1 ∨
      0 ≤ res.toInt ∧ (o.dst.size.toNat % 2 ^ 32 ≠ 0 ∨ contents = []) := by
    simp [Outcome.KeepsContract, hwaited, hread, hcontents]
  rw [hkeeps]
  constructor
  · rintro (hfail | ⟨n, contents', hn, hcontents', hpos, -, -, -, hzero⟩)
    · rw [hreturned] at hfail
      exact .inl (Returned.readFile.inj (Option.some.inj hfail))
    · obtain rfl := Returned.readFile.inj (Option.some.inj (hreturned.symm.trans hn))
      obtain rfl := Option.some.inj (hcontents.symm.trans hcontents')
      refine .inr ⟨hpos, ?_⟩
      by_contra hnot
      rw [not_or, not_not] at hnot
      -- nothing was asked for, and nothing has been read from a file with contents
      rcases hres with hneg | ⟨-, hmin, -, -⟩
      · omega
      · exact hnot.2 (hzero (by omega))
  · rintro (rfl | ⟨hpos, hsome⟩)
    · exact .inl hreturned
    · rcases hres with hneg | ⟨-, hmin, hsome', rfl⟩
      · omega
      · refine .inr ⟨res, contents, hreturned, hcontents, hpos, ?_, fun j hj => ?_,
          fun j hj hj' => ?_, fun hzero => ?_⟩
        · have := Nat.mod_le o.dst.size.toNat (2 ^ 32)
          omega
        · have hlt : j < contents.length := by omega
          have hsize : j < o.dst.size.toNat := by
            have := Nat.mod_le o.dst.size.toNat (2 ^ 32)
            omega
          rw [hafter hpos j hsize, storeBytes_add, List.getD_eq_getElem?_getD,
            List.getElem?_take_of_lt hj, List.getElem?_eq_getElem hlt, Option.getD_some]
        · rw [hafter hpos j hj', storeBytes_add, List.getD_eq_getElem?_getD,
            List.getElem?_take_eq_none hj, Option.getD_none]
        · rcases hsome with hnarrow | hempty
          · by_contra hne
            have := hsome' (by omega) hne
            omega
          · exact hempty

/-- A call that ends early keeps its contract. -/
theorem contract_iff_of_early {o : Outcome} (hwaited : o.waited = false)
    (hreturned : o.returned = some (.readFile (-1))) : o.Contract ↔ o.KeepsContract :=
  iff_of_true (.inl hreturned) (.inl hwaited)

end SystemsStack.Uring
