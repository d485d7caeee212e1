import SystemsStack.Uring.Completion

/-!
# Reads left behind in the ring

A `read_file` whose submit or wait fails closes its descriptor and gives its buffer back while its
read may still be prepared or in flight; so does one that takes the completion of an earlier call.
The kernel may execute the read later, when the buffer belongs to somebody else and the number of
the descriptor may denote another file.

This does not happen in a run in which every `read_file` that gets an entry gets it on a ring on
which no submit and no wait has failed, and its own submit and wait succeed: a read that is
outstanding then belongs to the call under way, whose descriptor is open, and the kernel stores
bytes only in the buffer of that call (`SystemsStack.Uring.reads_belong_to_call`).

## Main definitions

* `SystemsStack.Uring.ReadsComplete`: the condition on a step.
* `SystemsStack.Uring.Reading`: the invariant.

## Main results

* `SystemsStack.Uring.reads_belong_to_call`, `SystemsStack.Uring.not_reads_belong_to_call`.

## References

* `include/ll/linux_uring.hpp`, lines 99–133.
-/

namespace SystemsStack.Uring

open Core

variable {s s' : State}

/-! ### The condition -/

/-- The call under way is a `read_file`. -/
def Pc.reads (pc : Pc) : Bool :=
  match pc.call? with
  | some (_, .readFile _ _) => true
  | _ => false

/-- A `read_file` gets its entry on a ring on which no submit and no wait has failed since it was
opened, and its own submit and wait succeed. -/
def ReadsComplete (s : State) : Action → Prop
  | .getSqe null => s.pc.reads = true → null = false → s.failed = false
  | .submit rc | .wait rc => s.pc.reads = true → ¬rc < 0
  | _ => True

instance (s : State) : DecidablePred (ReadsComplete s)
  | .getSqe null => inferInstanceAs (Decidable (_ → null = false → _))
  | .submit rc => inferInstanceAs (Decidable (_ → ¬rc < 0))
  | .wait rc => inferInstanceAs (Decidable (_ → ¬rc < 0))
  | .openRing _ | .closeRing | .submitNopAndWait | .readFile _ _ _
  | .complete _ _ _ => inferInstanceAs (Decidable True)

/-! ### The invariant -/

/-- The entry of the call under way, once it has been prepared. -/
def Pc.entry? : Pc → Option (ℕ × Op)
  | .idle | .getSqe _ _ => none
  | .submit c call | .wait c call => some (c, call.op)

/-- The entry of a call other than `read_file` is a nop. -/
theorem nop_of_not_reads {pc : Pc} (hpc : pc.reads = false) {e : ℕ × Op}
    (he : pc.entry? = some e) : e.2 = .nop := by
  cases pc with
  | idle | getSqe c call => exact absurd he nofun
  | submit c call | wait c call =>
    obtain rfl := Option.some.inj he
    cases call with
    | nop => rfl
    | readFile fd dst => exact absurd hpc nofun

/-- Outstanding reads belong to the call under way, whose descriptor is open; once it has its
entry, no submit and no wait has failed. -/
structure Reading (s : State) : Prop where
  outstanding : ∀ e ∈ s.ring.outstanding, e.2 ≠ .nop → s.pc.entry? = some e
  opened : ∀ c fd dst, s.pc.call? = some (c, .readFile fd dst) → s.files fd ≠ none
  unfailed : s.pc.reads = true → s.pc.entry? ≠ none → s.failed = false

namespace Reading

/-- Between the entries of two calls, no read is outstanding. -/
theorem nop_of_entry (hs : Reading s) (pc : ∀ e, s.pc.entry? = some e → e.2 = .nop) :
    ∀ e ∈ s.ring.outstanding, e.2 = .nop := by
  intro e he
  by_contra hne
  exact hne (pc e (hs.outstanding e he hne))

/-- A call that has returned leaves no read behind. -/
theorem of_idle (hring : ∀ e ∈ s'.ring.outstanding, e.2 = .nop) (pc : s'.pc = .idle) :
    Reading s' where
  outstanding e he hne := absurd (hring e he) hne
  opened := by simp [pc, Pc.call?]
  unfailed := by simp [pc, Pc.reads, Pc.call?]

theorem close_outstanding (hs : Reading s) (pc : s.pc = .idle) :
    ∀ e ∈ s.close.ring.outstanding, e.2 = .nop := by
  rw [State.close]
  split_ifs
  · exact fun e he => absurd he List.not_mem_nil
  · exact hs.nop_of_entry (by simp [pc, Pc.entry?])

theorem step (hclean : Clean s) (hs : Reading s) {a : Action} (ha : ReadsComplete s a)
    (h : Step s a s') : Reading s' := by
  cases h with
  | openFails pc | closes pc => exact .of_idle (hs.close_outstanding pc) (s.close_pc.trans pc)
  | opens pc => exact .of_idle (fun e he => absurd he List.not_mem_nil) (s.close_pc.trans pc)
  | refuses pc fails => exact .of_idle (hs.nop_of_entry (by simp [pc, Pc.entry?])) pc
  | callNop pc =>
    exact {
      outstanding := fun e he hne =>
        absurd (hs.nop_of_entry (by simp [pc, Pc.entry?]) e he) hne
      opened := by simp [Pc.call?]
      unfailed := by simp [Pc.reads, Pc.call?] }
  | @callReadFile path dst fd contents pc =>
    exact {
      outstanding := fun e he hne =>
        absurd (hs.nop_of_entry (by simp [pc, Pc.entry?]) e he) hne
      opened := fun c fd' dst' hcall => by
        simp only [Pc.call?, Option.some.injEq, Prod.mk.injEq, Call.readFile.injEq] at hcall
        obtain ⟨-, rfl, -⟩ := hcall
        change Function.update s.files fd (some contents) fd ≠ none
        rw [Function.update_self]
        exact Option.some_ne_none contents
      unfailed := fun _ h => absurd rfl h }
  | noSqe pc => exact .of_idle (hs.nop_of_entry (by simp [pc, Pc.entry?])) rfl
  | @prepares c call pc =>
    exact {
      outstanding := fun e he hne => by
        rcases SubmissionRing.mem_outstanding_prepare.mp he with he | rfl
        · exact absurd (hs.nop_of_entry (by simp [pc, Pc.entry?]) e he) hne
        · rfl
      opened := fun c' fd dst hcall => hs.opened c' fd dst (by rw [pc]; exact hcall)
      unfailed := fun hreads _ => ha (by rw [pc]; exact hreads) rfl }
  | submitFails pc fails =>
    refine .of_idle (hs.nop_of_entry fun e he => ?_) rfl
    exact nop_of_not_reads (Bool.eq_false_iff.mpr fun hreads => ha hreads fails) he
  | submits pc ok =>
    exact {
      outstanding := fun e he hne => by
        have hentry := hs.outstanding e (SubmissionRing.mem_outstanding_submit.mp he) hne
        rw [pc] at hentry
        exact hentry
      opened := fun c' fd dst hcall => hs.opened c' fd dst (by rw [pc]; exact hcall)
      unfailed := fun hreads _ => hs.unfailed (by rw [pc]; exact hreads) (by simp [pc, Pc.entry?]) }
  | waitFails pc fails =>
    refine .of_idle (hs.nop_of_entry fun e he => ?_) rfl
    exact nop_of_not_reads (Bool.eq_false_iff.mpr fun hreads => ha hreads fails) he
  | @harvests rc c call cqe ring pc ok harvest =>
    refine .of_idle (fun e he => ?_) rfl
    by_cases hreads : s.pc.reads = true
    · -- the completion was the last entry of a clean ring
      have hfailed := hs.unfailed hreads (by simp [pc, Pc.entry?])
      obtain rfl := ((hclean.holds_of_wait hfailed pc).harvest harvest).2
      exact absurd he List.not_mem_nil
    · have he : e ∈ s.ring.outstanding := SubmissionRing.outstanding_of_harvest harvest ▸ he
      exact hs.nop_of_entry (fun _ => nop_of_not_reads (Bool.eq_false_iff.mpr hreads)) e he
  | completes complete execute =>
    exact { hs with outstanding := fun e he =>
      hs.outstanding e ((SubmissionRing.mem_outstanding_of_complete complete).2 e he) }

end Reading

/-- The entries that the kernel executes, and the bytes that it stores, belong to the call under
way. -/
theorem reading_isInvariant :
    (uring.restrict ReadsComplete).IsInvariant fun s => Clean s ∧ Reading s :=
  (clean_isInvariant.restrict ReadsComplete).of_relative
    (.of_idle (fun _ he => absurd he List.not_mem_nil) rfl) fun hclean hs h =>
      have hstep := (TransitionSystem.restrict_step_iff _).mp h
      hs.step hclean hstep.1 (.of_step hstep.2)

/-! ### Buffers and descriptors of calls that have returned -/

/-- The read of a call is that of its descriptor and its buffer. -/
theorem call_of_entry_read {pc : Pc} {c fd data : ℕ} {len : UInt32}
    (h : pc.entry? = some (c, .read fd data len)) : ∃ dst : Span,
      pc.call? = some (c, .readFile fd dst) ∧ dst.data = data ∧ dst.size.toUInt32 = len := by
  cases pc with
  | idle | getSqe c call => exact absurd h nofun
  | submit c' call | wait c' call =>
    simp only [Pc.entry?, Option.some.injEq, Prod.mk.injEq] at h
    obtain ⟨rfl, hop⟩ := h
    cases call with
    | nop => exact absurd hop nofun
    | readFile fd' dst =>
      obtain ⟨rfl, rfl, rfl⟩ := Op.read.inj hop
      exact ⟨dst, rfl, rfl, rfl⟩

/-- Bytes are stored only at their addresses. -/
theorem storeBytes_ne {memory : ℕ → UInt8} {data addr : ℕ} {bytes : List UInt8}
    (h : storeBytes memory data bytes addr ≠ memory addr) :
    data ≤ addr ∧ addr < data + bytes.length := by
  rw [storeBytes] at h
  split_ifs at h with hle
  · refine ⟨hle, ?_⟩
    by_contra hlt
    rw [List.getD_eq_getElem?_getD, List.getElem?_eq_none (by omega)] at h
    exact h rfl
  · exact absurd rfl h

theorem State.close_memory (s : State) : s.close.memory = s.memory := by
  rw [State.close]
  split_ifs <;> rfl

/-- Only the completion of a read changes the memory, and only in the buffer of the entry. -/
theorem Step.memory_ne {a : Action} (h : Step s a s') {addr : ℕ}
    (hne : s'.memory addr ≠ s.memory addr) : ∃ c fd data len,
      (c, Op.read fd data len) ∈ s.ring.outstanding ∧ data ≤ addr ∧ addr < data + len.toNat := by
  cases h with
  | openFails pc | closes pc | opens pc => exact absurd (congrFun s.close_memory addr) hne
  | refuses pc fails | callNop pc | callReadFile pc | noSqe pc | prepares pc | submitFails pc fails
  | submits pc ok | waitFails pc fails | harvests pc ok harvest => exact absurd rfl hne
  | @completes i res bytes e ring memory complete hexecute =>
    have hmem := (SubmissionRing.mem_outstanding_of_complete complete).1
    obtain ⟨c, op⟩ := e
    cases op with
    | nop =>
      simp only [execute, Option.ite_none_right_eq_some, Option.some.injEq] at hexecute
      exact absurd (congrFun hexecute.2.symm addr) hne
    | read fd data len =>
      simp only [execute, Option.ite_none_right_eq_some, Option.some.injEq] at hexecute
      obtain ⟨hlen, rfl⟩ := hexecute
      obtain ⟨hle, hlt⟩ := storeBytes_ne hne
      exact ⟨c, fd, data, len, hmem, hle, by omega⟩

/-- **Reads belong to the call under way**, in every run in which each `read_file` that gets an
entry gets it on a ring on which no submit and no wait has failed, and its own submit and wait
succeed. Between calls no read is outstanding; a read that the kernel executes is that of the call
under way, on its open descriptor; and memory changes only in the buffer of that call. -/
theorem reads_belong_to_call {acts : List Action}
    (hmeets : uring.Meets ReadsComplete uring.init acts)
    (hrun : uring.run uring.init acts = some s) :
    (s.pc = .idle → ∀ c fd data len, (c, Op.read fd data len) ∉ s.ring.outstanding) ∧
    (∀ i res bytes s', uring.step s (.complete i res bytes) = some s' →
      ∀ c fd data len, s.ring.inFlight[i]? = some (c, .read fd data len) →
        s.files fd ≠ none ∧ ∃ dst, s.pc.call? = some (c, .readFile fd dst)) ∧
    ∀ a s', uring.step s a = some s' → ∀ addr, s'.memory addr ≠ s.memory addr →
      ∃ c fd dst, s.pc.call? = some (c, .readFile fd dst) ∧
        dst.data ≤ addr ∧ addr < dst.data + dst.size.toNat := by
  have hI := reading_isInvariant
  have hs := (hI.of_run hI.init ((TransitionSystem.run_restrict _).mpr ⟨hmeets, hrun⟩)).2
  refine ⟨fun pc c fd data len hmem => ?_, fun i res bytes s' _ c fd data len hi => ?_,
    fun a s' h addr hne => ?_⟩
  · have hentry := hs.outstanding _ hmem nofun
    rw [pc] at hentry
    exact absurd hentry nofun
  · have hmem : (c, Op.read fd data len) ∈ s.ring.outstanding :=
      List.mem_append_right _ (List.mem_of_getElem? hi)
    obtain ⟨dst, hcall, -, -⟩ := call_of_entry_read (hs.outstanding _ hmem nofun)
    exact ⟨hs.opened c fd dst hcall, dst, hcall⟩
  · obtain ⟨c, fd, data, len, hmem, hle, hlt⟩ := (Step.of_step h).memory_ne hne
    obtain ⟨dst, hcall, rfl, rfl⟩ := call_of_entry_read (hs.outstanding _ hmem nofun)
    refine ⟨c, fd, dst, hcall, hle, Nat.lt_of_lt_of_le hlt (Nat.add_le_add_left ?_ _)⟩
    rw [UInt64.toNat_toUInt32]
    exact Nat.mod_le _ _

/-- A `read_file` whose wait is interrupted. -/
def interruptedRead : List Action :=
  [.openRing 0, .readFile (some "hosts") ⟨64, 4⟩ (some (3, [1, 2, 3, 4])), .getSqe false,
    .submit 1, .wait (-4)]

/-- The read stays in flight after its call has returned. -/
theorem not_reads_belong_to_call : ¬ ∀ s, uring.Reachable s → s.pc = .idle →
    ∀ c fd data len, (c, Op.read fd data len) ∉ s.ring.outstanding := by
  intro h
  obtain ⟨s, hs, pc, hmem⟩ := TransitionSystem.exists_reachable (M := uring)
    (p := fun s => s.pc = .idle ∧ (0, Op.read 3 64 4) ∈ s.ring.outstanding) interruptedRead
    (by decide)
  exact h s hs pc _ _ _ _ hmem

/-- While its own read is in flight, the call of the descriptor `3` is under way. -/
theorem reads_belong_to_call_inFlight : ∃ s : State,
    s.ring.inFlight[0]? = some (0, .read 3 64 4) ∧
      ∃ dst, s.pc.call? = some (0, .readFile 3 dst) := by
  obtain ⟨s, ⟨acts, hrun⟩, hflight, hstep⟩ := TransitionSystem.exists_reachable
    (M := uring.restrict ReadsComplete)
    (p := fun s => s.ring.inFlight[0]? = some (0, .read 3 64 4) ∧
      (uring.step s (.complete 0 0 [])).isSome = true) (interruptedRead.take 4) (by decide)
  have hrun := (TransitionSystem.run_restrict _).mp hrun
  obtain ⟨s', hs'⟩ := Option.isSome_iff_exists.mp hstep
  have hread := (reads_belong_to_call hrun.1 hrun.2).2.1 0 0 [] s' hs' 0 3 64 4 hflight
  exact ⟨s, hflight, hread.2⟩

end SystemsStack.Uring
