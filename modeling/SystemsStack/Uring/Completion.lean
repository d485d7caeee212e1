import SystemsStack.Uring.Machine

/-!
# Whose completion a call takes

As long as no submit and no wait has failed since the ring was opened, the ring holds at most the
entry of the call under way, and is empty between calls (`SystemsStack.Uring.Clean`). A call that
returns early from a failed submit or wait leaves its entry, or its completion, behind; the next
call then takes the oldest completion, which may not be its own.

A call that takes a completion answers with the result of its own operation in every run in which
no completion is taken from a ring on which a submit or a wait has failed
(`SystemsStack.Uring.harvested_eq_call`).

## Main definitions

* `SystemsStack.Uring.Clean`.
* `SystemsStack.Uring.TakesFromCleanRing`: the condition on a step.

## Main results

* `SystemsStack.Uring.clean_isInvariant`.
* `SystemsStack.Uring.harvested_eq_call`, `SystemsStack.Uring.not_harvested_eq_call`.

## References

* `include/ll/linux_uring.hpp`, lines 72–133; `tests/test_roadmap_stack.cpp`, lines 90–113.
-/

namespace SystemsStack.Uring

open Core

variable {s s' : State}

/-! ### Rings without failures -/

/-- Unless a submit or a wait has failed, the ring holds the entry of the call under way, once it
has been prepared, and nothing else. -/
def Clean (s : State) : Prop :=
  s.failed = false →
    match s.pc with
    | .idle | .getSqe _ _ => s.ring = {}
    | .submit c call => s.ring = ({} : SubmissionRing Op Int32).prepare c call.op
    | .wait c call => s.ring.Holds c call.op

section Clean

variable {c : ℕ} {call : Call}

theorem Clean.ring_of_idle (hs : Clean s) (hfailed : s.failed = false) (pc : s.pc = .idle) :
    s.ring = {} := by
  simpa only [pc] using hs hfailed

theorem Clean.ring_of_getSqe (hs : Clean s) (hfailed : s.failed = false)
    (pc : s.pc = .getSqe c call) : s.ring = {} := by
  simpa only [pc] using hs hfailed

theorem Clean.ring_of_submit (hs : Clean s) (hfailed : s.failed = false)
    (pc : s.pc = .submit c call) :
    s.ring = ({} : SubmissionRing Op Int32).prepare c call.op := by
  simpa only [pc] using hs hfailed

theorem Clean.holds_of_wait (hs : Clean s) (hfailed : s.failed = false)
    (pc : s.pc = .wait c call) : s.ring.Holds c call.op := by
  simpa only [pc] using hs hfailed

end Clean

theorem State.close_pc (s : State) : s.close.pc = s.pc := by
  rw [State.close]
  split_ifs <;> rfl

theorem State.close_answers (s : State) : s.close.answers = s.answers := by
  rw [State.close]
  split_ifs <;> rfl

theorem Clean.close (hs : Clean s) (pc : s.pc = .idle) : Clean s.close := by
  by_cases hopen : s.isOpen = true
  · rw [State.close, if_pos hopen]
    intro _
    simp only [pc]
  · rwa [State.close, if_neg hopen]

theorem Clean.step (hs : Clean s) {a : Action} (h : Step s a s') : Clean s' := by
  cases h with
  | openFails pc | closes pc => exact hs.close pc
  | opens pc =>
    intro _
    simp only [State.close_pc, pc]
  | refuses pc fails =>
    intro hfailed
    simp only [State.refuse, pc]
    exact hs.ring_of_idle hfailed pc
  | callNop pc | callReadFile pc => exact fun hfailed => hs.ring_of_idle hfailed pc
  | noSqe pc => exact fun hfailed => hs.ring_of_getSqe hfailed pc
  | @prepares c call pc =>
    intro hfailed
    change s.ring.prepare c call.op = _
    rw [hs.ring_of_getSqe hfailed pc]
  | @submits rc c call pc ok =>
    intro hfailed
    change s.ring.submit.Holds c call.op
    rw [hs.ring_of_submit hfailed pc]
    exact .submit_prepare
  | submitFails pc fails | waitFails pc fails => exact fun hfailed => absurd hfailed nofun
  | harvests pc ok harvest =>
    intro hfailed
    have hholds := hs.holds_of_wait hfailed pc
    exact (hholds.harvest harvest).2
  | @completes i res bytes e ring memory complete execute =>
    intro hfailed
    change match s.pc with
      | .idle | .getSqe _ _ => ring = {}
      | .submit c call => ring = ({} : SubmissionRing Op Int32).prepare c call.op
      | .wait c call => ring.Holds c call.op
    cases pc : s.pc with
    | wait c call => exact (hs.holds_of_wait hfailed pc).complete complete
    -- nothing is in flight
    | idle =>
      rw [hs.ring_of_idle hfailed pc] at complete
      exact absurd complete nofun
    | getSqe c call =>
      rw [hs.ring_of_getSqe hfailed pc] at complete
      exact absurd complete nofun
    | submit c call =>
      rw [hs.ring_of_submit hfailed pc] at complete
      exact absurd complete nofun

theorem clean_isInvariant : uring.IsInvariant Clean where
  init _ := rfl
  step hs h := hs.step (.of_step h)

/-! ### Own completions -/

/-- A completion is taken only from a ring on which no submit and no wait has failed since it was
opened. -/
def TakesFromCleanRing (s : State) : Action → Prop
  | .wait rc => ¬rc < 0 → s.failed = false
  | _ => True

instance (s : State) : DecidablePred (TakesFromCleanRing s)
  | .wait rc => inferInstanceAs (Decidable (¬rc < 0 → s.failed = false))
  | .openRing _ | .closeRing | .submitNopAndWait | .readFile _ _ _ | .getSqe _ | .submit _
  | .complete _ _ _ => inferInstanceAs (Decidable True)

/-- Every call that has reported success has taken its own completion. -/
def Answered (s : State) : Prop :=
  ∀ a ∈ s.answers, a.returned.Success → a.harvested = some a.call

/-- A call that ends early reports a failure. -/
theorem Call.not_success_none (call : Call) : ¬(call.returned none).Success := by
  cases call with
  | nop => decide
  | readFile fd dst =>
    change ¬(0 : Int32) ≤ -1
    decide

theorem Answered.append (hs : Answered s) {a : Answer}
    (ha : a.returned.Success → a.harvested = some a.call)
    (hanswers : s'.answers = s.answers ++ [a]) : Answered s' := by
  intro b hb
  rw [hanswers] at hb
  rcases List.mem_append.mp hb with hb | hb
  · exact hs b hb
  · rwa [List.mem_singleton.mp hb]

theorem Answered.step (hclean : Clean s) (hs : Answered s) {a : Action}
    (ha : TakesFromCleanRing s a) (h : Step s a s') : Answered s' := by
  cases h with
  | openFails pc | closes pc | opens pc =>
    intro b hb
    exact hs b (s.close_answers ▸ hb)
  | callNop pc | callReadFile pc | prepares pc | submits pc | completes => exact hs
  | refuses pc fails => exact hs.append (fun h => absurd h fails) rfl
  | noSqe pc | submitFails pc fails | waitFails pc fails =>
    exact hs.append (fun h => absurd h (Call.not_success_none _)) rfl
  | harvests pc ok harvest =>
    have hholds := hclean.holds_of_wait (ha ok) pc
    exact hs.append (fun _ => congrArg some (hholds.harvest harvest).1) rfl

/-- **A call takes its own completion**, in every run in which completions are taken only from
rings on which no submit and no wait has failed since they were opened. -/
theorem harvested_eq_call {acts : List Action}
    (hmeets : uring.Meets TakesFromCleanRing uring.init acts)
    (hrun : uring.run uring.init acts = some s) :
    ∀ a ∈ s.answers, a.returned.Success → a.harvested = some a.call := by
  have hI : (uring.restrict TakesFromCleanRing).IsInvariant fun s => Clean s ∧ Answered s :=
    (clean_isInvariant.restrict TakesFromCleanRing).of_relative
      (fun _ h => absurd h List.not_mem_nil) fun hclean hs h =>
        have hstep := (TransitionSystem.restrict_step_iff _).mp h
        hs.step hclean hstep.1 (.of_step hstep.2)
  exact (hI.of_run hI.init ((TransitionSystem.run_restrict _).mpr ⟨hmeets, hrun⟩)).2

/-- A file of four bytes is read, after a `submit_nop_and_wait` whose wait was interrupted. -/
def readAfterInterruptedNop : List Action :=
  [.openRing 0, .submitNopAndWait, .getSqe false, .submit 1, .wait (-4), .complete 0 0 [],
    .readFile (some "hosts") ⟨64, 4⟩ (some (3, [1, 2, 3, 4])), .getSqe false, .submit 1, .wait 0]

/-- The read takes the completion of the nop, and returns zero for a file of four bytes. -/
theorem not_harvested_eq_call : ¬ ∀ s, uring.Reachable s →
    ∀ a ∈ s.answers, a.returned.Success → a.harvested = some a.call := by
  intro h
  obtain ⟨s, hs, hmem⟩ := TransitionSystem.exists_reachable (M := uring)
    (p := fun s => ⟨1, .readFile 0, some 0⟩ ∈ s.answers) readAfterInterruptedNop (by decide)
  exact absurd (h s hs _ hmem (by decide)) (by decide)

/-- The same two calls, with the ring reopened in between: the read takes its own completion. -/
theorem harvested_eq_call_reopened : ∃ s : State,
    (⟨1, .readFile 4, some 1⟩ ∈ s.answers ∧ s.answers.length = 2) ∧
      ∀ a ∈ s.answers, a.returned.Success → a.harvested = some a.call := by
  obtain ⟨s, ⟨acts, hrun⟩, hmem⟩ := TransitionSystem.exists_reachable
    (M := uring.restrict TakesFromCleanRing)
    (p := fun s => ⟨1, .readFile 4, some 1⟩ ∈ s.answers ∧ s.answers.length = 2)
    (readAfterInterruptedNop.take 6 ++ .openRing 0 ::
      (readAfterInterruptedNop.drop 6).take 3 ++ [.complete 0 4 [1, 2, 3, 4], .wait 0])
    (by decide)
  have hrun := (TransitionSystem.run_restrict _).mp hrun
  exact ⟨s, hmem, harvested_eq_call hrun.1 hrun.2⟩

end SystemsStack.Uring
