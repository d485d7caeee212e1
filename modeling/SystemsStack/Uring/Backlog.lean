import SystemsStack.Uring.ReadFile

/-!
# What failures leave behind

A call that returns from a failed submit or wait leaves its operation in the ring. Nothing ever
catches up: a call that succeeds adds one operation to the ring and takes one completion. So
between calls there are exactly as many operations and completions in the ring as submits and waits
have failed since it was exited last (`SystemsStack.Uring.backlog_eq`).

Whatever fails, no completion is lost or taken twice: each call is answered once, in order, and
takes a completion of its own or of an earlier call, which no other call takes
(`SystemsStack.Uring.taken_once`). And no call leaves anything else behind: a descriptor is open
only during the call that has opened it, and the ring is used only while it is set up
(`SystemsStack.Uring.resources_released`).

Source: `include/ll/linux_uring.hpp`, lines 32–140.

## Main definitions

* `SystemsStack.Uring.RingEvent`, `SystemsStack.Uring.backlog`.
* `SystemsStack.Uring.State.taken`: the calls whose completions have been taken.

## Main results

* `SystemsStack.Uring.backlog_eq`, `SystemsStack.Uring.taken_once`,
  `SystemsStack.Uring.resources_released`.
-/

namespace SystemsStack.Uring

open Core

variable {s s' : State} {a : Action} {c : ℕ} {call : Call}

/-! ### Resources -/

/-- A descriptor is open only during the call that has opened it, and a ring that is not set up is
empty and not used. -/
structure Tidy (s : State) : Prop where
  files : ∀ fd, s.files fd ≠ none ↔ ∃ c dst, s.pc.call? = some (c, .readFile fd dst)
  isOpen : s.pc ≠ .idle → s.isOpen = true
  closed : s.isOpen = false → s.ring = {} ∧ s.failed = false

namespace Tidy

theorem files_of_idle (hs : Tidy s) (pc : s.pc = .idle) (fd : ℕ) : s.files fd = none := by
  by_contra hopen
  obtain ⟨c, dst, h⟩ := (hs.files fd).mp hopen
  rw [pc] at h
  exact absurd h (Option.some_ne_none _).symm

theorem close (hs : Tidy s) (pc : s.pc = .idle) : Tidy s.close := by
  rw [State.close]
  split_ifs
  · exact ⟨hs.files, fun h => absurd pc h, fun _ => ⟨rfl, rfl⟩⟩
  · exact hs

/-- The call returns, and its descriptor is closed. -/
theorem finish (hs : Tidy s) (hcall : s.pc.call? = some (c, call)) {s' : State} (pc : s'.pc = .idle)
    (hfiles : s'.files = closeFd s.files call) (hopen : s'.isOpen = true) : Tidy s' where
  files fd := by
    refine ⟨fun h => absurd ?_ h, fun ⟨_, _, h⟩ => absurd h (by simp [pc, Pc.call?])⟩
    have hother (h : s.files fd ≠ none) : ∃ dst, call = .readFile fd dst := by
      obtain ⟨c', dst, hcall'⟩ := (hs.files fd).mp h
      exact ⟨dst, (Prod.mk.inj (Option.some.inj (hcall.symm.trans hcall'))).2⟩
    rw [hfiles]
    cases call with
    | nop =>
      refine by_contra fun h => ?_
      obtain ⟨dst, h⟩ := hother h
      cases h
    | readFile fd' dst =>
      by_cases heq : fd = fd'
      · exact heq ▸ Function.update_self ..
      · refine (Function.update_of_ne heq ..).trans (by_contra fun h => ?_)
        obtain ⟨dst', h⟩ := hother h
        exact heq (Call.readFile.inj h).1.symm
  isOpen h := absurd pc h
  closed h := absurd h (by simp [hopen])

/-- The call goes on. -/
theorem goesOn (hs : Tidy s) (hcall : s.pc.call? = some (c, call))
    (hcall' : s'.pc.call? = some (c, call)) (hfiles : s'.files = s.files)
    (hopen : s'.isOpen = true) : Tidy s' where
  files fd := by rw [hfiles, hcall', hs.files fd, hcall]
  isOpen _ := hopen
  closed h := absurd h (by simp [hopen])

theorem step (hs : Tidy s) (h : Step s a s') : Tidy s' := by
  have hopen {c : ℕ} {call : Call} (hcall : s.pc.call? = some (c, call)) : s.isOpen = true :=
    hs.isOpen fun pc => by simp [pc, Pc.call?] at hcall
  cases h with
  | openFails pc | closes pc => exact hs.close pc
  | opens pc => exact ⟨(hs.close pc).files, fun _ => rfl, fun h => absurd h (by simp)⟩
  | refuses pc => exact ⟨hs.files, hs.isOpen, hs.closed⟩
  | callNop pc isOpen =>
    refine ⟨fun fd => ?_, fun _ => isOpen, fun h => ?_⟩
    · simp [hs.files_of_idle pc fd, Pc.call?]
    · simp [isOpen] at h
  | @callReadFile path dst fd contents pc isOpen =>
    refine ⟨fun fd' => ?_, fun _ => isOpen, fun h => ?_⟩
    · by_cases heq : fd' = fd
      · simp [heq, Pc.call?]
      · simp [Function.update_of_ne heq, hs.files_of_idle pc fd', Pc.call?, Ne.symm heq]
    · simp [isOpen] at h
  | @noSqe c call pc | @submitFails _ c call pc | @waitFails _ c call pc
  | @harvests _ c call _ _ pc =>
    have hcall : s.pc.call? = some (c, call) := by rw [pc]; rfl
    exact hs.finish hcall rfl rfl (hopen hcall)
  | @prepares c call pc | @submits _ c call pc =>
    have hcall : s.pc.call? = some (c, call) := by rw [pc]; rfl
    exact hs.goesOn hcall rfl rfl (hopen hcall)
  | completes complete execute =>
    refine ⟨hs.files, hs.isOpen, fun hclosed => ?_⟩
    rw [(hs.closed hclosed).1] at complete
    cases complete

end Tidy

theorem tidy_isInvariant : uring.IsInvariant Tidy where
  init := ⟨fun _ => iff_of_false (absurd rfl) nofun, fun h => absurd rfl h, fun _ => ⟨rfl, rfl⟩⟩
  step hs h := hs.step (.of_step h)

/-- **Nothing is leaked.** In every run, whatever fails: a descriptor is open exactly during the
call of `read_file` that has opened it, the ring is set up during every call, and a ring that is
not set up holds nothing. -/
theorem resources_released (hs : uring.Reachable s) :
    (∀ fd, s.files fd ≠ none ↔ ∃ c dst, s.pc.call? = some (c, .readFile fd dst)) ∧
      (s.pc ≠ .idle → s.isOpen = true) ∧ (s.isOpen = false → s.ring = {}) := by
  have htidy := tidy_isInvariant.of_reachable hs
  exact ⟨htidy.files, htidy.isOpen, fun hclosed => (htidy.closed hclosed).1⟩

/-- The descriptor of a read that is under way is open, and no other one. -/
theorem resources_released_read : ∃ s : State,
    s.pc.call? = some (1, .readFile 3 ⟨64, 4⟩) ∧ s.files 3 ≠ none ∧ s.files 0 = none := by
  obtain ⟨s, hs, hcall⟩ := TransitionSystem.exists_reachable (M := uring)
    (p := fun s => s.pc.call? = some (1, .readFile 3 ⟨64, 4⟩))
    (readAfterInterruptedNop.take 8) (by decide)
  have hfiles := (resources_released hs).1
  refine ⟨s, hcall, (hfiles 3).mpr ⟨1, ⟨64, 4⟩, hcall⟩, by_contra fun hopen => ?_⟩
  obtain ⟨c, dst, hother⟩ := (hfiles 0).mp hopen
  exact absurd (hcall.symm.trans hother) (by simp)

/-! ### Completions -/

/-- The calls whose completions have been taken. -/
def State.taken (s : State) : List ℕ := s.answers.filterMap Answer.harvested

/-- The calls are answered in their order, and no completion is taken twice. -/
structure Delivered (s : State) : Prop where
  calls : s.answers.map Answer.call ++ (s.pc.call?.map Prod.fst).toList = List.range s.calls
  nodup : (s.taken ++ s.ring.numbers).Nodup
  le : ∀ a ∈ s.answers, ∀ c, a.harvested = some c → c ≤ a.call

namespace Delivered

/-- The call under way is the last one. -/
theorem underway (hs : Delivered s) (hcall : s.pc.call? = some (c, call)) :
    s.answers.map Answer.call = List.range c ∧ s.calls = c + 1 := by
  have hcalls := hs.calls
  rw [hcall, Option.map_some, Option.toList_some] at hcalls
  cases hn : s.calls with
  | zero => simp [hn] at hcalls
  | succ n =>
    rw [hn, List.range_succ] at hcalls
    obtain ⟨hanswers, hc⟩ := List.append_inj' hcalls rfl
    obtain rfl : c = n := List.head_eq_of_cons_eq hc
    exact ⟨hanswers, rfl⟩

theorem notMem_taken (hs : Delivered s) (hanswers : s.answers.map Answer.call = List.range c) :
    c ∉ s.taken := by
  intro hc
  obtain ⟨answer, hanswer, hharvested⟩ := List.mem_filterMap.mp hc
  have hlt : answer.call < c :=
    List.mem_range.mp (hanswers ▸ List.mem_map_of_mem hanswer)
  exact absurd (hs.le answer hanswer c hharvested) (Nat.not_le_of_lt hlt)

/-- No call returns. -/
theorem keep (hs : Delivered s) (hanswers : s'.answers = s.answers)
    (hcalls : s.answers.map Answer.call ++ (s'.pc.call?.map Prod.fst).toList =
      List.range s'.calls) (hnodup : (s.taken ++ s'.ring.numbers).Nodup) : Delivered s' where
  calls := hanswers ▸ hcalls
  nodup := by rwa [State.taken, hanswers]
  le := hanswers ▸ hs.le

/-- A call returns. -/
theorem answer (hs : Delivered s) {answer : Answer} (hanswers : s'.answers = s.answers ++ [answer])
    (hcall : s'.pc.call? = none)
    (hcalls : s.answers.map Answer.call ++ [answer.call] = List.range s'.calls)
    (hnodup : (s.taken ++ answer.harvested.toList ++ s'.ring.numbers).Nodup)
    (hle : ∀ c, answer.harvested = some c → c ≤ answer.call) : Delivered s' where
  calls := by simpa [hanswers, hcall] using hcalls
  nodup := by
    have htaken : s'.taken = s.taken ++ answer.harvested.toList := by
      rw [State.taken, hanswers, List.filterMap_append, List.filterMap_cons]
      cases answer.harvested <;> rfl
    rwa [htaken]
  le b hb := by
    rw [hanswers] at hb
    rcases List.mem_append.mp hb with hb | hb
    · exact hs.le b hb
    · rwa [List.mem_singleton.mp hb]

/-- A call returns without a completion. -/
theorem answer_none (hs : Delivered s) {n : ℕ} {returned : Returned}
    (hanswers : s'.answers = s.answers ++ [⟨n, returned, none⟩]) (hcall : s'.pc.call? = none)
    (hcalls : s.answers.map Answer.call ++ [n] = List.range s'.calls) (hring : s'.ring = s.ring) :
    Delivered s' := by
  refine hs.answer hanswers hcall hcalls ?_ nofun
  rw [hring, Option.toList_none, List.append_nil]
  exact hs.nodup

/-- The operations and completions of a ring that is exited are thrown away. -/
theorem empty (hs : Delivered s) : (s.taken ++ ({} : SubmissionRing Op Int32).numbers).Nodup :=
  (List.append_nil s.taken).symm ▸ (List.nodup_append.mp hs.nodup).1

theorem close (hs : Delivered s) : Delivered s.close := by
  rw [State.close]
  split_ifs
  · exact hs.keep rfl hs.calls hs.empty
  · exact hs

theorem step (hn : Numbered s) (hs : Delivered s) (h : Step s a s') : Delivered s' := by
  have hidle (pc : s.pc = .idle) : s.answers.map Answer.call = List.range s.calls := by
    simpa [pc, Pc.call?] using hs.calls
  have hnext (pc : s.pc = .idle) :
      s.answers.map Answer.call ++ [s.calls] = List.range (s.calls + 1) := by
    rw [hidle pc, List.range_succ]
  have hreturns {c : ℕ} {call : Call} (hcall : s.pc.call? = some (c, call)) :
      s.answers.map Answer.call ++ [c] = List.range s.calls := by
    obtain ⟨hanswers, hcalls⟩ := hs.underway hcall
    rw [hanswers, hcalls, List.range_succ]
  cases h with
  | openFails | closes => exact hs.close
  | opens => exact hs.close.keep rfl hs.close.calls hs.close.empty
  | refuses pc =>
    have hcall : s.pc.call? = none := by rw [pc]; rfl
    exact hs.answer_none rfl hcall (hnext pc) rfl
  | callNop pc | callReadFile pc => exact hs.keep rfl (hnext pc) hs.nodup
  | @noSqe c call pc | @submitFails _ c call pc | @waitFails _ c call pc =>
    have hcall : s.pc.call? = some (c, call) := by rw [pc]; rfl
    exact hs.answer_none rfl rfl (hreturns hcall) rfl
  | @prepares c call pc =>
    have hcall : s.pc.call? = some (c, call) := by rw [pc]; rfl
    refine hs.keep rfl (hreturns hcall) ?_
    have hperm := (SubmissionRing.numbers_prepare (r := s.ring) c call.op).append_left s.taken
    refine (hperm.trans List.perm_middle).nodup_iff.mpr (List.nodup_cons.mpr ⟨?_, hs.nodup⟩)
    rw [List.mem_append, not_or]
    exact ⟨hs.notMem_taken (hs.underway hcall).1, hn.fresh c call pc⟩
  | @submits _ c call pc =>
    have hcall : s.pc.call? = some (c, call) := by rw [pc]; rfl
    exact hs.keep rfl (hreturns hcall)
      ((SubmissionRing.numbers_submit.append_left s.taken).nodup_iff.mpr hs.nodup)
  | @harvests _ c call cqe ring pc _ harvest =>
    have hcall : s.pc.call? = some (c, call) := by rw [pc]; rfl
    have hperm := SubmissionRing.numbers_harvest harvest
    refine hs.answer rfl rfl (hreturns hcall) ?_ fun d hd => ?_
    · change (s.taken ++ [cqe.1] ++ ring.numbers).Nodup
      rw [List.append_assoc]
      exact (hperm.append_left s.taken).nodup_iff.mp hs.nodup
    · obtain rfl : cqe.1 = d := Option.some.inj hd
      have hlt := hn.lt cqe.1 (hperm.symm.subset List.mem_cons_self)
      rw [(hs.underway hcall).2] at hlt
      exact Nat.le_of_lt_succ hlt
  | completes complete execute =>
    exact hs.keep rfl hs.calls
      (((SubmissionRing.numbers_complete complete).append_left s.taken).nodup_iff.mpr hs.nodup)

end Delivered

theorem delivered_isInvariant : uring.IsInvariant fun s => Numbered s ∧ Delivered s :=
  numbered_isInvariant.of_relative ⟨rfl, List.nodup_nil, nofun⟩
    fun hn hs h => hs.step hn (.of_step h)

/-- **Every completion is taken once.** In every run, whatever fails, each call is answered once, in
the order of the calls; no two calls take the same completion, and none that has been taken is still
in the ring; and a call takes its own completion or that of an earlier call. -/
theorem taken_once (hs : uring.Reachable s) :
    s.answers.map Answer.call ++ (s.pc.call?.map Prod.fst).toList = List.range s.calls ∧
      (s.taken ++ s.ring.numbers).Nodup ∧
      ∀ answer ∈ s.answers, ∀ c, answer.harvested = some c → c ≤ answer.call := by
  have hdelivered := (delivered_isInvariant.of_reachable hs).2
  exact ⟨hdelivered.calls, hdelivered.nodup, hdelivered.le⟩

/-- A read takes the completion of a nop whose wait was interrupted, and its own one is left. -/
theorem taken_once_interrupted : ∃ s : State,
    s.taken = [0] ∧ s.ring.numbers = [1] ∧ s.answers.map Answer.call = [0, 1] ∧
      (s.taken ++ s.ring.numbers).Nodup := by
  obtain ⟨s, hs, htaken, hring, hcalls⟩ := TransitionSystem.exists_reachable (M := uring)
    (p := fun s => s.taken = [0] ∧ s.ring.numbers = [1] ∧ s.answers.map Answer.call = [0, 1])
    readAfterInterruptedNop (by decide)
  exact ⟨s, htaken, hring, hcalls, (taken_once hs).2.1⟩

/-! ### The backlog -/

/-- What happens to the backlog of the ring. -/
inductive RingEvent where
  /-- `open` or `close` leaves an empty ring. -/
  | exited
  /-- A submit or a wait has failed. -/
  | failed
  deriving DecidableEq, Repr

/-- What a step does to the backlog. -/
def ringEventOf (s : State) : Action → Option RingEvent
  | .openRing _ | .closeRing => some .exited
  | .submit rc =>
      match s.pc with
      | .submit _ _ => if rc < 0 then some .failed else none
      | _ => none
  | .wait rc =>
      match s.pc with
      | .wait _ _ => if rc < 0 then some .failed else none
      | _ => none
  | _ => none

/-- What an event adds to the backlog, unless the ring is empty after it. -/
def RingEvent.amount : RingEvent → Option ℕ
  | exited => none
  | failed => some 1

/-- The number of failures since the ring was exited last. -/
def backlog : List RingEvent → ℕ := tally RingEvent.amount

@[simp] theorem backlog_exited (log : List RingEvent) : backlog (log ++ [.exited]) = 0 :=
  tally_concat_none _ rfl

@[simp] theorem backlog_failed (log : List RingEvent) :
    backlog (log ++ [.failed]) = backlog log + 1 :=
  tally_concat_some _ rfl

theorem ringEventOf_submit {c : ℕ} {call : Call} {rc : Int32} (pc : s.pc = .submit c call) :
    ringEventOf s (.submit rc) = if rc < 0 then some .failed else none := by
  dsimp only [ringEventOf]
  rw [pc]

theorem ringEventOf_wait {c : ℕ} {call : Call} {rc : Int32} (pc : s.pc = .wait c call) :
    ringEventOf s (.wait rc) = if rc < 0 then some .failed else none := by
  dsimp only [ringEventOf]
  rw [pc]

/-- A call that returns before it has an entry does nothing to the backlog. -/
theorem ringEventOf_refuse {returned : Returned} (pc : s.pc = .idle)
    (h : uring.step s a = some (s.refuse returned)) : ringEventOf s a = none := by
  cases a with
  | openRing rc =>
    simp only [uring, step, pc, Option.some.injEq] at h
    have hcalls := congrArg State.calls h
    rw [State.refuse, State.close] at hcalls
    split_ifs at hcalls <;> simp at hcalls
  | closeRing =>
    simp only [uring, step, pc, Option.some.injEq] at h
    have hcalls := congrArg State.calls h
    rw [State.refuse, State.close] at hcalls
    split_ifs at hcalls <;> simp at hcalls
  | submit rc | wait rc =>
    dsimp only [ringEventOf]
    rw [pc]
  | submitNopAndWait | readFile | getSqe | complete => rfl

/-- The ring holds one operation or completion for each failure, and that of the call under way. -/
structure Backlog (s : State) (log : List RingEvent) : Prop where
  length : s.ring.numbers.length = backlog log + s.pc.entry?.toList.length
  failed : s.failed = true ↔ 0 < backlog log

namespace Backlog

variable {log log' : List RingEvent}

/-- A step that is no failure, and after which the ring is not exited. -/
theorem of_frame (hs : Backlog s log) (hevent : ringEventOf s a = none)
    (hlength : s'.ring.numbers.length + s.pc.entry?.toList.length =
      s.ring.numbers.length + s'.pc.entry?.toList.length) (hfailed : s'.failed = s.failed) :
    Backlog s' (log ++ (ringEventOf s a).toList) := by
  rw [hevent, Option.toList_none, List.append_nil]
  have hbefore := hs.length
  exact ⟨by omega, hfailed ▸ hs.failed⟩

/-- The ring is exited. -/
theorem of_empty (hevent : ringEventOf s a = some .exited) (hring : s'.ring = {})
    (pc : s'.pc = .idle) (hfailed : s'.failed = false) :
    Backlog s' (log ++ (ringEventOf s a).toList) := by
  rw [hevent, Option.toList_some]
  refine ⟨?_, ?_⟩
  · rw [hring, pc, backlog_exited]
    rfl
  · rw [hfailed, backlog_exited]
    exact iff_of_false Bool.false_ne_true (Nat.lt_irrefl 0)

/-- A submit or a wait fails, and its operation is left behind. -/
theorem of_failure (hs : Backlog s log) (hevent : ringEventOf s a = some .failed)
    (hring : s'.ring = s.ring) (hentry : s.pc.entry? ≠ none) (pc : s'.pc = .idle)
    (hfailed : s'.failed = true) : Backlog s' (log ++ (ringEventOf s a).toList) := by
  obtain ⟨entry, hentry⟩ := Option.ne_none_iff_exists'.mp hentry
  rw [hevent, Option.toList_some]
  refine ⟨?_, ?_⟩
  · rw [hring, pc, backlog_failed, hs.length, hentry]
    rfl
  · rw [hfailed, backlog_failed]
    exact iff_of_true rfl (Nat.succ_pos _)

theorem step (ht : Tidy s) (hs : Backlog s log) (h : uring.step s a = some s') :
    Backlog s' (log ++ (ringEventOf s a).toList) := by
  have hclose (pc : s.pc = .idle) :
      s.close.ring = {} ∧ s.close.pc = .idle ∧ s.close.failed = false := by
    refine ⟨?_, s.close_pc.trans pc, ?_⟩ <;> rw [State.close] <;> split_ifs with hopen
    · rfl
    · exact (ht.closed (Bool.eq_false_iff.mpr hopen)).1
    · rfl
    · exact (ht.closed (Bool.eq_false_iff.mpr hopen)).2
  have hstep := Step.of_step h
  cases hstep with
  | openFails pc | closes pc =>
    obtain ⟨hring, hidle, hfailed⟩ := hclose pc
    exact of_empty rfl hring hidle hfailed
  | opens pc => exact of_empty rfl rfl (hclose pc).2.1 rfl
  | refuses pc => exact hs.of_frame (ringEventOf_refuse pc h) rfl rfl
  | callNop pc | callReadFile pc => exact hs.of_frame rfl (by simp [pc, Pc.entry?]) rfl
  | noSqe pc => exact hs.of_frame rfl (by simp [State.finish, pc, Pc.entry?]) rfl
  | submitFails pc fails =>
    have hevent := (ringEventOf_submit pc).trans (if_pos fails)
    exact hs.of_failure hevent rfl (by simp [pc, Pc.entry?]) rfl rfl
  | waitFails pc fails =>
    have hevent := (ringEventOf_wait pc).trans (if_pos fails)
    exact hs.of_failure hevent rfl (by simp [pc, Pc.entry?]) rfl rfl
  | @prepares c call pc =>
    have hlength := (SubmissionRing.numbers_prepare (r := s.ring) c call.op).length_eq
    exact hs.of_frame rfl (by simp [pc, Pc.entry?, hlength]) rfl
  | submits pc ok =>
    have hlength := (SubmissionRing.numbers_submit (r := s.ring)).length_eq
    have hevent := (ringEventOf_submit pc).trans (if_neg ok)
    exact hs.of_frame hevent (by simp [pc, Pc.entry?, hlength]) rfl
  | harvests pc ok harvest =>
    have hlength := (SubmissionRing.numbers_harvest harvest).length_eq
    have hevent := (ringEventOf_wait pc).trans (if_neg ok)
    exact hs.of_frame hevent (by simp [State.finish, pc, Pc.entry?, hlength]) rfl
  | completes complete execute =>
    have hlength := (SubmissionRing.numbers_complete complete).length_eq
    exact hs.of_frame rfl (congrArg (· + _) hlength) rfl

end Backlog

/-- The runs of the ring, with what happens to its backlog. -/
def recordedUring : TransitionSystem (State × List RingEvent) Action := uring.recording ringEventOf

theorem backlog_isInvariant : recordedUring.IsInvariant fun s => Tidy s.1 ∧ Backlog s.1 s.2 :=
  (tidy_isInvariant.recording ringEventOf).of_relative
    ⟨rfl, iff_of_false Bool.false_ne_true (Nat.lt_irrefl 0)⟩ fun ht hs h => by
      obtain ⟨hstep, hlog⟩ := (TransitionSystem.recording_step_iff ringEventOf).mp h
      rw [hlog]
      exact hs.step ht hstep

/-- **The backlog never drains.** In every run, the operations and completions in the ring, besides
that of the call under way, are as many as the submits and waits that have failed since the ring was
exited last, however many calls have succeeded since. -/
theorem backlog_eq {log : List RingEvent} (hs : recordedUring.Reachable (s, log)) :
    s.ring.numbers.length = backlog log + s.pc.entry?.toList.length ∧
      (s.failed = true ↔ 0 < backlog log) := by
  have hbacklog := (backlog_isInvariant.of_reachable hs).2
  exact ⟨hbacklog.length, hbacklog.failed⟩

/-- After an interrupted wait, a call that succeeds leaves as much behind as it has found. -/
theorem backlog_eq_interrupted : ∃ s : State,
    s.pc = .idle ∧ s.answers.getLast? = some ⟨1, .readFile 0, some 0⟩ ∧
      s.ring.numbers.length = 1 := by
  obtain ⟨⟨s, log⟩, hs, hidle, hlast, hlog⟩ := TransitionSystem.exists_reachable
    (M := recordedUring) (p := fun s => s.1.pc = .idle ∧
      s.1.answers.getLast? = some ⟨1, .readFile 0, some 0⟩ ∧ backlog s.2 = 1)
    readAfterInterruptedNop (by decide)
  have hlength := (backlog_eq hs).1
  rw [hlog, hidle] at hlength
  exact ⟨s, hidle, hlast, hlength⟩

end SystemsStack.Uring
