import SystemsStack.Uring.Watch

/-!
# The result of a read

The numbers of the calls tell the operations in the ring apart: every call has one at most, so that
its read is completed once (`SystemsStack.Uring.Numbered`). While a call of `read_file` is under
way, its read is to be prepared, is awaited, or has been posted; the buffer is as it was until the
kernel completes the read, and holds what it has stored from then on
(`SystemsStack.Uring.Underway`).

Under the assumptions on the kernel, the call keeps its contract unless the completion carries an
error other than `-1`, or the length of the buffer is narrowed to zero and the file is not empty
(`SystemsStack.Uring.readFile_contract_iff`).

## Main definitions

* `SystemsStack.Uring.Numbered`: the invariant of the numbers.
* `SystemsStack.Uring.Stage`, `SystemsStack.Uring.Underway`: the invariant of a call under way.

## Main results

* `SystemsStack.Uring.numbered_isInvariant`, `SystemsStack.Uring.watched_isInvariant`.
* `SystemsStack.Uring.readFile_contract_iff`, `SystemsStack.Uring.not_readFile_contract_directory`.

## References

* `include/ll/linux_uring.hpp`, lines 98–133.
-/

namespace SystemsStack.Uring

open Core

/-! ### The numbers of calls in the ring -/

variable {s s' : State} {c : ℕ} {call : Call}

/-- Every call has one operation at most in the ring, and calls to come have none. -/
structure Numbered (s : State) : Prop where
  nodup : s.ring.numbers.Nodup
  lt : ∀ c ∈ s.ring.numbers, c < s.calls
  call_lt : ∀ c call, s.pc.call? = some (c, call) → c < s.calls
  fresh : ∀ c call, s.pc = .getSqe c call → c ∉ s.ring.numbers

namespace Numbered

theorem of_empty (hring : s'.ring = {}) (pc : s'.pc = .idle) : Numbered s' where
  nodup := hring ▸ List.nodup_nil
  lt _ hc := absurd hc (hring ▸ List.not_mem_nil)
  call_lt _ _ h := absurd h (pc ▸ nofun)
  fresh _ _ h := absurd h (pc ▸ nofun)

/-- The call under way returns, or takes a step that adds nothing to the ring. -/
theorem of_perm (hs : Numbered s) (hnodup : s'.ring.numbers.Nodup)
    (hsubset : s'.ring.numbers ⊆ s.ring.numbers) (hcalls : s'.calls = s.calls)
    (hcall : ∀ c call, s'.pc.call? = some (c, call) → s.pc.call? = some (c, call))
    (hfresh : ∀ c call, s'.pc = .getSqe c call → s.pc = .getSqe c call) : Numbered s' where
  nodup := hnodup
  lt c hc := hcalls ▸ hs.lt c (hsubset hc)
  call_lt c call h := hcalls ▸ hs.call_lt c call (hcall c call h)
  fresh c call h hc := hs.fresh c call (hfresh c call h) (hsubset hc)

theorem close (hs : Numbered s) (pc : s.pc = .idle) : Numbered s.close := by
  rw [State.close]
  split_ifs with hopen
  · exact .of_empty rfl pc
  · exact hs

/-- A new call. -/
theorem newCall (hs : Numbered s) (hring : s'.ring = s.ring) (hcalls : s'.calls = s.calls + 1)
    (pc : s'.pc = .getSqe s.calls call) : Numbered s' where
  nodup := hring ▸ hs.nodup
  lt c hc := hcalls ▸ Nat.lt_succ_of_lt (hs.lt c (hring ▸ hc))
  call_lt c call h := by
    rw [pc] at h
    obtain ⟨rfl, -⟩ := Prod.mk.inj (Option.some.inj h)
    exact hcalls ▸ Nat.lt_succ_self _
  fresh c call h hc := by
    rw [pc] at h
    obtain ⟨rfl, -⟩ := Pc.getSqe.inj h
    exact Nat.lt_irrefl _ (hs.lt _ (hring ▸ hc))

theorem step (hs : Numbered s) {a : Action} (h : Step s a s') : Numbered s' := by
  cases h with
  | openFails pc | closes pc => exact hs.close pc
  | opens pc => exact .of_empty rfl (s.close_pc.trans pc)
  | refuses pc fails =>
    exact {
      nodup := hs.nodup
      lt := fun c hc => Nat.lt_succ_of_lt (hs.lt c hc)
      call_lt := fun c call h => absurd h (pc ▸ nofun)
      fresh := fun c call h => absurd h (pc ▸ nofun) }
  | callNop pc => exact hs.newCall rfl rfl rfl
  | callReadFile pc => exact hs.newCall rfl rfl rfl
  | noSqe pc | submitFails pc | waitFails pc =>
    exact hs.of_perm hs.nodup (List.Subset.refl _) rfl (fun _ _ h => absurd h nofun)
      (fun _ _ h => absurd h nofun)
  | @prepares c call pc =>
    have hperm := SubmissionRing.numbers_prepare (r := s.ring) c call.op
    have hlt : c < s.calls := hs.call_lt c call (pc ▸ rfl)
    exact {
      nodup := hperm.nodup_iff.mpr (List.nodup_cons.mpr ⟨hs.fresh c call pc, hs.nodup⟩)
      lt := fun d hd => by
        rcases List.mem_cons.mp (hperm.subset hd) with rfl | hd
        · exact hlt
        · exact hs.lt d hd
      call_lt := fun d call' h => by
        obtain ⟨rfl, -⟩ := Prod.mk.inj (Option.some.inj h)
        exact hlt
      fresh := fun _ _ h => absurd h nofun }
  | submits pc =>
    have hperm := SubmissionRing.numbers_submit (r := s.ring)
    exact hs.of_perm (hperm.nodup_iff.mpr hs.nodup) hperm.subset rfl
      (fun _ _ h => by rw [pc]; exact h) (fun _ _ h => absurd h nofun)
  | harvests pc ok harvest =>
    have hperm := SubmissionRing.numbers_harvest harvest
    exact hs.of_perm (List.nodup_cons.mp (hperm.nodup_iff.mp hs.nodup)).2
      (fun _ hd => hperm.symm.subset (List.mem_cons_of_mem _ hd)) rfl
      (fun _ _ h => absurd h nofun) (fun _ _ h => absurd h nofun)
  | completes complete execute =>
    have hperm := SubmissionRing.numbers_complete complete
    exact hs.of_perm (hperm.nodup_iff.mpr hs.nodup) hperm.subset rfl (fun _ _ h => h)
      (fun _ _ h => h)

end Numbered

theorem numbered_isInvariant : uring.IsInvariant Numbered where
  init := .of_empty rfl rfl
  step hs h := hs.step (.of_step h)

/-! ### A call under way -/

/-- How far the read of the call `c` has come: it is to be prepared; it is awaited, and the buffer
is as it was; or its completion is posted, and the buffer begins with what has been read. -/
inductive Stage (s : State) (t : Attempt) (c fd : ℕ) (contents : List UInt8) : Prop
  | unprepared (pc : s.pc = .getSqe c (.readFile fd t.dst)) (read : t.read = none)
      (memory : ∀ j < t.dst.size.toNat, s.memory (t.dst.data + j) = t.before (t.dst.data + j))
  | awaited (pc : s.pc.entry? = some (c, (Call.readFile fd t.dst).op))
      (ring : s.ring.Awaits c (Call.readFile fd t.dst).op) (read : t.read = none)
      (memory : ∀ j < t.dst.size.toNat, s.memory (t.dst.data + j) = t.before (t.dst.data + j))
  | posted {res bytes} (pc : s.pc.entry? = some (c, (Call.readFile fd t.dst).op))
      (ring : s.ring.Posted c res) (read : t.read = some res)
      (documented : Documented t.dst.size.toUInt32 contents res bytes)
      (memory : ∀ j < t.dst.size.toNat, s.memory (t.dst.data + j) =
        storeBytes t.before t.dst.data bytes (t.dst.data + j))

/-- A call of `read_file` under way, with its number, its descriptor and the contents of its file.
As long as it is served, its read is at one of the stages. -/
def Underway (s : State) (t : Attempt) : Prop :=
  ∃ c fd contents, s.pc.call? = some (c, .readFile fd t.dst) ∧ t.contents = some contents ∧
    (t.served = true → Stage s t c fd contents)

namespace Underway

variable {t : Attempt}

theorem call?_ne_none (hu : Underway s t) : s.pc.call? ≠ none := by
  obtain ⟨c, fd, contents, hcall, -⟩ := hu
  rw [hcall]
  exact Option.some_ne_none _

/-- The call under way is the one that the machine is at. -/
theorem exists_stage (hu : Underway s t) {c : ℕ} {call : Call}
    (hcall : s.pc.call? = some (c, call)) :
    ∃ fd contents, call = .readFile fd t.dst ∧ t.contents = some contents ∧
      (t.served = true → Stage s t c fd contents) := by
  obtain ⟨c', fd, contents, hcall', hcontents, hstage⟩ := hu
  obtain ⟨rfl, rfl⟩ := Prod.mk.inj (Option.some.inj (hcall.symm.trans hcall'))
  exact ⟨fd, contents, rfl, hcontents, hstage⟩

theorem reads (hu : Underway s t) {c : ℕ} {call : Call} (hcall : s.pc.call? = some (c, call)) :
    ∃ fd, call = .readFile fd t.dst := by
  obtain ⟨fd, contents, hreads, -⟩ := hu.exists_stage hcall
  exact ⟨fd, hreads⟩

/-- The kernel completes an operation: that of the call, or another one. -/
theorem complete (hn : Numbered s) (hu : Underway s t) {i : ℕ} {res : Int32} {bytes : List UInt8}
    {e : ℕ × Op} {ring : SubmissionRing Op Int32} {memory : ℕ → UInt8}
    (hcomplete : s.ring.complete i res = some (e, ring))
    (hexecute : execute s.memory e.2 bytes = some memory) {served : Bool}
    (hserved : served = true →
      (s.Own i → ∀ contents ∈ t.contents, Documented t.dst.size.toUInt32 contents res bytes) ∧
      (¬s.Own i → e.2.Apart bytes t.dst)) :
    Underway { s with ring := ring, memory := memory }
      { t with read := if s.Own i then some res else t.read, served := t.served && served } := by
  obtain ⟨c, fd, contents, hcall, hcontents, hstage⟩ := hu
  refine ⟨c, fd, contents, hcall, hcontents, fun hboth => ?_⟩
  obtain ⟨hbefore, hnow⟩ := Bool.and_eq_true_iff.mp hboth
  obtain ⟨hown, hother⟩ := hserved hnow
  replace hstage := hstage hbefore
  obtain ⟨hflight, -⟩ := SubmissionRing.complete_eq_some_iff.mp hcomplete
  have hmem := (SubmissionRing.mem_outstanding_of_complete hcomplete).1
  have hiff : s.Own i ↔ e.1 = c := by
    rw [State.Own, hcall, hflight, Option.map_some, Option.map_some, Option.some.injEq, eq_comm]
  by_cases heq : e.1 = c
  · have hread : (if s.Own i then some res else t.read) = some res := if_pos (hiff.mpr heq)
    cases hstage with
    | unprepared pc read hmemory =>
      exact absurd (List.mem_append_left _ (List.mem_map_of_mem hmem)) (heq ▸ hn.fresh c _ pc)
    | awaited pc hring read hmemory =>
      obtain ⟨hop, hposted⟩ := hring.complete_self hn.nodup hcomplete heq
      refine .posted pc hposted hread (hown (hiff.mpr heq) contents hcontents)
        fun j hj => ?_
      rw [hop] at hexecute
      simp only [Call.op, execute, Option.ite_none_right_eq_some, Option.some.injEq] at hexecute
      rw [← hexecute.2]
      change storeBytes s.memory t.dst.data bytes (t.dst.data + j) =
        storeBytes t.before t.dst.data bytes (t.dst.data + j)
      rw [storeBytes_add, storeBytes_add, hmemory j hj]
    | posted pc hring read documented hmemory =>
      exact absurd heq (hring.complete hcomplete).1
  · have hread : (if s.Own i then some res else t.read) = t.read := if_neg (mt hiff.mp heq)
    have hapart := hother (mt hiff.mp heq)
    cases hstage with
    | unprepared pc read hmemory =>
      exact .unprepared pc (hread.trans read) fun j hj =>
        (execute_apart hexecute hapart hj).trans (hmemory j hj)
    | awaited pc hring read hmemory =>
      exact .awaited pc (hring.complete_ne hcomplete heq) (hread.trans read) fun j hj =>
        (execute_apart hexecute hapart hj).trans (hmemory j hj)
    | posted pc hring read documented hmemory =>
      exact .posted pc (hring.complete hcomplete).2 (hread.trans read) documented fun j hj =>
        (execute_apart hexecute hapart hj).trans (hmemory j hj)

/-- The entry is prepared. -/
theorem prepare (hn : Numbered s) (hu : Underway s t) {c : ℕ} {call : Call}
    (pc : s.pc = .getSqe c call) :
    Underway { s with ring := s.ring.prepare c call.op, pc := .submit c call } t := by
  obtain ⟨fd, contents, rfl, hcontents, hstage⟩ := hu.exists_stage (congrArg Pc.call? pc)
  refine ⟨c, fd, contents, rfl, hcontents, fun hserved => ?_⟩
  cases hstage hserved with
  | unprepared _ read hmemory => exact .awaited rfl (.of_prepare (hn.fresh c _ pc)) read hmemory
  | awaited pc' | posted pc' => exact absurd (pc ▸ pc') nofun

/-- The entry is submitted. -/
theorem submit (hu : Underway s t) {c : ℕ} {call : Call} (pc : s.pc = .submit c call) :
    Underway { s with ring := s.ring.submit, pc := .wait c call } t := by
  obtain ⟨fd, contents, rfl, hcontents, hstage⟩ := hu.exists_stage (congrArg Pc.call? pc)
  refine ⟨c, fd, contents, rfl, hcontents, fun hserved => ?_⟩
  cases hstage hserved with
  | unprepared pc' => exact absurd (pc.symm.trans pc') nofun
  | awaited pc' hring read hmemory => exact .awaited rfl hring.submit read hmemory
  | posted pc' hring read documented hmemory =>
    exact .posted rfl hring.submit read documented hmemory

/-- The call takes its own completion. -/
theorem harvest (hu : Underway s t) (hserved : t.served = true) {c : ℕ} {call : Call}
    (pc : s.pc = .wait c call)
    {cqe : ℕ × Int32} {ring : SubmissionRing Op Int32}
    (hharvest : s.ring.harvest = some (cqe, ring)) (hown : cqe.1 = c) :
    ∃ contents bytes, t.contents = some contents ∧ t.read = some cqe.2 ∧
      Documented t.dst.size.toUInt32 contents cqe.2 bytes ∧
      ∀ j < t.dst.size.toNat, s.memory (t.dst.data + j) =
        storeBytes t.before t.dst.data bytes (t.dst.data + j) := by
  obtain ⟨fd, contents, rfl, hcontents, hstage⟩ := hu.exists_stage (congrArg Pc.call? pc)
  have hmem := SubmissionRing.mem_completed_of_harvest hharvest
  cases hstage hserved with
  | unprepared pc' => exact absurd (pc.symm.trans pc') nofun
  | awaited pc' hring read hmemory => exact absurd hown (hring.completed cqe hmem)
  | @posted res bytes pc' hring read documented hmemory =>
    obtain rfl := hring.completed cqe hmem hown
    exact ⟨contents, bytes, hcontents, read, documented, hmemory⟩

end Underway

/-! ### The invariant -/

/-- The numbers in the ring; the call of `read_file` under way, if there is one; and the contract of
those that have been served and have returned. -/
structure Watched.Inv (s : Watched) : Prop where
  numbered : Numbered s.state
  underway : ∀ t, s.attempt = some t → Underway s.state t
  reads : s.attempt = none → s.state.pc.reads = false
  outcomes : ∀ o ∈ s.outcomes, o.served = true → (o.Contract ↔ o.KeepsContract)

section Observe

variable {w : Watched} {a : Action} {t : Attempt}

theorem observe_of_none (h : w.attemptAfter a = none) :
    w.observe a s = { w with state := s, attempt := none } := by
  rw [Watched.observe, h]

theorem observe_of_busy (h : w.attemptAfter a = some t) (pc : s.pc ≠ .idle) :
    w.observe a s = { w with state := s, attempt := some t } := by
  rw [Watched.observe, h]
  exact if_neg pc

theorem observe_of_idle (h : w.attemptAfter a = some t) (pc : s.pc = .idle) :
    w.observe a s =
      { state := s, attempt := none, outcomes := w.outcomes ++ [t.outcome a s] } := by
  rw [Watched.observe, h]
  exact if_pos pc

end Observe

namespace Watched.Inv

variable {w : Watched} {a : Action} {t : Attempt}

/-- The call returns. -/
theorem returns (hw : w.Inv) (hs : Numbered s) (ht : w.attemptAfter a = some t)
    (pc : s.pc = .idle)
    (ho : t.served = true → ((t.outcome a s).Contract ↔ (t.outcome a s).KeepsContract)) :
    (w.observe a s).Inv := by
  rw [observe_of_idle ht pc]
  refine ⟨hs, nofun, fun _ => by rw [pc]; rfl, fun o ho' => ?_⟩
  rcases List.mem_append.mp ho' with ho' | ho'
  · exact hw.outcomes o ho'
  · obtain rfl := List.mem_singleton.mp ho'
    exact ho

/-- The call goes on. -/
theorem goesOn (hw : w.Inv) (hs : Numbered s) (ht : w.attemptAfter a = some t)
    (hu : Underway s t) : (w.observe a s).Inv := by
  have pc : s.pc ≠ .idle := fun h => hu.call?_ne_none (by rw [h]; rfl)
  rw [observe_of_busy ht pc]
  exact ⟨hs, fun t' ht' => Option.some.inj ht' ▸ hu, nofun, hw.outcomes⟩

/-- A new call of `read_file` is refused, or opens its file. -/
theorem callReadFile (hw : w.Inv) {path : Option String} {dst : Span}
    {opened : Option (ℕ × List UInt8)}
    (h : uring.step w.state (.readFile path dst opened) = some s) :
    (w.observe (.readFile path dst opened) s).Inv := by
  have hs := hw.numbered.step (.of_step h)
  cases pc : w.state.pc <;> simp only [uring, step, pc, reduceCtorEq] at h
  have hrefused {s : State} (hs : Numbered s) (heq : w.state.refuse (.readFile (-1)) = s) :
      (w.observe (.readFile path dst opened) s).Inv := by
    subst heq
    refine hw.returns hs rfl pc fun _ => contract_iff_of_early rfl ?_
    simp [Attempt.outcome, State.refuse]
  split_ifs at h with hrefuse
  · exact hrefused hs (Option.some.inj h)
  · rcases opened with _ | ⟨fd, contents⟩
    · exact hrefused hs (Option.some.inj h)
    · simp only [Option.ite_none_right_eq_some, Option.some.injEq] at h
      obtain ⟨-, rfl⟩ := h
      exact hw.goesOn hs rfl
        ⟨w.state.calls, fd, contents, rfl, rfl, fun _ => .unprepared rfl rfl fun _ _ => rfl⟩

/-- A step outside any call of `read_file`. -/
theorem step_of_none (hw : w.Inv) (hattempt : w.attempt = none) (h : Step w.state a s)
    (hs : Numbered s) (ha : w.attemptAfter a = none) : (w.observe a s).Inv := by
  rw [observe_of_none ha]
  refine ⟨hs, nofun, fun _ => ?_, hw.outcomes⟩
  have hreads := hw.reads hattempt
  cases h with
  | openFails pc | closes pc | opens pc =>
    simp only [State.close_pc, pc]
    rfl
  | callReadFile pc => exact absurd ha nofun
  | prepares pc | submits pc =>
    rw [pc] at hreads
    exact hreads
  | refuses | completes => exact hreads
  | callNop | noSqe | submitFails | waitFails | harvests => rfl

/-- The call returns before a completion is taken. -/
theorem endsEarly (hw : w.Inv) (hs : Numbered s) (hattempt : w.attempt = some t) {t' : Attempt}
    (ht : w.attemptAfter a = some t') (hcall : w.state.pc.call? = some (c, call))
    (hwaited : a.waited = false) (pc : s.pc = .idle)
    (hanswers : s.answers = (w.state.finish c call none).answers) : (w.observe a s).Inv := by
  obtain ⟨fd, rfl⟩ := (hw.underway t hattempt).reads hcall
  refine hw.returns hs ht pc fun _ => contract_iff_of_early hwaited ?_
  simp [Attempt.outcome, hanswers, State.finish, Call.returned]

/-- A step while a call of `read_file` is under way. -/
theorem step_of_some (hw : w.Inv) (hattempt : w.attempt = some t)
    (h : Step w.state a s) (hs : Numbered s) : (w.observe a s).Inv := by
  have hu := hw.underway t hattempt
  have hbusy (pc : w.state.pc = .idle) : False := hu.call?_ne_none (by rw [pc]; rfl)
  have hafter : w.attempt.map (w.attend a) = some (w.attend a t) :=
    congrArg (Option.map (w.attend a)) hattempt
  cases h with
  | openFails pc | closes pc | opens pc | refuses pc | callNop pc | callReadFile pc =>
    exact (hbusy pc).elim
  | noSqe pc => exact hw.endsEarly hs hattempt hafter (pc ▸ rfl) rfl rfl rfl
  | prepares pc =>
    have hsame : w.attend (.getSqe false) t = t := Watched.attend_eq rfl trivial
    exact hw.goesOn hs (hafter.trans (congrArg some hsame)) (hu.prepare hw.numbered pc)
  | submitFails pc fails => exact hw.endsEarly hs hattempt hafter (pc ▸ rfl) rfl rfl rfl
  | @submits rc c call pc ok =>
    have hsame : w.attend (.submit rc) t = t := Watched.attend_eq rfl trivial
    exact hw.goesOn hs (hafter.trans (congrArg some hsame)) (hu.submit pc)
  | waitFails pc fails =>
    exact hw.endsEarly hs hattempt hafter (pc ▸ rfl) (by simp [Action.waited, fails]) rfl rfl
  | @harvests rc c call cqe ring pc ok harvest =>
    obtain ⟨fd, rfl⟩ := hu.reads (pc ▸ rfl : w.state.pc.call? = some (c, call))
    refine hw.returns hs hafter rfl fun hboth => ?_
    obtain ⟨hbefore, hserved⟩ := Bool.and_eq_true_iff.mp hboth
    have hown : cqe.1 = c := by
      have hnumber := of_decide_eq_true hserved ok t hattempt cqe (by rw [harvest]; rfl)
      rw [pc] at hnumber
      exact (Option.some.inj hnumber).symm
    obtain ⟨contents, bytes, hcontents, hread, hdocumented, hmemory⟩ :=
      hu.harvest hbefore pc harvest hown
    refine contract_iff_of_waited ?_ hread ?_ hcontents hdocumented fun _ => hmemory
    · simp [Attempt.outcome, Action.waited, ok]
    · simp [Attempt.outcome, State.finish, Call.returned]
  | @completes i res bytes e ring memory hcomplete hexecute =>
    obtain ⟨hflight, -⟩ := SubmissionRing.complete_eq_some_iff.mp hcomplete
    exact hw.goesOn hs hafter (hu.complete hw.numbered hcomplete hexecute
      fun hserved => of_decide_eq_true hserved t hattempt e hflight)

theorem step (hw : w.Inv) {w' : Watched} (h : watchedUring.step w a = some w') : w'.Inv := by
  obtain ⟨s, hstep, rfl⟩ := Option.map_eq_some_iff.mp h
  have hs := hw.numbered.step (.of_step hstep)
  cases hattempt : w.attempt with
  | some t =>
    cases a with
    | readFile path dst opened => exact hw.callReadFile hstep
    | complete | openRing | closeRing | submitNopAndWait | getSqe | submit | wait =>
      exact hw.step_of_some hattempt (.of_step hstep) hs
  | none =>
    cases a with
    | readFile path dst opened => exact hw.callReadFile hstep
    | complete | openRing | closeRing | submitNopAndWait | getSqe | submit | wait =>
      exact hw.step_of_none hattempt (.of_step hstep) hs (congrArg (Option.map _) hattempt)

end Watched.Inv

theorem watched_isInvariant : watchedUring.IsInvariant Watched.Inv where
  init := ⟨.of_empty rfl rfl, nofun, fun _ => rfl, fun _ h => absurd h List.not_mem_nil⟩
  step hw h := hw.step h

/-- **When `read_file` keeps its contract.** In every run, each call of `read_file` that has
returned, and that was served in each of its steps, keeps its contract if and only if it has ended
early, or its read has failed with `-1`, or its read has succeeded and the length of the buffer is
not a multiple of `2 ^ 32`, unless the file is empty. -/
theorem readFile_contract_iff {w : Watched} (hw : watchedUring.Reachable w) :
    ∀ o ∈ w.outcomes, o.served = true → (o.Contract ↔
      o.waited = false ∨ ∃ res, o.read = some res ∧
        (res = -1 ∨ 0 ≤ res.toInt ∧ (o.dst.size.toNat % 2 ^ 32 ≠ 0 ∨ o.contents = some []))) :=
  (watched_isInvariant.of_reachable hw).outcomes

/-- A file of four bytes is read into a buffer; the kernel completes the read with `res`. -/
def readHosts (size : UInt64) (res : Int32) (bytes : List UInt8) : List Action :=
  [.openRing 0, .readFile (some "hosts") ⟨64, size⟩ (some (3, [1, 2, 3, 4])), .getSqe false,
    .submit 1, .complete 0 res bytes, .wait 0]

/-- The error of a read of a directory is returned as it is. -/
theorem not_readFile_contract_directory : ¬ ∀ w, watchedUring.Reachable w →
    ∀ o ∈ w.outcomes, o.served = true → o.Contract := by
  intro h
  obtain ⟨w, hw, o, ho, hserved, hreturned⟩ := TransitionSystem.exists_reachable
    (M := watchedUring)
    (p := fun w => ∃ o ∈ w.outcomes, o.served = true ∧ o.returned = some (.readFile (-21)))
    (readHosts 8 (-21) []) (by decide)
  rcases h w hw o ho hserved with hfail | ⟨n, contents, hn, -, hpos, -⟩
  · rw [hreturned] at hfail
    exact absurd hfail (by decide)
  · obtain rfl := Returned.readFile.inj (Option.some.inj (hreturned.symm.trans hn))
    exact absurd hpos (by decide)

/-- A read of four bytes into a buffer of eight. -/
theorem readFile_contract_hosts : ∃ w : Watched, ∃ o ∈ w.outcomes,
    o.returned = some (.readFile 4) ∧ o.Contract := by
  obtain ⟨w, hw, o, ho, hserved, hreturned, hread, hsize⟩ := TransitionSystem.exists_reachable
    (M := watchedUring)
    (p := fun w => ∃ o ∈ w.outcomes, o.served = true ∧
      o.returned = some (.readFile 4) ∧ o.read = some 4 ∧ o.dst.size = 8)
    (readHosts 8 4 [1, 2, 3, 4]) (by decide)
  have hsize : o.dst.size.toNat % 2 ^ 32 ≠ 0 := by
    rw [hsize]
    decide
  exact ⟨w, o, ho, hreturned,
    (readFile_contract_iff hw o ho hserved).mpr (.inr ⟨4, hread, .inr ⟨by decide, .inl hsize⟩⟩)⟩

end SystemsStack.Uring
