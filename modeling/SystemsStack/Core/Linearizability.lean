import Mathlib.Data.List.Basic
import Mathlib.Data.List.Nodup
import Mathlib.Tactic.Common

/-!
# Linearizability of concurrent histories

A *history* lists the invocations and the responses of the calls made to a shared object, in the
order in which they happened. It is *linearizable* with respect to a sequential specification
when the calls that have responded, and possibly some of those that have not, can be put in one
order that the specification allows, in which every call has the response it has in the history,
and in which a call that responded before another was invoked comes first.

An implementation is shown linearizable by naming, for each call, the step at which it takes
effect. The rules below follow a run: an invocation changes nothing
(`Core.IsLinearization.invoke`), the effect of a call that has been invoked appends the call to
the order (`Core.IsLinearization.point`), and a call that has taken effect may respond
(`Core.IsLinearization.respond`). When every call takes effect in the step in which it responds,
the order of the responses is the linearization, and `Core.ResponseOrder` keeps the books.

The bounded first-in first-out queue is given as a sequential specification with two parameters:
when a push may be refused, and when a pop may find nothing. The strict queue refuses a push only
when it is full and finds nothing only when it is empty.

## Main definitions

* `Core.Event`, `Core.Completed`, `Core.SequentialSpec`, `Core.SequentialSpec.Runs`.
* `Core.Precedes`, `Core.IsLinearization`, `Core.Linearizable`.
* `Core.completedCalls`, `Core.ResponseOrder`.
* `Core.FifoOp`, `Core.FifoAnswer`, `Core.fifo`, `Core.boundedFifo`.

## Main results

* `Core.IsLinearization.nil`, `Core.IsLinearization.invoke`, `Core.IsLinearization.point`,
  `Core.IsLinearization.respond`.
* `Core.ResponseOrder.nil`, `Core.ResponseOrder.invoke`, `Core.ResponseOrder.respond`.
-/

namespace Core

variable {ι Op Res Q : Type*}

/-! ### Histories and sequential specifications -/

/-- An event of a concurrent history. -/
inductive Event (ι Op Res : Type*) where
  /-- The call `i` of the operation `op` is made. -/
  | invoke (i : ι) (op : Op)
  /-- The call `i` of the operation `op` returns `res`. -/
  | respond (i : ι) (op : Op) (res : Res)
  deriving DecidableEq, Repr

/-- A call together with its response. -/
structure Completed (ι Op Res : Type*) where
  call : ι
  op : Op
  res : Res
  deriving DecidableEq, Repr

/-- What a sequential object may answer, and the state it is then in. -/
structure SequentialSpec (Q Op Res : Type*) where
  /-- The state before the first operation. -/
  init : Q
  /-- `Step q op res q'`: in the state `q`, the operation may return `res` and lead to `q'`. -/
  Step : Q → Op → Res → Q → Prop

namespace SequentialSpec

variable (O : SequentialSpec Q Op Res)

/-- The specification allows the calls of the list, one after the other. -/
def Runs : Q → List (Completed ι Op Res) → Q → Prop
  | q, [], q' => q = q'
  | q, c :: S, q' => ∃ q₁, O.Step q c.op c.res q₁ ∧ Runs q₁ S q'

variable {O}

theorem runs_append_singleton {q q' : Q} {S : List (Completed ι Op Res)}
    {c : Completed ι Op Res} :
    O.Runs q (S ++ [c]) q' ↔ ∃ q₁, O.Runs q S q₁ ∧ O.Step q₁ c.op c.res q' := by
  induction S generalizing q with
  | nil =>
    constructor
    · rintro ⟨q₁, hstep, rfl⟩
      exact ⟨q, rfl, hstep⟩
    · rintro ⟨_, rfl, hstep⟩
      exact ⟨q', hstep, rfl⟩
  | cons d S ih =>
    constructor
    · rintro ⟨q₁, hstep, hrun⟩
      obtain ⟨q₂, hrun', hlast⟩ := ih.mp hrun
      exact ⟨q₂, ⟨q₁, hstep, hrun'⟩, hlast⟩
    · rintro ⟨q₂, ⟨q₁, hstep, hrun'⟩, hlast⟩
      exact ⟨q₁, hstep, ih.mpr ⟨q₂, hrun', hlast⟩⟩

end SequentialSpec

/-! ### Linearizations -/

/-- In the history `H`, the call `i` has responded before the call `j` is invoked. -/
def Precedes (H : List (Event ι Op Res)) (i j : ι) : Prop :=
  ∃ opi r opj, [Event.respond i opi r, Event.invoke j opj].Sublist H

/-- The calls `S`, in this order, explain the history `H` and leave the specified object in the
state `q`. -/
structure IsLinearization (O : SequentialSpec Q Op Res) (H : List (Event ι Op Res))
    (S : List (Completed ι Op Res)) (q : Q) : Prop where
  /-- The specification allows the calls in this order. -/
  runs : O.Runs O.init S q
  /-- No call occurs twice. -/
  nodup : (S.map Completed.call).Nodup
  /-- Every call of the order has been invoked in the history. -/
  invoked : ∀ c ∈ S, Event.invoke c.call c.op ∈ H
  /-- Every call that has responded in the history is in the order, with the same response. -/
  responded : ∀ i op r, Event.respond i op r ∈ H → ⟨i, op, r⟩ ∈ S
  /-- A call that responded before another was invoked comes first. -/
  realTime : ∀ c ∈ S, ∀ d ∈ S, Precedes H c.call d.call → [c, d].Sublist S

/-- Some order of the calls explains the history. -/
def Linearizable (O : SequentialSpec Q Op Res) (H : List (Event ι Op Res)) : Prop :=
  ∃ S q, IsLinearization O H S q

/-- An event appended to a history puts no call before another, unless it is the invocation of
the later one. -/
theorem Precedes.of_append_singleton {H : List (Event ι Op Res)} {e : Event ι Op Res} {i j : ι}
    (h : Precedes (H ++ [e]) i j) (he : ∀ op, e ≠ .invoke j op) : Precedes H i j := by
  obtain ⟨opi, r, opj, hsub⟩ := h
  refine ⟨opi, r, opj, ?_⟩
  obtain ⟨l₁, l₂, heq, h₁, h₂⟩ := List.sublist_append_iff.mp hsub
  rcases List.sublist_singleton.mp h₂ with rfl | rfl
  · rw [List.append_nil] at heq
    exact heq ▸ h₁
  · have hlast := congrArg List.getLast? heq
    simp only [List.getLast?_append, List.getLast?_singleton] at hlast
    exact absurd (Option.some.inj hlast).symm (he opj)

theorem Precedes.mem_respond {H : List (Event ι Op Res)} {i j : ι} (h : Precedes H i j) :
    ∃ op r, Event.respond i op r ∈ H := by
  obtain ⟨opi, r, opj, hsub⟩ := h
  exact ⟨opi, r, hsub.subset (by simp)⟩

namespace IsLinearization

variable {O : SequentialSpec Q Op Res} {H : List (Event ι Op Res)}
  {S : List (Completed ι Op Res)} {q q' : Q}

theorem nil (O : SequentialSpec Q Op Res) :
    IsLinearization O ([] : List (Event ι Op Res)) [] O.init where
  runs := rfl
  nodup := List.nodup_nil
  invoked := by simp
  responded := by simp
  realTime := by simp

/-- A call that the history has not seen may be invoked. -/
theorem invoke (h : IsLinearization O H S q) {i : ι} {op : Op}
    (hfresh : ∀ op', Event.invoke i op' ∉ H) :
    IsLinearization O (H ++ [.invoke i op]) S q where
  runs := h.runs
  nodup := h.nodup
  invoked c hc := List.mem_append_left _ (h.invoked c hc)
  responded j op' r hj := by
    rcases List.mem_append.mp hj with hj | hj
    · exact h.responded j op' r hj
    · exact absurd (List.mem_singleton.mp hj) nofun
  realTime c hc d hd hcd := by
    refine h.realTime c hc d hd (hcd.of_append_singleton fun op' heq => ?_)
    -- the new call is in no order of the old history
    injection heq with hi _
    exact hfresh d.op (hi ▸ h.invoked d hd)

/-- A call that has been invoked and is not in the order yet may take effect. -/
theorem point (h : IsLinearization O H S q) {i : ι} {op : Op} {r : Res}
    (hinv : Event.invoke i op ∈ H) (hnew : ∀ c ∈ S, c.call ≠ i) (hstep : O.Step q op r q') :
    IsLinearization O H (S ++ [⟨i, op, r⟩]) q' where
  runs := SequentialSpec.runs_append_singleton.mpr ⟨q, h.runs, hstep⟩
  nodup := by
    rw [List.map_append, List.map_singleton, List.nodup_append]
    refine ⟨h.nodup, List.nodup_singleton _, fun j hj k hk => ?_⟩
    obtain ⟨c, hc, rfl⟩ := List.mem_map.mp hj
    exact List.mem_singleton.mp hk ▸ hnew c hc
  invoked c hc := by
    rcases List.mem_append.mp hc with hc | hc
    · exact h.invoked c hc
    · rwa [List.mem_singleton.mp hc]
  responded j op' r' hj := List.mem_append_left _ (h.responded j op' r' hj)
  realTime c hc d hd hcd := by
    rcases List.mem_append.mp hc with hc | hc
    · rcases List.mem_append.mp hd with hd | hd
      · exact (h.realTime c hc d hd hcd).trans (List.sublist_append_left _ _)
      · rw [List.mem_singleton.mp hd]
        exact (List.singleton_sublist.mpr hc).append (List.Sublist.refl _)
    · -- the call that takes effect has not responded
      rw [List.mem_singleton.mp hc] at hcd
      obtain ⟨op', r', hr⟩ := hcd.mem_respond
      exact absurd rfl (hnew _ (h.responded i op' r' hr))

/-- A call that has taken effect may respond. -/
theorem respond (h : IsLinearization O H S q) {i : ι} {op : Op} {r : Res}
    (hmem : ⟨i, op, r⟩ ∈ S) : IsLinearization O (H ++ [.respond i op r]) S q where
  runs := h.runs
  nodup := h.nodup
  invoked c hc := List.mem_append_left _ (h.invoked c hc)
  responded j op' r' hj := by
    rcases List.mem_append.mp hj with hj | hj
    · exact h.responded j op' r' hj
    · injection List.mem_singleton.mp hj with hi hop hr
      rwa [hi, hop, hr]
  realTime c hc d hd hcd := h.realTime c hc d hd (hcd.of_append_singleton fun _ => nofun)

/-- A call that takes effect and responds in one step. -/
theorem point_respond (h : IsLinearization O H S q) {i : ι} {op : Op} {r : Res}
    (hinv : Event.invoke i op ∈ H) (hnew : ∀ c ∈ S, c.call ≠ i) (hstep : O.Step q op r q') :
    IsLinearization O (H ++ [.respond i op r]) (S ++ [⟨i, op, r⟩]) q' :=
  (h.point hinv hnew hstep).respond (by simp)

end IsLinearization

/-! ### Calls that take effect when they respond -/

/-- The call that the event completes. -/
def Event.completed? : Event ι Op Res → Option (Completed ι Op Res)
  | .invoke _ _ => none
  | .respond i op res => some ⟨i, op, res⟩

/-- The calls that have responded, in the order of their responses. -/
def completedCalls (H : List (Event ι Op Res)) : List (Completed ι Op Res) :=
  H.filterMap Event.completed?

theorem completedCalls_invoke (H : List (Event ι Op Res)) (i : ι) (op : Op) :
    completedCalls (H ++ [.invoke i op]) = completedCalls H := by
  simp [completedCalls, Event.completed?]

theorem completedCalls_respond (H : List (Event ι Op Res)) (i : ι) (op : Op) (r : Res) :
    completedCalls (H ++ [.respond i op r]) = completedCalls H ++ [⟨i, op, r⟩] := by
  simp [completedCalls, Event.completed?]

theorem mem_completedCalls {H : List (Event ι Op Res)} {c : Completed ι Op Res} :
    c ∈ completedCalls H ↔ Event.respond c.call c.op c.res ∈ H := by
  rw [completedCalls, List.mem_filterMap]
  constructor
  · rintro ⟨e, he, hc⟩
    cases e with
    | invoke i op => exact absurd hc nofun
    | respond i op r => exact Option.some.inj hc ▸ he
  · exact fun h => ⟨_, h, rfl⟩

/-- A history of numbered calls by threads, each with at most one call under way: the calls
numbered below `n` have been made, `pending` gives the call of each thread, and the order of the
responses is a linearization that leaves the object in the state `q`. -/
structure ResponseOrder {Thread : Type*} (O : SequentialSpec Q Op Res)
    (H : List (Event ℕ Op Res)) (n : ℕ) (pending : Thread → Option (ℕ × Op)) (q : Q) : Prop where
  linearization : IsLinearization O H (completedCalls H) q
  call_lt : ∀ {i op}, Event.invoke i op ∈ H → i < n
  op_unique : ∀ {i op op'}, Event.invoke i op ∈ H → Event.invoke i op' ∈ H → op = op'
  invoked : ∀ {t i op}, pending t = some (i, op) → Event.invoke i op ∈ H
  unanswered : ∀ {t i op}, pending t = some (i, op) → ∀ op' r, Event.respond i op' r ∉ H
  distinct : ∀ {t t' i op op'}, pending t = some (i, op) → pending t' = some (i, op') → t = t'

namespace ResponseOrder

variable {Thread : Type*} {O : SequentialSpec Q Op Res} {H : List (Event ℕ Op Res)} {n : ℕ}
  {pending : Thread → Option (ℕ × Op)} {q q' : Q}

theorem nil (O : SequentialSpec Q Op Res) :
    ResponseOrder O ([] : List (Event ℕ Op Res)) 0 (fun _ : Thread => none) O.init where
  linearization := .nil O
  call_lt := by simp
  op_unique := by simp
  invoked := nofun
  unanswered := nofun
  distinct := nofun

variable [DecidableEq Thread]

/-- An idle thread makes the next call. -/
theorem invoke (h : ResponseOrder O H n pending q) (t : Thread) (op : Op) :
    ResponseOrder O (H ++ [.invoke n op]) (n + 1) (Function.update pending t (some (n, op))) q := by
  have hfresh (op' : Op) : Event.invoke n op' ∉ H := fun hmem =>
    Nat.lt_irrefl n (h.call_lt hmem)
  have hcases {i : ℕ} {op' : Op} (hmem : Event.invoke i op' ∈ H ++ [.invoke n op]) :
      Event.invoke i op' ∈ H ∨ i = n ∧ op' = op := by
    simpa using hmem
  have hlt {u : Thread} {i : ℕ} {op' : Op} (hu : pending u = some (i, op')) : i ≠ n :=
    Nat.ne_of_lt (h.call_lt (h.invoked hu))
  refine
    { linearization := by rw [completedCalls_invoke]; exact h.linearization.invoke hfresh
      call_lt := fun hmem => ?_
      op_unique := fun hmem hmem' => ?_
      invoked := fun {u} _ _ hu => ?_
      unanswered := fun {u} i op' hu op'' r hr => ?_
      distinct := fun {u u'} _ _ _ hu hu' => ?_ }
  · rcases hcases hmem with hmem | ⟨rfl, -⟩
    · exact Nat.lt_succ_of_lt (h.call_lt hmem)
    · exact Nat.lt_succ_self _
  · rcases hcases hmem with hold | ⟨hi, hop⟩ <;> rcases hcases hmem' with hold' | ⟨hi', hop'⟩
    · exact h.op_unique hold hold'
    · exact absurd (hi' ▸ hold) (hfresh _)
    · exact absurd (hi ▸ hold') (hfresh _)
    · exact hop.trans hop'.symm
  · by_cases hut : u = t
    · subst hut
      rw [Function.update_self, Option.some.injEq, Prod.mk.injEq] at hu
      simp [hu]
    · rw [Function.update_of_ne hut] at hu
      exact List.mem_append_left _ (h.invoked hu)
  · have hr : Event.respond i op'' r ∈ H := by simpa using hr
    by_cases hut : u = t
    · subst hut
      rw [Function.update_self, Option.some.injEq, Prod.mk.injEq] at hu
      obtain ⟨rfl, rfl⟩ := hu
      have := h.linearization.invoked _ (h.linearization.responded _ _ _ hr)
      exact hfresh _ this
    · rw [Function.update_of_ne hut] at hu
      exact h.unanswered hu op'' r hr
  · by_cases hut : u = t <;> by_cases hut' : u' = t
    · exact hut.trans hut'.symm
    · subst hut
      rw [Function.update_self, Option.some.injEq, Prod.mk.injEq] at hu
      rw [Function.update_of_ne hut'] at hu'
      exact absurd hu.1.symm (hlt hu')
    · subst hut'
      rw [Function.update_self, Option.some.injEq, Prod.mk.injEq] at hu'
      rw [Function.update_of_ne hut] at hu
      exact absurd hu'.1.symm (hlt hu)
    · rw [Function.update_of_ne hut] at hu
      rw [Function.update_of_ne hut'] at hu'
      exact h.distinct hu hu'

/-- A thread's call takes effect and responds. -/
theorem respond (h : ResponseOrder O H n pending q) {t : Thread} {i : ℕ} {op : Op} {r : Res}
    (ht : pending t = some (i, op)) (hstep : O.Step q op r q') :
    ResponseOrder O (H ++ [.respond i op r]) n (Function.update pending t none) q' := by
  have hnew : ∀ c ∈ completedCalls H, c.call ≠ i := fun c hc hci =>
    h.unanswered ht c.op c.res (hci ▸ mem_completedCalls.mp hc)
  have hother {u : Thread} {j : ℕ} {op' : Op}
      (hu : Function.update pending t none u = some (j, op')) :
      u ≠ t ∧ pending u = some (j, op') := by
    by_cases hut : u = t
    · subst hut
      rw [Function.update_self] at hu
      exact absurd hu nofun
    · exact ⟨hut, by rwa [Function.update_of_ne hut] at hu⟩
  refine
    { linearization := by
        rw [completedCalls_respond]
        exact h.linearization.point_respond (h.invoked ht) hnew hstep
      call_lt := fun hmem => h.call_lt (by simpa using hmem)
      op_unique := fun hmem hmem' => h.op_unique (by simpa using hmem) (by simpa using hmem')
      invoked := fun hu => List.mem_append_left _ (h.invoked (hother hu).2)
      unanswered := fun hu op' r' hr => ?_
      distinct := fun hu hu' => h.distinct (hother hu).2 (hother hu').2 }
  obtain ⟨hut, hu⟩ := hother hu
  rcases List.mem_append.mp hr with hr | hr
  · exact h.unanswered hu op' r' hr
  · injection List.mem_singleton.mp hr with hi _ _
    exact hut (h.distinct (hi ▸ hu) ht)

end ResponseOrder

/-! ### The bounded first-in first-out queue -/

/-- The operations of a queue. -/
inductive FifoOp (T : Type*) where
  | push (v : T)
  | pop
  deriving DecidableEq, Repr

/-- The answers of a queue: whether the push was taken, and the popped value. -/
inductive FifoAnswer (T : Type*) where
  | pushed (ok : Bool)
  | popped (out : Option T)
  deriving DecidableEq, Repr

/-- One operation of a queue that holds at most `N` values. A push is refused only when
`Full q` holds, and a pop finds nothing only when `Empty q` holds. -/
inductive FifoStep {T : Type*} (N : ℕ) (Full Empty : List T → Prop) :
    List T → FifoOp T → FifoAnswer T → List T → Prop
  | accept {q v} (h : q.length < N) : FifoStep N Full Empty q (.push v) (.pushed true) (q ++ [v])
  | refuse {q v} (h : Full q) : FifoStep N Full Empty q (.push v) (.pushed false) q
  | take {q v} : FifoStep N Full Empty (v :: q) .pop (.popped (some v)) q
  | nothing {q} (h : Empty q) : FifoStep N Full Empty q .pop (.popped none) q

/-- The queue of at most `N` values with the given conditions for refusing and finding nothing. -/
def fifo (T : Type*) (N : ℕ) (Full Empty : List T → Prop) :
    SequentialSpec (List T) (FifoOp T) (FifoAnswer T) where
  init := []
  Step := FifoStep N Full Empty

/-- The queue that holds at most `N` values, refuses a push exactly when it holds `N` and answers
a pop with nothing exactly when it holds none. -/
def boundedFifo (T : Type*) (N : ℕ) : SequentialSpec (List T) (FifoOp T) (FifoAnswer T) :=
  fifo T N (fun q => q.length = N) (fun q => q = [])

end Core
