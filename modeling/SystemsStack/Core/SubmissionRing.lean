import Mathlib.Data.List.Perm.Basic
import Mathlib.Tactic.Common

/-!
# Submission rings

Operations handed to a device in three stages: an operation is *prepared* in the ring, a
submission moves all prepared operations *into flight*, and the device *completes* them in any
order. The completions are harvested in the order in which they have been posted. Every operation
carries the number of the call that has prepared it, and so does its completion.

An operation is *outstanding* until the device has completed it. When every call has prepared one
operation at most, an operation is completed once: the call *awaits* its completion until it is
*posted* (`Core.SubmissionRing.Awaits.complete_self`). When a ring that was empty is
given one operation, it holds nothing else until the completion of that operation has been
harvested (`Core.SubmissionRing.Holds`).

## Main definitions

* `Core.SubmissionRing`, with `prepare`, `submit`, `complete`, `harvest`.
* `Core.SubmissionRing.outstanding`, `Core.SubmissionRing.numbers`.
* `Core.SubmissionRing.Awaits`, `Core.SubmissionRing.Posted`, `Core.SubmissionRing.Holds`.

## Main results

* `Core.SubmissionRing.mem_outstanding_of_complete`, `Core.SubmissionRing.outstanding_of_harvest`.
* `Core.SubmissionRing.numbers_complete`, `Core.SubmissionRing.Awaits.complete_self`.
* `Core.SubmissionRing.Holds.complete`, `Core.SubmissionRing.Holds.harvest`.
-/

namespace Core

/-- A ring of operations, each with the number of its call. -/
structure SubmissionRing (Op Res : Type*) where
  prepared : List (ℕ × Op) := []
  inFlight : List (ℕ × Op) := []
  /-- The completions not harvested yet, the oldest first. -/
  completed : List (ℕ × Res) := []
  deriving DecidableEq, Repr

namespace SubmissionRing

variable {Op Res : Type*} (r : SubmissionRing Op Res)

/-- Prepare the operation of the call `c`. -/
def prepare (c : ℕ) (op : Op) : SubmissionRing Op Res :=
  { r with prepared := r.prepared ++ [(c, op)] }

/-- Move all prepared operations into flight. -/
def submit : SubmissionRing Op Res :=
  { r with prepared := [], inFlight := r.inFlight ++ r.prepared }

/-- The device completes the operation at place `i`, which is returned. -/
def complete (i : ℕ) (res : Res) : Option ((ℕ × Op) × SubmissionRing Op Res) :=
  r.inFlight[i]?.map fun e =>
    (e, { r with
      inFlight := r.inFlight.eraseIdx i
      completed := r.completed ++ [(e.1, res)] })

/-- Take the oldest completion. -/
def harvest : Option ((ℕ × Res) × SubmissionRing Op Res) :=
  match r.completed with
  | [] => none
  | e :: rest => some (e, { r with completed := rest })

/-- The operations that the device has not completed. -/
def outstanding : List (ℕ × Op) := r.prepared ++ r.inFlight

variable {r} {r' : SubmissionRing Op Res}

theorem mem_outstanding_prepare {c : ℕ} {op : Op} {e : ℕ × Op} :
    e ∈ (r.prepare c op).outstanding ↔ e ∈ r.outstanding ∨ e = (c, op) := by
  simp only [outstanding, prepare, List.mem_append, List.mem_singleton]
  tauto

theorem mem_outstanding_submit {e : ℕ × Op} : e ∈ r.submit.outstanding ↔ e ∈ r.outstanding := by
  simp only [outstanding, submit, List.mem_append, List.not_mem_nil, false_or]
  tauto

/-- A completed operation was outstanding, and no other one becomes so. -/
theorem mem_outstanding_of_complete {i : ℕ} {res : Res} {e : ℕ × Op}
    (h : r.complete i res = some (e, r')) :
    e ∈ r.outstanding ∧ ∀ e' ∈ r'.outstanding, e' ∈ r.outstanding := by
  obtain ⟨e₁, he, heq⟩ := Option.map_eq_some_iff.mp h
  obtain ⟨rfl, rfl⟩ := Prod.mk.inj heq
  refine ⟨List.mem_append_right _ (List.mem_of_getElem? he), fun e' he' => ?_⟩
  exact (List.mem_append.mp he').elim (List.mem_append_left _) fun hmem =>
    List.mem_append_right _ ((List.eraseIdx_subset) hmem)

theorem outstanding_of_harvest {e : ℕ × Res} (h : r.harvest = some (e, r')) :
    r'.outstanding = r.outstanding := by
  rw [harvest] at h
  split at h
  · exact absurd h nofun
  · obtain ⟨-, rfl⟩ := Prod.mk.inj (Option.some.inj h)
    rfl

/-! ### Numbers of calls -/

variable (r) in
/-- The numbers of the calls whose operations or completions are in the ring. -/
def numbers : List ℕ := r.outstanding.map Prod.fst ++ r.completed.map Prod.fst

theorem numbers_prepare (c : ℕ) (op : Op) : (r.prepare c op).numbers.Perm (c :: r.numbers) := by
  simp only [numbers, outstanding, prepare, List.map_append, List.map_cons, List.append_assoc,
    List.singleton_append]
  exact List.perm_middle

theorem numbers_submit : r.submit.numbers.Perm r.numbers := by
  simp only [numbers, outstanding, submit, List.map_append, List.nil_append]
  exact (List.perm_append_comm).append_right _

theorem complete_eq_some_iff {i : ℕ} {res : Res} {e : ℕ × Op} :
    r.complete i res = some (e, r') ↔ r.inFlight[i]? = some e ∧
      r' = { r with
        inFlight := r.inFlight.eraseIdx i
        completed := r.completed ++ [(e.1, res)] } := by
  rw [complete, Option.map_eq_some_iff]
  constructor
  · rintro ⟨e₁, he, heq⟩
    obtain ⟨rfl, rfl⟩ := Prod.mk.inj heq
    exact ⟨he, rfl⟩
  · rintro ⟨he, rfl⟩
    exact ⟨e, he, rfl⟩

theorem numbers_complete {i : ℕ} {res : Res} {e : ℕ × Op} (h : r.complete i res = some (e, r')) :
    r'.numbers.Perm r.numbers := by
  obtain ⟨he, rfl⟩ := complete_eq_some_iff.mp h
  obtain ⟨hi, rfl⟩ := List.getElem?_eq_some_iff.mp he
  have hflight : (r.inFlight[i] :: r.inFlight.eraseIdx i).Perm r.inFlight :=
    List.getElem_cons_eraseIdx_perm hi
  simp only [numbers, outstanding, List.map_append, List.map_cons, List.append_assoc]
  refine List.Perm.append_left _ (List.Perm.trans ?_ ((hflight.map Prod.fst).append_right _))
  rw [← List.append_assoc]
  exact List.perm_append_comm

theorem numbers_harvest {e : ℕ × Res} (h : r.harvest = some (e, r')) :
    r.numbers.Perm (e.1 :: r'.numbers) := by
  rw [harvest] at h
  split at h
  · exact absurd h nofun
  · next rest heq =>
    obtain ⟨rfl, rfl⟩ := Prod.mk.inj (Option.some.inj h)
    simp only [numbers, outstanding, heq, List.map_cons]
    exact List.perm_middle

/-! ### The operation of one call -/

section OneCall

variable {c : ℕ} {op : Op} {i : ℕ} {res : Res}

variable (r) in
/-- The operations of the call `c` are `op`, and none of them is completed. -/
structure Awaits (c : ℕ) (op : Op) : Prop where
  outstanding : ∀ e ∈ r.outstanding, e.1 = c → e.2 = op
  completed : ∀ e ∈ r.completed, e.1 ≠ c

variable (r) in
/-- All operations of the call `c` are completed, with the result `res`. -/
structure Posted (c : ℕ) (res : Res) : Prop where
  outstanding : ∀ e ∈ r.outstanding, e.1 ≠ c
  completed : ∀ e ∈ r.completed, e.1 = c → e.2 = res

theorem Awaits.of_prepare (hc : c ∉ r.numbers) : (r.prepare c op).Awaits c op where
  outstanding e he heq := by
    rcases mem_outstanding_prepare.mp he with he | rfl
    · exact absurd (List.mem_append_left _ (List.mem_map_of_mem he)) (heq ▸ hc)
    · rfl
  completed e he heq := hc (heq ▸ List.mem_append_right _ (List.mem_map_of_mem he))

theorem Awaits.submit (h : r.Awaits c op) : r.submit.Awaits c op where
  outstanding e he := h.outstanding e (mem_outstanding_submit.mp he)
  completed := h.completed

theorem Posted.submit (h : r.Posted c res) : r.submit.Posted c res where
  outstanding e he := h.outstanding e (mem_outstanding_submit.mp he)
  completed := h.completed

/-- Another call's operation is completed. -/
theorem Awaits.complete_ne (h : r.Awaits c op) {e : ℕ × Op}
    (hr : r.complete i res = some (e, r')) (hne : e.1 ≠ c) : r'.Awaits c op where
  outstanding e' he' := h.outstanding e' ((mem_outstanding_of_complete hr).2 e' he')
  completed e' he' := by
    obtain ⟨-, rfl⟩ := complete_eq_some_iff.mp hr
    rcases List.mem_append.mp he' with he' | he'
    · exact h.completed e' he'
    · rwa [List.mem_singleton.mp he']

/-- The call's own operation is completed; it had only one. -/
theorem Awaits.complete_self (h : r.Awaits c op) (hnodup : r.numbers.Nodup) {e : ℕ × Op}
    (hr : r.complete i res = some (e, r')) (heq : e.1 = c) : e.2 = op ∧ r'.Posted c res := by
  refine ⟨h.outstanding e (mem_outstanding_of_complete hr).1 heq, ?_, ?_⟩
  · intro e' he' heq'
    have hnodup := (numbers_complete hr).nodup_iff.mpr hnodup
    obtain ⟨-, rfl⟩ := complete_eq_some_iff.mp hr
    have hposted : c ∈ (r.completed ++ [(e.1, res)]).map Prod.fst := by simp [heq]
    exact (List.nodup_append.mp hnodup).2.2 c (heq' ▸ List.mem_map_of_mem he') c hposted rfl
  · intro e' he' heq'
    obtain ⟨-, rfl⟩ := complete_eq_some_iff.mp hr
    rcases List.mem_append.mp he' with he' | he'
    · exact absurd heq' (h.completed e' he')
    · rw [List.mem_singleton.mp he']

theorem Posted.complete (h : r.Posted c res) {res' : Res} {e : ℕ × Op}
    (hr : r.complete i res' = some (e, r')) : e.1 ≠ c ∧ r'.Posted c res := by
  have hne := h.outstanding e (mem_outstanding_of_complete hr).1
  refine ⟨hne, fun e' he' => h.outstanding e' ((mem_outstanding_of_complete hr).2 e' he'), ?_⟩
  obtain ⟨-, rfl⟩ := complete_eq_some_iff.mp hr
  intro e' he' heq'
  rcases List.mem_append.mp he' with he' | he'
  · exact h.completed e' he' heq'
  · rw [List.mem_singleton.mp he'] at heq'
    exact absurd heq' hne

theorem mem_completed_of_harvest {e : ℕ × Res} (h : r.harvest = some (e, r')) :
    e ∈ r.completed := by
  rw [harvest] at h
  split at h
  · exact absurd h nofun
  · next rest heq =>
    obtain ⟨rfl, -⟩ := Prod.mk.inj (Option.some.inj h)
    rw [heq]
    exact List.mem_cons_self

end OneCall

/-! ### A ring with one operation -/

variable (r) in
/-- The ring holds the submitted operation `op` of the call `c`, or its completion, and nothing
else. -/
def Holds (c : ℕ) (op : Op) : Prop :=
  r = { inFlight := [(c, op)] } ∨ ∃ res, r = { completed := [(c, res)] }

namespace Holds

variable {c : ℕ} {op : Op}

theorem submit_prepare : (({} : SubmissionRing Op Res).prepare c op).submit.Holds c op := .inl rfl

theorem complete (h : r.Holds c op) {i : ℕ} {res : Res} {e : ℕ × Op}
    (hr : r.complete i res = some (e, r')) : r'.Holds c op := by
  obtain ⟨e₁, he, heq⟩ := Option.map_eq_some_iff.mp hr
  obtain ⟨-, rfl⟩ := Prod.mk.inj heq
  rcases h with rfl | ⟨res', rfl⟩
  · cases i with
    | zero =>
      obtain rfl : (c, op) = e₁ := Option.some.inj he
      exact .inr ⟨res, rfl⟩
    | succ i => exact absurd he nofun
  · exact absurd he nofun

/-- What is harvested is the completion of the call, and nothing is left. -/
theorem harvest (h : r.Holds c op) {e : ℕ × Res} (hr : r.harvest = some (e, r')) :
    e.1 = c ∧ r' = {} := by
  rcases h with rfl | ⟨res, rfl⟩
  · exact absurd hr nofun
  · obtain ⟨rfl, rfl⟩ := Prod.mk.inj (Option.some.inj hr)
    exact ⟨rfl, rfl⟩

end Holds

end SubmissionRing

end Core
