import Mathlib.Data.List.Basic
import Mathlib.Order.Notation

/-!
# Transition systems with partial steps

A *transition system* has one initial state and a partial step function. The action handed to the
step resolves every choice that is not the program's own (which thread moves, what the
environment answers), so that the quantifier over runs is a quantifier over lists of actions, and
a run can be evaluated.

An *invariant* holds initially and is kept by every step; it then holds in every reachable state
(`Core.TransitionSystem.IsInvariant.of_reachable`). A system can be *restricted* to the steps
that meet a condition on the state and the action; its runs are the runs of the original system
all of whose steps meet the condition (`Core.TransitionSystem.run_restrict`). What the steps of a
run do can be *recorded* in a log (`Core.TransitionSystem.recording`), and amounts in a log summed
up since the last entry that has none (`Core.tally`).

## Main definitions

* `Core.TransitionSystem`, `Core.TransitionSystem.run`, `Core.TransitionSystem.Reachable`.
* `Core.TransitionSystem.IsInvariant`.
* `Core.TransitionSystem.restrict`, `Core.TransitionSystem.recording`, `Core.tally`.

## Main results

* `Core.TransitionSystem.exists_reachable`: reachable states found by evaluating a run.
* `Core.TransitionSystem.IsInvariant.of_run`, `Core.TransitionSystem.IsInvariant.of_reachable`.
* `Core.TransitionSystem.IsInvariant.of_relative`: an invariant proved with the help of another.
* `Core.TransitionSystem.IsInvariant.of_refinement`: an invariant of a more abstract system.
* `Core.TransitionSystem.run_restrict`, `Core.TransitionSystem.IsInvariant.restrict`.
-/

namespace Core

/-- An initial state and a partial step function; `step s a = none` when the action `a` is not
enabled in `s`. -/
structure TransitionSystem (σ α : Type*) where
  /-- The state in which every run starts. -/
  init : σ
  /-- The state after the action, when it is enabled. -/
  step : σ → α → Option σ

namespace TransitionSystem

variable {σ α : Type*} (M : TransitionSystem σ α)

/-! ### Runs and reachable states -/

/-- The state after the actions of a list, when each of them is enabled in its turn. -/
def run : σ → List α → Option σ
  | s, [] => some s
  | s, a :: as => (M.step s a).bind fun s' => run s' as

@[simp] theorem run_nil (s : σ) : M.run s [] = some s := rfl

theorem run_cons (s : σ) (a : α) (as : List α) :
    M.run s (a :: as) = (M.step s a).bind fun s' => M.run s' as := rfl

/-- The states that some run from the initial state ends in. -/
def Reachable (s : σ) : Prop := ∃ as, M.run M.init as = some s

variable {M}

/-- A property of the end of a run that can be evaluated holds of some reachable state. -/
theorem exists_reachable {p : σ → Prop} [DecidablePred p] (as : List α)
    (h : (M.run M.init as).any (fun s => decide (p s)) = true) : ∃ s, M.Reachable s ∧ p s := by
  cases hrun : M.run M.init as with
  | none => simp [hrun] at h
  | some s => exact ⟨s, ⟨as, hrun⟩, by simpa [hrun] using h⟩

/-! ### Invariants -/

variable (M) in
/-- A predicate that holds initially and is kept by every enabled step. -/
structure IsInvariant (I : σ → Prop) : Prop where
  init : I M.init
  step : ∀ {s a s'}, I s → M.step s a = some s' → I s'

namespace IsInvariant

variable {I J : σ → Prop}

/-- What each step keeps, a whole run keeps. -/
theorem of_run (hI : M.IsInvariant I) {s s' : σ} {as : List α} (hs : I s)
    (h : M.run s as = some s') : I s' := by
  induction as generalizing s with
  | nil =>
    rw [run_nil, Option.some.injEq] at h
    exact h ▸ hs
  | cons a as ih =>
    obtain ⟨s₁, hstep, hrun⟩ := Option.bind_eq_some_iff.mp h
    exact ih (hI.step hs hstep) hrun

/-- An invariant holds in every reachable state. -/
theorem of_reachable (hI : M.IsInvariant I) {s : σ} (hs : M.Reachable s) : I s :=
  hs.elim fun _ h => hI.of_run hI.init h

/-- A predicate whose steps are kept as long as another invariant holds. -/
theorem of_relative (hI : M.IsInvariant I) (init : J M.init)
    (step : ∀ {s a s'}, I s → J s → M.step s a = some s' → J s') :
    M.IsInvariant fun s => I s ∧ J s where
  init := ⟨hI.init, init⟩
  step hs h := ⟨hI.step hs.1 h, step hs.1 hs.2 h⟩

/-- An invariant of an abstract system holds of the image of a concrete one, when each concrete
step from a state whose image meets the invariant is an abstract step. -/
theorem of_refinement {τ β : Type*} {N : TransitionSystem τ β} {K : τ → Prop} (hK : N.IsInvariant K)
    {f : σ → τ} (init : f M.init = N.init)
    (step : ∀ {s a s'}, K (f s) → M.step s a = some s' → ∃ b, N.step (f s) b = some (f s')) :
    M.IsInvariant fun s => K (f s) where
  init := init ▸ hK.init
  step hs h := (step hs h).elim fun _ hb => hK.step hs hb

end IsInvariant

/-! ### Restricted systems -/

variable (C : σ → α → Prop) [∀ s a, Decidable (C s a)]

variable (M) in
/-- The steps that meet the condition `C`. -/
def restrict : TransitionSystem σ α where
  init := M.init
  step s a := if C s a then M.step s a else none

theorem restrict_step_iff {s s' : σ} {a : α} :
    (M.restrict C).step s a = some s' ↔ C s a ∧ M.step s a = some s' := by
  simp only [restrict]
  split_ifs with h <;> simp [h]

/-- Every step of the run meets the condition `C`, in the state in which it is taken. -/
def Meets (M : TransitionSystem σ α) (C : σ → α → Prop) : σ → List α → Prop
  | _, [] => True
  | s, a :: as => C s a ∧ ∀ s', M.step s a = some s' → Meets M C s' as

/-- The runs of a restricted system are the runs whose steps all meet the condition. -/
theorem run_restrict {s s' : σ} {as : List α} :
    (M.restrict C).run s as = some s' ↔ M.Meets C s as ∧ M.run s as = some s' := by
  induction as generalizing s with
  | nil => simp [Meets]
  | cons a as ih =>
    simp only [run_cons, Option.bind_eq_some_iff, restrict_step_iff, ih, Meets]
    constructor
    · rintro ⟨s₁, ⟨hC, hstep⟩, hmeets, hrun⟩
      exact ⟨⟨hC, fun s₂ h₂ => Option.some.inj (hstep.symm.trans h₂) ▸ hmeets⟩, s₁, hstep, hrun⟩
    · rintro ⟨⟨hC, hmeets⟩, s₁, hstep, hrun⟩
      exact ⟨s₁, ⟨hC, hstep⟩, hmeets s₁ hstep, hrun⟩

variable {C} in
/-- What a restricted system reaches, the original one reaches. -/
theorem Reachable.of_restrict {s : σ} (h : (M.restrict C).Reachable s) : M.Reachable s :=
  h.imp fun _ hrun => (run_restrict C |>.mp hrun).2

theorem IsInvariant.restrict {I : σ → Prop} (hI : M.IsInvariant I) :
    (M.restrict C).IsInvariant I where
  init := hI.init
  step hs h := hI.step hs ((restrict_step_iff C).mp h).2

/-! ### Recorded runs -/

variable {ε : Type*} (f : σ → α → Option ε)

variable (M) in
/-- The system together with a log of what its steps do, as far as they do something to be
recorded. -/
def recording : TransitionSystem (σ × List ε) α where
  init := (M.init, [])
  step s a := (M.step s.1 a).map fun s' => (s', s.2 ++ (f s.1 a).toList)

theorem recording_step_iff {s s' : σ} {log log' : List ε} {a : α} :
    (M.recording f).step (s, log) a = some (s', log') ↔
      M.step s a = some s' ∧ log' = log ++ (f s a).toList := by
  simp only [recording, Option.map_eq_some_iff, Prod.mk.injEq]
  constructor
  · rintro ⟨s₁, hstep, rfl, rfl⟩
    exact ⟨hstep, rfl⟩
  · rintro ⟨hstep, rfl⟩
    exact ⟨s', hstep, rfl, rfl⟩

/-- Recording does not change what holds of the states. -/
theorem IsInvariant.recording {I : σ → Prop} (hI : M.IsInvariant I) :
    (M.recording f).IsInvariant fun s => I s.1 where
  init := hI.init
  step hs h := hI.step hs ((recording_step_iff f).mp h).1

/-- What is reachable, is reachable with some log. -/
theorem Reachable.recording {s : σ} (h : M.Reachable s) :
    ∃ log, (M.recording f).Reachable (s, log) := by
  have hrun (as : List α) (s₀ : σ) (log : List ε) (h : M.run s₀ as = some s) :
      ∃ log', (M.recording f).run (s₀, log) as = some (s, log') := by
    induction as generalizing s₀ log with
    | nil => exact ⟨log, congrArg (Option.map (·, log)) h⟩
    | cons a as ih =>
      obtain ⟨s₁, hstep, hrun⟩ := Option.bind_eq_some_iff.mp h
      obtain ⟨log', hlog'⟩ := ih s₁ (log ++ (f s₀ a).toList) hrun
      refine ⟨log', Option.bind_eq_some_iff.mpr ⟨_, ?_, hlog'⟩⟩
      exact (recording_step_iff f).mpr ⟨hstep, rfl⟩
  obtain ⟨as, has⟩ := h
  obtain ⟨log, hlog⟩ := hrun as M.init [] has
  exact ⟨log, as, hlog⟩

end TransitionSystem

/-! ### Tallies -/

section Tally

variable {ε : Type*} (amount : ε → Option ℕ)

/-- The sum of the amounts of the entries of a log, since the last one that has none. -/
def tally (log : List ε) : ℕ :=
  log.foldl (fun n e => (amount e).elim 0 (n + ·)) 0

theorem tally_concat_none {log : List ε} {e : ε} (h : amount e = none) :
    tally amount (log ++ [e]) = 0 := by
  rw [tally, List.foldl_concat, h, Option.elim_none]

theorem tally_concat_some {log : List ε} {e : ε} {n : ℕ} (h : amount e = some n) :
    tally amount (log ++ [e]) = tally amount log + n := by
  rw [tally, List.foldl_concat, h, Option.elim_some, tally]

end Tally

end Core
