import SystemsStack.Core.TransitionSystem
import Mathlib.Order.Monotone.Basic

/-!
# Infinite runs and fairness

An *execution* of a transition system is an infinite run; between two of its steps time may pass
without a step. It is *fair* to a group of actions as long as there is work left for them, if again
and again one of them is taken or there is no such work. What is shown of executions here rests on
two numbers: one that never decreases and is bounded is constant from some time on, and one that
never increases, and decreases with each action of a group, ends these actions.

## Main definitions

* `Core.Execution`, `Core.Execution.FairTo`.
* `Core.Execution.ofRun`: a finite run, after which nothing happens.

## Main results

* `Core.Execution.reachable`.
* `Core.Execution.eventually_constant`, `Core.Execution.exists_done`.
-/

namespace Core

variable {σ α : Type*} {M : TransitionSystem σ α}

/-- A run without an end. -/
structure Execution (M : TransitionSystem σ α) where
  state : ℕ → σ
  /-- The action taken at a time, if there is one. -/
  action : ℕ → Option α
  init : state 0 = M.init
  step : ∀ n a, action n = some a → M.step (state n) a = some (state (n + 1))
  rest : ∀ n, action n = none → state (n + 1) = state n

namespace TransitionSystem

theorem run_append (s : σ) (as bs : List α) :
    M.run s (as ++ bs) = (M.run s as).bind fun s' => M.run s' bs := by
  induction as generalizing s with
  | nil => rfl
  | cons a as ih =>
    rw [List.cons_append, run_cons, run_cons, Option.bind_assoc]
    exact congrArg _ (funext ih)

theorem Reachable.step {s s' : σ} {a : α} (hs : M.Reachable s) (h : M.step s a = some s') :
    M.Reachable s' := by
  obtain ⟨as, has⟩ := hs
  exact ⟨as ++ [a], by rw [run_append, has, Option.bind_some, run_cons, h]; rfl⟩

end TransitionSystem

namespace Execution

open TransitionSystem

variable (E : Execution M)

theorem reachable (n : ℕ) : M.Reachable (E.state n) := by
  induction n with
  | zero => exact ⟨[], congrArg some E.init.symm⟩
  | succ n ih =>
    cases ha : E.action n with
    | none => rwa [E.rest n ha]
    | some a => exact ih.step (E.step n a ha)

/-! ### Numbers along an execution -/

/-- What no step decreases from some time on is at most what it is later. -/
theorem le_of_le {β : Type*} [Preorder β] {f : σ → β} {n m k : ℕ}
    (h : ∀ m ≥ n, f (E.state m) ≤ f (E.state (m + 1))) (hm : n ≤ m) (hmk : m ≤ k) :
    f (E.state m) ≤ f (E.state k) := by
  induction k, hmk using Nat.le_induction with
  | base => exact le_rfl
  | succ k hmk ih => exact le_trans ih (h k (Nat.le_trans hm hmk))

/-- What no step decreases, and is bounded, is constant from some time on. -/
theorem eventually_constant {f : σ → ℕ} {b : ℕ}
    (h : ∀ m, f (E.state m) ≤ f (E.state (m + 1))) (hb : ∀ m, f (E.state m) ≤ b) :
    ∃ n, ∀ m ≥ n, f (E.state m) = f (E.state n) := by
  by_contra hnever
  push Not at hnever
  -- otherwise it exceeds every number
  have hexceeds (k : ℕ) : ∃ n, k ≤ f (E.state n) := by
    induction k with
    | zero => exact ⟨0, Nat.zero_le _⟩
    | succ k ih =>
      obtain ⟨n, hn⟩ := ih
      obtain ⟨m, hm, hne⟩ := hnever n
      have hle := E.le_of_le (n := 0) (fun m _ => h m) (Nat.zero_le n) hm
      exact ⟨m, by omega⟩
  obtain ⟨n, hn⟩ := hexceeds (b + 1)
  exact absurd (hb n) (by omega)

/-- The actions of a group end, if each of them decreases a number that no step increases. -/
theorem exists_last {f : σ → ℕ} {p : α → Prop} {n : ℕ}
    (hle : ∀ m ≥ n, f (E.state (m + 1)) ≤ f (E.state m))
    (hlt : ∀ m ≥ n, ∀ a, E.action m = some a → p a → f (E.state (m + 1)) < f (E.state m)) :
    ∃ k ≥ n, ∀ m ≥ k, ∀ a, E.action m = some a → ¬p a := by
  by_contra hnever
  push Not at hnever
  have hdescends (d : ℕ) : ∃ k ≥ n, f (E.state k) + d ≤ f (E.state n) := by
    induction d with
    | zero => exact ⟨n, Nat.le_refl n, Nat.le_refl _⟩
    | succ d ih =>
      obtain ⟨k, hk, hd⟩ := ih
      obtain ⟨m, hm, a, ha, hp⟩ := hnever k hk
      have hkm : f (E.state m) ≤ f (E.state k) :=
        E.le_of_le (f := OrderDual.toDual ∘ f) hle hk hm
      have hdecreases := hlt m (Nat.le_trans hk hm) a ha hp
      exact ⟨m + 1, by omega, by omega⟩
  obtain ⟨k, -, hk⟩ := hdescends (f (E.state n) + 1)
  omega

/-! ### Fairness -/

/-- Again and again, one of these actions is taken, or there is nothing left for them to do. -/
def FairTo (p : α → Prop) (done : σ → Prop) : Prop :=
  ∀ n, ∃ m ≥ n, done (E.state m) ∨ ∃ a, E.action m = some a ∧ p a

variable {E} in
/-- What is left to do is done, if each of the actions decreases a number that no step increases. -/
theorem FairTo.exists_done {p : α → Prop} {done : σ → Prop} (hfair : E.FairTo p done) {f : σ → ℕ}
    {n : ℕ} (hle : ∀ m ≥ n, f (E.state (m + 1)) ≤ f (E.state m))
    (hlt : ∀ m ≥ n, ∀ a, E.action m = some a → p a → f (E.state (m + 1)) < f (E.state m)) :
    ∃ m ≥ n, done (E.state m) := by
  obtain ⟨k, hk, hlast⟩ := E.exists_last hle hlt
  obtain ⟨m, hm, hdone | ⟨a, ha, hp⟩⟩ := hfair k
  · exact ⟨m, Nat.le_trans hk hm, hdone⟩
  · exact absurd hp (hlast m hm a ha)

variable {E} in
/-- The same for a number that each of the actions decreases, and no other step increases. -/
theorem FairTo.exists_done_of_add_le {p : α → Prop} [DecidablePred p] {done : σ → Prop}
    (hfair : E.FairTo p done) {f : σ → ℕ} {n : ℕ}
    (h : ∀ m ≥ n, ∀ a, E.action m = some a →
      f (E.state (m + 1)) + (if p a then 1 else 0) ≤ f (E.state m)) :
    ∃ m ≥ n, done (E.state m) := by
  refine hfair.exists_done (f := f) (fun m hm => ?_) fun m hm a ha hp => ?_
  · cases ha : E.action m with
    | none => rw [E.rest m ha]
    | some a => exact Nat.le_of_add_right_le (h m hm a ha)
  · have hlt := h m hm a ha
    rw [if_pos hp] at hlt
    exact hlt

/-! ### Finite runs -/

/-- A finite run, after which nothing happens. -/
def ofRun {as : List α} {s : σ} (h : M.run M.init as = some s) : Execution M where
  state n := (M.run M.init (as.take n)).getD s
  action n := as[n]?
  init := rfl
  step n a ha := by
    have htake : as.take (n + 1) = as.take n ++ [a] := by rw [List.take_add_one, ha]; rfl
    have hsplit : as = as.take (n + 1) ++ as.drop (n + 1) := (List.take_append_drop _ _).symm
    rw [hsplit, htake, run_append, run_append] at h
    obtain ⟨s₂, hrun, -⟩ := Option.bind_eq_some_iff.mp h
    obtain ⟨s₁, hrun₁, hstep⟩ := Option.bind_eq_some_iff.mp hrun
    rw [run_cons, Option.bind_eq_some_iff] at hstep
    obtain ⟨s₂', hstep, heq⟩ := hstep
    rw [htake, run_append, hrun₁, Option.bind_some, run_cons, hstep]
    exact hstep
  rest n hn := by
    have hlen := List.getElem?_eq_none_iff.mp hn
    rw [List.take_of_length_le hlen, List.take_of_length_le (Nat.le_succ_of_le hlen)]

theorem ofRun_state {as : List α} {s : σ} (h : M.run M.init as = some s) {n : ℕ}
    (hn : as.length ≤ n) : (ofRun h).state n = s := by
  change (M.run M.init (as.take n)).getD s = s
  rw [List.take_of_length_le hn, h, Option.getD_some]

theorem ofRun_action {as : List α} {s : σ} (h : M.run M.init as = some s) {n : ℕ}
    (hn : as.length ≤ n) : (ofRun h).action n = none :=
  List.getElem?_eq_none hn

/-- A finite run after which there is nothing left to do is fair. -/
theorem ofRun_fairTo {as : List α} {s : σ} (h : M.run M.init as = some s) {p : α → Prop}
    {done : σ → Prop} (hs : done s) : (ofRun h).FairTo p done := fun n => by
  refine ⟨max n as.length, Nat.le_max_left _ _, .inl ?_⟩
  rw [ofRun_state h (Nat.le_max_right _ _)]
  exact hs

end Execution

end Core
