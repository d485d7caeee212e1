import Mathlib.Logic.Function.Iterate
import Mathlib.Tactic.Common

/-!
# Loops with a test

A loop runs its body as long as its test holds. It ends if the test fails after finitely many
rounds. With a bound on the number of rounds the result can be computed, and when no round that
changes something makes its input larger, the size of the input is such a bound: a loop either ends
within that many rounds, or comes to a value that its body does not change, and does not end.

## Main definitions

* `Core.Ends`, `Core.whileLoop`.

## Main results

* `Core.whileLoop_eq_some_iff`: the bounded loop computes what the loop computes.
* `Core.ends_iff_isSome`: the size of the input is a sufficient bound.
-/

namespace Core

variable {α : Type*} (test : α → Bool) (body : α → α)

/-- The test fails after finitely many rounds. -/
def Ends (a : α) : Prop := ∃ n, test (body^[n] a) = false

/-- The result of the loop, if it ends within `n` rounds. -/
def whileLoop : ℕ → α → Option α
  | 0, a => if test a then none else some a
  | n + 1, a => if test a then whileLoop n (body a) else some a

variable {test body} {a b : α} {n : ℕ}

theorem whileLoop_of_false (h : test a = false) : whileLoop test body n a = some a := by
  cases n <;> simp [whileLoop, h]

theorem whileLoop_succ_of_true (h : test a = true) :
    whileLoop test body (n + 1) a = whileLoop test body n (body a) := by
  simp [whileLoop, h]

theorem ends_of_false (h : test a = false) : Ends test body a := ⟨0, h⟩

/-- A loop whose test holds ends if and only if it ends behind its first round. -/
theorem ends_iff_of_true (h : test a = true) : Ends test body a ↔ Ends test body (body a) := by
  constructor
  · rintro ⟨_ | n, hn⟩
    · exact absurd (h.symm.trans hn) (by decide)
    · exact ⟨n, hn⟩
  · rintro ⟨n, hn⟩
    exact ⟨n + 1, hn⟩

/-- A value that the body does not change stays. -/
theorem not_ends_of_eq (h : test a = true) (hbody : body a = a) : ¬Ends test body a := by
  rintro ⟨n, hn⟩
  rw [Function.iterate_fixed hbody] at hn
  exact absurd (h.symm.trans hn) (by decide)

/-- The bounded loop computes the first value that fails the test. -/
theorem whileLoop_eq_some_iff : whileLoop test body n a = some b ↔
    ∃ k ≤ n, (∀ j < k, test (body^[j] a) = true) ∧ test (body^[k] a) = false ∧
      body^[k] a = b := by
  induction n generalizing a with
  | zero =>
    rcases htest : test a with _ | _
    · rw [whileLoop_of_false htest, Option.some.injEq]
      constructor
      · rintro rfl
        exact ⟨0, Nat.le_refl 0, by simp, htest, rfl⟩
      · rintro ⟨k, hk, -, -, hb⟩
        obtain rfl := Nat.le_zero.mp hk
        exact hb
    · refine iff_of_false (by simp [whileLoop, htest]) ?_
      rintro ⟨k, hk, -, hfails, -⟩
      obtain rfl := Nat.le_zero.mp hk
      exact absurd (htest.symm.trans hfails) (by decide)
  | succ n ih =>
    rcases htest : test a with _ | _
    · rw [whileLoop_of_false htest, Option.some.injEq]
      constructor
      · rintro rfl
        exact ⟨0, Nat.zero_le _, by simp, htest, rfl⟩
      · rintro ⟨_ | k, -, hbefore, -, hb⟩
        · exact hb
        · exact absurd (htest.symm.trans (hbefore 0 k.succ_pos)) (by decide)
    · rw [whileLoop_succ_of_true htest, ih]
      constructor
      · rintro ⟨k, hk, hbefore, hfails, hb⟩
        refine ⟨k + 1, Nat.succ_le_succ hk, ?_, hfails, hb⟩
        rintro (_ | j) hj
        · exact htest
        · exact hbefore j (Nat.lt_of_succ_lt_succ hj)
      · rintro ⟨_ | k, hk, hbefore, hfails, hb⟩
        · exact absurd (htest.symm.trans hfails) (by decide)
        · exact ⟨k, Nat.le_of_succ_le_succ hk,
            fun j hj => hbefore (j + 1) (Nat.succ_lt_succ hj), hfails, hb⟩

/-- When a round leaves its input or makes it smaller, the size of the input bounds the number of
rounds of a loop that ends. -/
theorem ends_iff_isSome (size : α → ℕ)
    (hbody : ∀ a, test a = true → body a = a ∨ size (body a) < size a) (hn : size a ≤ n) :
    Ends test body a ↔ (whileLoop test body n a).isSome = true := by
  induction n generalizing a with
  | zero =>
    rcases htest : test a with _ | _
    · exact iff_of_true (ends_of_false htest) (by rw [whileLoop_of_false htest]; rfl)
    · have hfixed := (hbody a htest).resolve_right (by omega)
      exact iff_of_false (not_ends_of_eq htest hfixed) (by simp [whileLoop, htest])
  | succ n ih =>
    rcases htest : test a with _ | _
    · exact iff_of_true (ends_of_false htest) (by rw [whileLoop_of_false htest]; rfl)
    · rw [whileLoop_succ_of_true htest]
      rcases hbody a htest with hfixed | hlt
      · refine iff_of_false (not_ends_of_eq htest hfixed) ?_
        rw [hfixed]
        intro hsome
        obtain ⟨b, hb⟩ := Option.isSome_iff_exists.mp hsome
        obtain ⟨k, -, -, hfails, -⟩ := whileLoop_eq_some_iff.mp hb
        exact not_ends_of_eq htest hfixed ⟨k, hfails⟩
      · rw [ends_iff_of_true htest]
        exact ih (by omega)

end Core
