import Mathlib.Data.List.TakeWhile
import Mathlib.Tactic.Common

/-!
# Texts up to a letter

The first occurrence of a letter tells what is in front of it, and what is behind.

## Main results

* `Core.takeWhile_append_delimiter`, `Core.dropWhile_append_delimiter`.
* `Core.append_cons_inj`: two texts are the same if and only if they are so in front of the first
  occurrence, and behind it.
-/

namespace Core

variable {α : Type*} {c : α} {u u' v v' : List α}

section

variable [DecidableEq α]

theorem takeWhile_append_delimiter (h : c ∉ u) : (u ++ c :: v).takeWhile (· ≠ c) = u := by
  have hne : ∀ x ∈ u, decide (x ≠ c) = true := fun x hx => decide_eq_true fun hc => h (hc ▸ hx)
  rw [List.takeWhile_append_of_pos hne, List.takeWhile_cons_of_neg (by simp), List.append_nil]

theorem dropWhile_append_delimiter (h : c ∉ u) : (u ++ c :: v).dropWhile (· ≠ c) = c :: v := by
  have hne : ∀ x ∈ u, decide (x ≠ c) = true := fun x hx => decide_eq_true fun hc => h (hc ▸ hx)
  rw [List.dropWhile_append_of_pos hne, List.dropWhile_cons_of_neg (by simp)]

end

/-- The first delimiter tells where the texts in front of it end. -/
theorem append_cons_inj (h : c ∉ u) (h' : c ∉ u') :
    u ++ c :: v = u' ++ c :: v' ↔ u = u' ∧ v = v' := by
  classical
  refine ⟨fun heq => ?_, fun ⟨hu, hv⟩ => by rw [hu, hv]⟩
  have hu : u = u' := by
    rw [← takeWhile_append_delimiter h, heq, takeWhile_append_delimiter h']
  rw [hu] at heq
  exact ⟨hu, List.tail_eq_of_cons_eq (List.append_cancel_left heq)⟩

end Core
