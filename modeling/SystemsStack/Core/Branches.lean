import Mathlib.Data.List.Infix
import Mathlib.Logic.Function.Basic
import Mathlib.Tactic.Common

/-!
# Branches that only grow

A shared repository keeps a history of commits for each of its branches, the newest commit first.
Several parties take copies of a history, put commits in front of it, and push the result to a
branch. A push is a *fast-forward* if it keeps the history that the branch has had. If only
fast-forwards are accepted, no commit of a branch is ever lost, whoever pushes what in which order.

## Main definitions

* `Core.Branches`, `Core.Branches.FastForward`, `Core.Branches.push`, `Core.Branches.Grows`.

## Main results

* `Core.Branches.FastForward.grows`.
-/

namespace Core

/-- The histories of the branches that exist. -/
abbrev Branches (β κ : Type*) := β → Option (List κ)

namespace Branches

variable {β κ : Type*} (r : Branches β κ) {r' r'' : Branches β κ} {b b' : β} {h : List κ}

/-- The history keeps that of the branch. -/
def FastForward (b : β) (h : List κ) : Prop := ∀ old ∈ r b, old <:+ h

instance [DecidableEq κ] (b : β) (h : List κ) : Decidable (r.FastForward b h) :=
  inferInstanceAs (Decidable (∀ old ∈ r b, old <:+ h))

/-- Set a branch to the history. -/
def push [DecidableEq β] (b : β) (h : List κ) : Branches β κ := Function.update r b (some h)

/-- Every branch keeps its commits. -/
def Grows (r' : Branches β κ) : Prop := ∀ b, ∀ h ∈ r b, ∃ h' ∈ r' b, h <:+ h'

variable {r}

@[refl] theorem Grows.refl (r : Branches β κ) : r.Grows r := fun _ h hh => ⟨h, hh, List.suffix_rfl⟩

theorem Grows.trans (h₁ : r.Grows r') (h₂ : r'.Grows r'') : r.Grows r'' := fun b h hh => by
  obtain ⟨h', hh', hle⟩ := h₁ b h hh
  obtain ⟨h'', hh'', hle'⟩ := h₂ b h' hh'
  exact ⟨h'', hh'', hle.trans hle'⟩

variable [DecidableEq β]

theorem push_self : r.push b h b = some h := Function.update_self ..

theorem push_of_ne (hne : b' ≠ b) : r.push b h b' = r b' := Function.update_of_ne hne ..

/-- **Fast-forwards lose nothing.** -/
theorem FastForward.grows (hforward : r.FastForward b h) : r.Grows (r.push b h) := by
  intro b' old hold
  by_cases hb : b' = b
  · subst hb
    exact ⟨h, push_self, hforward old hold⟩
  · exact ⟨old, (push_of_ne hb).trans hold, List.suffix_rfl⟩

end Branches

end Core
