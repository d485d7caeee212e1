import Mathlib.Data.List.Basic
import Mathlib.Tactic.Common

/-!
# What has held since an event

A log lists events, the latest first. Something has held *since* an event when it holds of every
event behind which the log has grown since then. The event may be chosen by what came before it.
This is the operator *since* of temporal logic over finite pasts, and it is decidable.

## Main definitions

* `Core.Since`.

## Main results

* `Core.since_iff_exists`: the event, and what has come after it.
* `Core.Since.exists_mem_of_not`: what has held since an event that is not in the earlier part.
-/

namespace Core

variable {α : Type*} {p : α → Prop} {q : α → List α → Prop}

/-- An event `e` with `q e past` is in the log, and all later ones meet `p`. -/
def Since (p : α → Prop) (q : α → List α → Prop) : List α → Prop
  | [] => False
  | e :: past => q e past ∨ p e ∧ Since p q past

@[simp] theorem since_cons {e : α} {past : List α} :
    Since p q (e :: past) ↔ q e past ∨ p e ∧ Since p q past :=
  Iff.rfl

instance Since.decidable [DecidablePred p] [∀ e past, Decidable (q e past)] :
    (log : List α) → Decidable (Since p q log)
  | [] => inferInstanceAs (Decidable False)
  | e :: past =>
      have := Since.decidable past
      inferInstanceAs (Decidable (q e past ∨ p e ∧ Since p q past))

theorem since_iff_exists {log : List α} :
    Since p q log ↔ ∃ later e past, log = later ++ e :: past ∧ q e past ∧ ∀ e' ∈ later, p e' := by
  induction log with
  | nil => simp [Since]
  | cons e log ih =>
    rw [since_cons, ih]
    constructor
    · rintro (hq | ⟨hp, later, e', past, rfl, hq, hlater⟩)
      · exact ⟨[], e, log, rfl, hq, by simp⟩
      · exact ⟨e :: later, e', past, rfl, hq, List.forall_mem_cons.mpr ⟨hp, hlater⟩⟩
    · rintro ⟨later, e', past, hlog, hq, hlater⟩
      rcases later with _ | ⟨e'', later⟩
      · obtain ⟨rfl, rfl⟩ := List.cons.inj hlog
        exact .inl hq
      · obtain ⟨rfl, rfl⟩ := List.cons.inj hlog
        obtain ⟨hp, hlater⟩ := List.forall_mem_cons.mp hlater
        exact .inr ⟨hp, later, e', past, rfl, hq, hlater⟩

theorem Since.mono {p' : α → Prop} {q' : α → List α → Prop} {log : List α} (h : Since p q log)
    (hp : ∀ e, p e → p' e) (hq : ∀ e past, q e past → q' e past) : Since p' q' log := by
  induction log with
  | nil => exact h
  | cons e log ih => exact h.imp (hq e log) fun h => ⟨hp e h.1, ih h.2⟩

/-- Behind an event that neither meets `p` nor is chosen, the event chosen is among the later
ones. -/
theorem Since.exists_mem_of_not {later past : List α} {e : α} (h : Since p q (later ++ e :: past))
    (hp : ¬p e) (hq : ¬q e past) : ∃ e' ∈ later, ∃ past', q e' past' := by
  induction later with
  | nil => exact absurd h (not_or.mpr ⟨hq, fun h => hp h.1⟩)
  | cons e' later ih =>
    rcases h with hq' | ⟨-, hsince⟩
    · exact ⟨e', List.mem_cons_self, _, hq'⟩
    · obtain ⟨e'', hmem, hchosen⟩ := ih hsince
      exact ⟨e'', List.mem_cons_of_mem e' hmem, hchosen⟩

end Core
