import Mathlib.Data.List.Basic
import Mathlib.Order.Bounds.Basic

/-!
# Order statistics and cumulative counts

The order statistic of rank `k` of a list is the element at the position `k` of the sorted list,
counted from zero. A predicate that is closed downwards holds of it exactly when more than `k`
elements of the list meet the predicate (`Core.orderStatistic_iff`); order statistics can thus be
found by counting, without sorting. When the elements are put in classes by a monotone map to the
naturals, the class of the order statistic is the first one up to which more than `k` elements are
counted (`Core.isLeast_class_orderStatistic`).

## Main definitions

* `Core.orderStatistic`.
* `Core.IsTotalPreorder`: the comparison that sorts the list.

## Main results

* `Core.lt_countP_iff`: the elements that meet a predicate closed downwards come first.
* `Core.orderStatistic_iff`, `Core.isLeast_class_orderStatistic`.
-/

namespace Core

variable {α : Type*}

/-- A transitive comparison in which any two elements are comparable. -/
structure IsTotalPreorder (le : α → α → Bool) : Prop where
  trans : ∀ a b c, le a b → le b c → le a c
  total : ∀ a b, le a b || le b a

variable {le : α → α → Bool} {p : α → Bool} {l : List α} {x : α} {k : ℕ}

/-- In a sorted list the elements that meet a predicate closed downwards come first. -/
theorem lt_countP_iff (hsorted : l.Pairwise fun a b => le a b)
    (hp : ∀ a b, le a b → p b → p a) (hx : l[k]? = some x) : k < l.countP p ↔ p x := by
  induction l generalizing k with
  | nil => exact nomatch hx
  | cons a l ih =>
    obtain ⟨ha, hsorted⟩ := List.pairwise_cons.mp hsorted
    by_cases hpa : p a
    · rw [List.countP_cons_of_pos hpa]
      cases k with
      | zero =>
        obtain rfl : a = x := Option.some.inj hx
        exact iff_of_true (Nat.succ_pos _) hpa
      | succ k =>
        rw [Nat.add_lt_add_iff_right]
        exact ih hsorted hx
    · -- nothing behind an element outside the predicate meets it
      have hnone : ∀ b ∈ a :: l, ¬p b = true := by
        rintro b (_ | ⟨_, hb⟩)
        · exact hpa
        · exact fun hpb => hpa (hp a b (ha b hb) hpb)
      rw [List.countP_eq_zero.mpr hnone]
      exact iff_of_false (Nat.not_lt_zero k) (hnone x (List.mem_of_getElem? hx))

/-- The element at the position `k` of the sorted list. -/
def orderStatistic (le : α → α → Bool) (l : List α) (k : ℕ) : Option α := (l.mergeSort le)[k]?

theorem exists_orderStatistic (le : α → α → Bool) (hk : k < l.length) :
    ∃ x, orderStatistic le l k = some x := by
  have hlen : k < (l.mergeSort le).length := by rwa [List.length_mergeSort]
  exact ⟨_, List.getElem?_eq_getElem hlen⟩

/-- **A predicate closed downwards holds of the order statistic of rank `k` exactly when more than
`k` elements meet it.** -/
theorem orderStatistic_iff (hle : IsTotalPreorder le) (hp : ∀ a b, le a b → p b → p a)
    (hx : orderStatistic le l k = some x) : k < l.countP p ↔ p x := by
  rw [← (List.mergeSort_perm l le).countP_eq p]
  exact lt_countP_iff (List.pairwise_mergeSort hle.trans hle.total l) hp hx

/-- The class of the order statistic of rank `k` is the first one up to which more than `k`
elements are counted. -/
theorem isLeast_class_orderStatistic (hle : IsTotalPreorder le) {f : α → ℕ}
    (hf : ∀ a b, le a b → f a ≤ f b) (hx : orderStatistic le l k = some x) :
    IsLeast {i | k < l.countP fun a => f a ≤ i} (f x) := by
  have hiff (i : ℕ) : (k < l.countP fun a => f a ≤ i) ↔ f x ≤ i := by
    rw [orderStatistic_iff hle (fun a b hab hb => ?_) hx, decide_eq_true_iff]
    rw [decide_eq_true_iff] at hb ⊢
    exact Nat.le_trans (hf a b hab) hb
  exact ⟨(hiff _).mpr (Nat.le_refl _), fun i hi => (hiff i).mp hi⟩

end Core
