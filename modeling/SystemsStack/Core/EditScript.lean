import Mathlib.Data.List.Basic
import Mathlib.Tactic.Common

/-!
# Edit scripts

An edit script turns a source into a target: letters are kept, or some are replaced by others. A
stretch of the source is copied when the script keeps all of its letters in a row; then it stands in
the target, between what has become of the letters before and behind it.

## Main definitions

* `Core.Edit`, `Core.Script`, with `source` and `target`.
* `Core.Script.replaced`: which letters of the source are replaced.
* `Core.Script.Copied`: a stretch of the source is copied.

## Main results

* `Core.Script.Copied.target_eq`: what is copied stands in the target.
* `Core.Script.copied_iff`: a stretch is copied if and only if none of its letters is replaced.
-/

namespace Core

/-- A letter is kept, or some letters are replaced. -/
inductive Edit (α : Type*) where
  | keep (a : α)
  | replace (old new : List α) (hne : old ≠ [])

/-- A list of edits, from the start of the source to its end. -/
abbrev Script (α : Type*) := List (Edit α)

variable {α : Type*}

namespace Edit

def source : Edit α → List α
  | keep a => [a]
  | replace old _ _ => old

def target : Edit α → List α
  | keep a => [a]
  | replace _ new _ => new

/-- For each letter of the source, whether it is replaced. -/
def replaced : Edit α → List Bool
  | keep _ => [false]
  | replace old _ _ => List.replicate old.length true

theorem length_replaced (e : Edit α) : e.replaced.length = e.source.length := by
  cases e with
  | keep a => rfl
  | replace old new hne => exact List.length_replicate

end Edit

namespace Script

def source (es : Script α) : List α := es.flatMap Edit.source

def target (es : Script α) : List α := es.flatMap Edit.target

/-- For each letter of the source, whether it is replaced. -/
def replaced (es : Script α) : List Bool := es.flatMap Edit.replaced

/-- The letters behind `before` and in front of `after` are kept in a row. -/
def Copied (es : Script α) (before stretch after : List α) : Prop :=
  ∃ es₁ es₂ : Script α, es = es₁ ++ stretch.map Edit.keep ++ es₂ ∧ source es₁ = before ∧
    source es₂ = after

variable {es : Script α} {before stretch after : List α} {a : α}

@[simp] theorem source_append (es es' : Script α) : source (es ++ es') = source es ++ source es' :=
  List.flatMap_append

@[simp] theorem target_append (es es' : Script α) : target (es ++ es') = target es ++ target es' :=
  List.flatMap_append

@[simp] theorem replaced_append (es es' : Script α) :
    replaced (es ++ es') = replaced es ++ replaced es' :=
  List.flatMap_append

@[simp] theorem source_keep (s : List α) : source (s.map Edit.keep) = s := by
  induction s with
  | nil => rfl
  | cons a s ih => exact congrArg (a :: ·) ih

@[simp] theorem target_keep (s : List α) : target (s.map Edit.keep) = s := by
  induction s with
  | nil => rfl
  | cons a s ih => exact congrArg (a :: ·) ih

@[simp] theorem replaced_keep (s : List α) :
    replaced (s.map Edit.keep) = List.replicate s.length false := by
  induction s with
  | nil => rfl
  | cons a s ih => exact congrArg (false :: ·) ih

@[simp] theorem replaced_replace (old new : List α) (hne : old ≠ []) :
    replaced [.replace old new hne] = List.replicate old.length true :=
  List.append_nil _

@[simp] theorem length_replaced (es : Script α) : (replaced es).length = (source es).length := by
  induction es with
  | nil => rfl
  | cons e es ih =>
    change (e.replaced ++ replaced es).length = (e.source ++ source es).length
    rw [List.length_append, List.length_append, e.length_replaced, ih]

/-- What is copied stands in the target. -/
theorem Copied.target_eq (h : Copied es before stretch after) :
    ∃ before' after', target es = before' ++ stretch ++ after' := by
  obtain ⟨es₁, es₂, rfl, -, -⟩ := h
  exact ⟨target es₁, target es₂, by simp⟩

/-- The script is split in front of a letter that is not replaced. -/
theorem exists_split (hsource : source es = before ++ a :: after)
    (h : (replaced es)[before.length]? ≠ some true) :
    ∃ es₁ es₂ : Script α, es = es₁ ++ es₂ ∧ source es₁ = before ∧ source es₂ = a :: after := by
  induction es generalizing before with
  | nil => exact absurd hsource.symm (List.append_ne_nil_of_right_ne_nil _ (List.cons_ne_nil _ _))
  | cons e es ih =>
    rcases before with _ | ⟨b, before⟩
    · exact ⟨[], e :: es, rfl, rfl, hsource⟩
    cases e with
    | keep c =>
      obtain ⟨rfl, hrest⟩ := List.cons.inj hsource
      obtain ⟨es₁, es₂, rfl, rfl, hes₂⟩ := ih hrest h
      exact ⟨.keep c :: es₁, es₂, rfl, rfl, hes₂⟩
    | replace old new hne =>
      change old ++ source es = b :: before ++ a :: after at hsource
      change (List.replicate old.length true ++ replaced es)[(b :: before).length]? ≠ some true at h
      have hlen : old.length ≤ (b :: before).length := by
        by_contra hlt
        rw [List.getElem?_append_left (by simpa using hlt),
          List.getElem?_replicate_of_lt (by omega)] at h
        exact h rfl
      obtain ⟨rest, hrest⟩ := List.prefix_of_prefix_length_le
        (hsource ▸ List.prefix_append old (source es)) (List.prefix_append _ (a :: after)) hlen
      rw [← hrest, List.append_assoc] at hsource
      rw [← hrest, List.getElem?_append_right (by simp), List.length_replicate, List.length_append,
        Nat.add_sub_cancel_left] at h
      obtain ⟨es₁, es₂, rfl, hes₁, hes₂⟩ := ih (List.append_cancel_left hsource) h
      refine ⟨.replace old new hne :: es₁, es₂, rfl, ?_, hes₂⟩
      rw [← hrest, ← hes₁]
      rfl

/-- A script that replaces none of the first letters begins with keeping them. -/
theorem exists_keep (hsource : source es = stretch ++ after)
    (h : ∀ i < stretch.length, (replaced es)[i]? ≠ some true) :
    ∃ es₂ : Script α, es = stretch.map Edit.keep ++ es₂ ∧ source es₂ = after := by
  induction stretch generalizing es with
  | nil => exact ⟨es, rfl, hsource⟩
  | cons a stretch ih =>
    rcases es with _ | ⟨_ | ⟨old, new, hne⟩, es⟩
    · exact absurd hsource.symm (List.cons_ne_nil _ _)
    · obtain ⟨rfl, hrest⟩ := List.cons.inj hsource
      obtain ⟨es₂, rfl, hes₂⟩ := ih hrest fun i hi => h (i + 1) (Nat.succ_lt_succ hi)
      exact ⟨es₂, rfl, hes₂⟩
    · obtain ⟨b, old, rfl⟩ := List.exists_cons_of_ne_nil hne
      exact absurd rfl (h 0 (Nat.succ_pos _))

/-- A stretch is copied if and only if none of its letters is replaced. -/
theorem copied_iff (hsource : source es = before ++ stretch ++ after) (hne : stretch ≠ []) :
    Copied es before stretch after ↔
      ∀ i < stretch.length, (replaced es)[before.length + i]? ≠ some true := by
  constructor
  · rintro ⟨es₁, es₂, rfl, rfl, rfl⟩ i hi
    rw [replaced_append, replaced_append, List.append_assoc, ← length_replaced,
      List.getElem?_append_right (Nat.le_add_right _ i), Nat.add_sub_cancel_left, replaced_keep,
      List.getElem?_append_left (by simpa using hi), List.getElem?_replicate_of_lt hi]
    simp
  · intro h
    obtain ⟨a, stretch, rfl⟩ := List.exists_cons_of_ne_nil hne
    rw [List.append_assoc, List.cons_append] at hsource
    obtain ⟨es₁, es₂, rfl, rfl, hes₂⟩ := exists_split hsource (h 0 (Nat.succ_pos _))
    obtain ⟨es₃, rfl, hes₃⟩ := exists_keep hes₂ fun i hi => by
      have := h i hi
      rwa [replaced_append, ← length_replaced, List.getElem?_append_right (Nat.le_add_right _ i),
        Nat.add_sub_cancel_left] at this
    exact ⟨es₁, es₃, (List.append_assoc _ _ _).symm, rfl, hes₃⟩

end Script

end Core
