import Mathlib.Data.List.Basic
import Mathlib.Tactic.Common

/-!
# Paths

A path is a root and a list of components. Reading it from a text drops what is empty or a single
dot between slashes; two leading slashes are a root of their own, and three or more are one.
Resolving a list of components lets every `..` cancel the nearest component before it.

## Main definitions

* `Core.IsPart`, `Core.partsOf`, `Core.joinParts`: components, and the texts that they come from and
  go to.
* `Core.relativeText`: the text of a path without a root.
* `Core.PosixPath`, with `ofText`, `text`, `parent`, `join`, `name`.
* `Core.resolveFrom`, `Core.resolve`.

## Main results

* `Core.partsOf_joinParts`: components are read as they have been written.
* `Core.resolveFrom_replicate`: a run of `..` in front drops as many components.
* `Core.isSome_resolveFrom_mono`: whether a path can be resolved depends on the number of components
  before it.
-/

namespace Core

/-- The component that stands for the directory above. -/
def dotDot : List Char := ['.', '.']

/-- What a component can be. -/
def IsPart (c : List Char) : Prop := c ≠ [] ∧ c ≠ ['.'] ∧ '/' ∉ c

instance : DecidablePred IsPart :=
  fun c => inferInstanceAs (Decidable (c ≠ [] ∧ c ≠ ['.'] ∧ '/' ∉ c))

/-- The components of a text. -/
def partsOf (s : List Char) : List (List Char) :=
  (s.splitOn '/').filter fun c => c ≠ [] ∧ c ≠ ['.']

/-- The components with slashes between them. -/
def joinParts (cs : List (List Char)) : List Char := ['/'].intercalate cs

@[simp] theorem joinParts_singleton (c : List Char) : joinParts [c] = c :=
  List.intercalate_singleton

@[simp] theorem joinParts_cons_cons (c d : List Char) (cs : List (List Char)) :
    joinParts (c :: d :: cs) = c ++ '/' :: joinParts (d :: cs) := by
  simp [joinParts]

theorem notMem_of_mem_splitOn {α : Type*} [BEq α] [LawfulBEq α] {a : α} {s c : List α}
    (h : c ∈ s.splitOn a) : a ∉ c := by
  induction s generalizing c with
  | nil =>
    rw [List.splitOn_eq_singleton (by simp)] at h
    exact List.mem_singleton.mp h ▸ List.not_mem_nil
  | cons x s ih =>
    rw [List.splitOn_cons_eq_if_modifyHead] at h
    split_ifs at h with hx
    · rcases List.mem_cons.mp h with rfl | h
      · exact List.not_mem_nil
      · exact ih h
    · obtain ⟨d, ds, hds⟩ := List.exists_cons_of_ne_nil (List.splitOn_ne_nil a s)
      rw [hds, List.modifyHead_cons] at h
      rcases List.mem_cons.mp h with rfl | h
      · rw [List.mem_cons, not_or]
        exact ⟨fun hax => hx (beq_iff_eq.mpr hax.symm), ih (hds ▸ List.mem_cons_self)⟩
      · exact ih (hds ▸ List.mem_cons_of_mem d h)

theorem isPart_of_mem_partsOf {s c : List Char} (h : c ∈ partsOf s) : IsPart c := by
  obtain ⟨hmem, hc⟩ := List.mem_filter.mp h
  obtain ⟨hne, hdot⟩ := of_decide_eq_true hc
  exact ⟨hne, hdot, notMem_of_mem_splitOn hmem⟩

theorem partsOf_append_slash (s t : List Char) :
    partsOf (s ++ '/' :: t) = partsOf s ++ partsOf t := by
  rw [partsOf, List.splitOn_append_cons_self, List.filter_append]
  rfl

theorem partsOf_of_isPart {c : List Char} (h : IsPart c) : partsOf c = [c] := by
  rw [partsOf, List.splitOn_eq_singleton h.2.2]
  exact List.filter_cons_of_pos (decide_eq_true ⟨h.1, h.2.1⟩)

theorem partsOf_joinParts_eq_filter {cs : List (List Char)} (h : ∀ c ∈ cs, '/' ∉ c) :
    partsOf (joinParts cs) = cs.filter fun c => c ≠ [] ∧ c ≠ ['.'] := by
  by_cases hnil : cs = []
  · subst hnil
    rfl
  · rw [partsOf, joinParts, List.splitOn_intercalate '/' h hnil]

/-- Components are read as they have been written. -/
theorem partsOf_joinParts {cs : List (List Char)} (h : ∀ c ∈ cs, IsPart c) :
    partsOf (joinParts cs) = cs := by
  rw [partsOf_joinParts_eq_filter fun c hc => (h c hc).2.2]
  exact List.filter_eq_self.mpr fun c hc => decide_eq_true ⟨(h c hc).1, (h c hc).2.1⟩

/-- The last component is read as it has been written. -/
theorem getLast?_partsOf_joinParts {cs : List (List Char)} {c : List Char}
    (h : ∀ c ∈ cs, '/' ∉ c) (hlast : cs.getLast? = some c) (hc : IsPart c) :
    (partsOf (joinParts cs)).getLast? = some c := by
  obtain ⟨init, rfl⟩ := List.getLast?_eq_some_iff.mp hlast
  have hfilter : [c].filter (fun c => c ≠ [] ∧ c ≠ ['.']) = [c] :=
    List.filter_cons_of_pos (decide_eq_true ⟨hc.1, hc.2.1⟩)
  rw [partsOf_joinParts_eq_filter h, List.filter_append, hfilter]
  exact List.getLast?_concat

/-- The text of the path with these components and no root, a dot if there are none. -/
def relativeText (cs : List (List Char)) : List Char := if cs = [] then ['.'] else joinParts cs

theorem partsOf_relativeText {cs : List (List Char)} (h : ∀ c ∈ cs, IsPart c) :
    partsOf (relativeText cs) = cs := by
  rw [relativeText]
  split_ifs with hnil
  · rw [hnil]
    decide
  · exact partsOf_joinParts h

theorem relativeText_inj {cs ds : List (List Char)} (hcs : ∀ c ∈ cs, IsPart c)
    (hds : ∀ c ∈ ds, IsPart c) : relativeText cs = relativeText ds ↔ cs = ds := by
  refine ⟨fun h => ?_, congrArg relativeText⟩
  rw [← partsOf_relativeText hcs, h, partsOf_relativeText hds]

/-! ### Paths -/

/-- What a path begins with. -/
inductive PosixRoot where
  | relative
  | slash
  | slashes
  deriving DecidableEq, Repr

namespace PosixRoot

def ofText : List Char → PosixRoot
  | '/' :: '/' :: '/' :: _ => .slash
  | '/' :: '/' :: _ => .slashes
  | '/' :: _ => .slash
  | _ => .relative

def text : PosixRoot → List Char
  | .relative => []
  | .slash => ['/']
  | .slashes => ['/', '/']

end PosixRoot

/-- A root and the components behind it. -/
structure PosixPath where
  root : PosixRoot
  parts : List (List Char)
  isPart : ∀ c ∈ parts, IsPart c

namespace PosixPath

def ofText (s : List Char) : PosixPath where
  root := .ofText s
  parts := partsOf s
  isPart _ := isPart_of_mem_partsOf

variable (p q : PosixPath)

/-- The text of a path, which is never empty. -/
def text : List Char :=
  if p.root = .relative ∧ p.parts = [] then ['.'] else p.root.text ++ joinParts p.parts

/-- The path without its last component. -/
def parent : PosixPath where
  root := p.root
  parts := p.parts.dropLast
  isPart c h := p.isPart c (List.dropLast_subset _ h)

/-- The second path, from the first one unless it has a root of its own. -/
def join : PosixPath :=
  if q.root = .relative then
    { root := p.root
      parts := p.parts ++ q.parts
      isPart := fun c h => (List.mem_append.mp h).elim (p.isPart c) (q.isPart c) }
  else
    q

/-- The last component. -/
def name : List Char := p.parts.getLast?.getD []

variable {p q}

theorem join_of_relative (h : q.root = .relative) :
    (p.join q).root = p.root ∧ (p.join q).parts = p.parts ++ q.parts := by
  rw [join, if_pos h]
  exact ⟨rfl, rfl⟩

theorem join_of_rooted (h : q.root ≠ .relative) : p.join q = q := if_neg h

variable (p q) in
/-- The last component of two joined paths is that of one of them. -/
theorem name_join : (p.join q).name = q.name ∨ (p.join q).name = p.name := by
  by_cases h : q.root = .relative
  · rw [name, (join_of_relative h).2]
    rcases hq : q.parts with _ | ⟨c, cs⟩
    · rw [List.append_nil]
      exact .inr rfl
    · rw [List.getLast?_append_of_ne_nil _ (List.cons_ne_nil c cs), ← hq]
      exact .inl rfl
  · rw [join_of_rooted h]
    exact .inl rfl

end PosixPath

/-! ### Resolving -/

/-- Every `..` cancels the nearest component before it, behind components that are given latest
first. There is no result when it finds none. -/
def resolveFrom : List (List Char) → List (List Char) → Option (List (List Char))
  | stack, [] => some stack.reverse
  | stack, c :: cs =>
    if c = dotDot then
      match stack with
      | [] => none
      | _ :: stack => resolveFrom stack cs
    else
      resolveFrom (c :: stack) cs

/-- The components that are left when every `..` has cancelled one. -/
def resolve (cs : List (List Char)) : Option (List (List Char)) := resolveFrom [] cs

variable {stack cs ds : List (List Char)} {c d : List Char}

@[simp] theorem resolveFrom_nil : resolveFrom stack [] = some stack.reverse := rfl

theorem resolveFrom_cons_of_ne (h : c ≠ dotDot) :
    resolveFrom stack (c :: cs) = resolveFrom (c :: stack) cs := by
  simp [resolveFrom, h]

@[simp] theorem resolveFrom_nil_dotDot : resolveFrom [] (dotDot :: cs) = none := by
  simp [resolveFrom]

@[simp] theorem resolveFrom_cons_dotDot :
    resolveFrom (d :: stack) (dotDot :: cs) = resolveFrom stack cs := by
  simp [resolveFrom]

theorem resolveFrom_append_of_notMem (h : dotDot ∉ cs) :
    resolveFrom stack (cs ++ ds) = resolveFrom (cs.reverse ++ stack) ds := by
  induction cs generalizing stack with
  | nil => rfl
  | cons c cs ih =>
    obtain ⟨hc, hcs⟩ := not_or.mp (mt List.mem_cons.mpr h)
    rw [List.cons_append, resolveFrom_cons_of_ne (Ne.symm hc), ih hcs, List.reverse_cons,
      List.append_assoc]
    rfl

theorem resolveFrom_of_notMem (h : dotDot ∉ cs) :
    resolveFrom stack cs = some (stack.reverse ++ cs) := by
  rw [← List.append_nil cs, resolveFrom_append_of_notMem h]
  simp

/-- A run of `..` in front drops as many components. -/
theorem resolveFrom_replicate (k : ℕ) :
    resolveFrom stack (List.replicate k dotDot ++ cs) =
      if k ≤ stack.length then resolveFrom (stack.drop k) cs else none := by
  induction k generalizing stack with
  | zero => rfl
  | succ k ih =>
    rw [List.replicate_succ, List.cons_append]
    rcases stack with _ | ⟨d, stack⟩
    · simp
    · simp [ih]

/-- Whether a path can be resolved depends on the number of components before it. -/
theorem isSome_resolveFrom_mono {stack' : List (List Char)} (hlen : stack.length ≤ stack'.length)
    (h : (resolveFrom stack cs).isSome = true) : (resolveFrom stack' cs).isSome = true := by
  induction cs generalizing stack stack' with
  | nil => rfl
  | cons c cs ih =>
    by_cases hc : c = dotDot
    · subst hc
      rcases stack with _ | ⟨d, stack⟩
      · simp at h
      rcases stack' with _ | ⟨d', stack'⟩
      · simp at hlen
      rw [resolveFrom_cons_dotDot] at h ⊢
      exact ih (Nat.le_of_succ_le_succ hlen) h
    · rw [resolveFrom_cons_of_ne hc] at h ⊢
      exact ih (by simpa using hlen) h

/-- What is left are components from before or of the path itself, none of them `..`. -/
theorem mem_of_resolveFrom (h : resolveFrom stack cs = some ds) (hd : d ∈ ds) :
    d ∈ stack ∨ d ∈ cs ∧ d ≠ dotDot := by
  induction cs generalizing stack with
  | nil =>
    obtain rfl := Option.some.inj h
    exact .inl (List.mem_reverse.mp hd)
  | cons c cs ih =>
    by_cases hc : c = dotDot
    · subst hc
      rcases stack with _ | ⟨d', stack⟩
      · simp at h
      rw [resolveFrom_cons_dotDot] at h
      exact (ih h).imp (List.mem_cons_of_mem d') fun h => ⟨List.mem_cons_of_mem _ h.1, h.2⟩
    · rw [resolveFrom_cons_of_ne hc] at h
      rcases ih h with hstack | ⟨hmem, hne⟩
      · rcases List.mem_cons.mp hstack with rfl | hstack
        · exact .inr ⟨List.mem_cons_self, hc⟩
        · exact .inl hstack
      · exact .inr ⟨List.mem_cons_of_mem c hmem, hne⟩

/-- A last component that is not `..` is the last one that is left. -/
theorem getLast?_of_resolveFrom (h : resolveFrom stack (cs ++ [c]) = some ds) (hc : c ≠ dotDot) :
    ds.getLast? = some c := by
  induction cs generalizing stack with
  | nil =>
    rw [List.nil_append, resolveFrom_cons_of_ne hc, resolveFrom_nil] at h
    obtain rfl := Option.some.inj h
    simp
  | cons c' cs ih =>
    rw [List.cons_append] at h
    by_cases hc' : c' = dotDot
    · subst hc'
      rcases stack with _ | ⟨d', stack⟩
      · simp at h
      rw [resolveFrom_cons_dotDot] at h
      exact ih h
    · rw [resolveFrom_cons_of_ne hc'] at h
      exact ih h

end Core
