import Mathlib.Data.List.Basic
import Mathlib.Tactic.Common

/-!
# Leftmost substitution

A pattern finds things at the head of a text. A text is split from left to right: where the pattern
finds nothing, one letter is kept, otherwise the split goes on behind what has been found. This is
how a substitution for a regular expression proceeds that has at most one match at each position and
never matches the empty text.

## Main definitions

* `Core.Pattern`, `Core.Pattern.split`.
* `Core.Pattern.sub`, `Core.Pattern.subM`: the substitutions by a function, and by a function that
  may fail.

## Main results

* `Core.Pattern.split_source`: the parts of a split are the text.
* `Core.Pattern.erase_eq_or_length_lt`: erasing what has been found shortens the text, unless
  nothing was found.
* `Core.Pattern.split_sub`: a text in which matches were replaced by matches has these, and nothing
  else, where it is split again.
-/

namespace Core

/-- What is found at the head of a text, and the text that it stands for. -/
structure Pattern (α β : Type*) where
  find : List α → Option β
  source : β → List α
  source_ne_nil : ∀ m, source m ≠ []
  prefix_of_find : ∀ {s m}, find s = some m → source m <+: s

namespace Pattern

variable {α β : Type*} (P : Pattern α β)

/-- The parts of a text of which the first `k` letters are passed over. -/
def splitFrom : ℕ → List α → List (α ⊕ β)
  | _, [] => []
  | k + 1, _ :: s => splitFrom k s
  | 0, c :: s =>
    match P.find (c :: s) with
    | none => .inl c :: splitFrom 0 s
    | some m => .inr m :: splitFrom ((P.source m).length - 1) s

/-- The letters that are kept, and what is found between them. -/
def split (s : List α) : List (α ⊕ β) := P.splitFrom 0 s

/-- The text that a part stands for. -/
def part : α ⊕ β → List α := Sum.elim (fun c => [c]) P.source

/-- Every match is replaced. -/
def sub (f : β → List α) (s : List α) : List α :=
  (P.split s).flatMap (Sum.elim (fun c => [c]) f)

/-- The text of some parts, if a replacement can be found for each match among them. -/
def render (f : β → Option (List α)) (ps : List (α ⊕ β)) : Option (List α) :=
  (ps.mapM (Sum.elim (fun c => some [c]) f)).map List.flatten

/-- Every match is replaced, if a replacement can be found for each. -/
def subM (f : β → Option (List α)) (s : List α) : Option (List α) := render f (P.split s)

theorem render_append_inr {f : β → Option (List α)} {ps qs : List (α ⊕ β)} {m : β}
    {before replaced after : List α} (hbefore : render f ps = some before)
    (hm : f m = some replaced) (hafter : render f qs = some after) :
    render f (ps ++ .inr m :: qs) = some (before ++ replaced ++ after) := by
  obtain ⟨xs, hxs, rfl⟩ := Option.map_eq_some_iff.mp hbefore
  obtain ⟨ys, hys, rfl⟩ := Option.map_eq_some_iff.mp hafter
  rw [render, List.mapM_append, hxs, List.mapM_cons, hys]
  simp [hm]

theorem render_of_forall {f : β → Option (List α)} {g : β → List α} {ps : List (α ⊕ β)}
    (h : ∀ m, .inr m ∈ ps → f m = some (g m)) :
    render f ps = some (ps.flatMap (Sum.elim (fun c => [c]) g)) := by
  have hps : ps.mapM (Sum.elim (fun c => some [c]) f) =
      some (ps.map (Sum.elim (fun c => [c]) g)) := by
    induction ps with
    | nil => rfl
    | cons p ps ih =>
      have hp : Sum.elim (fun c => some [c]) f p = some (Sum.elim (fun c => [c]) g p) := by
        cases p with
        | inl c => rfl
        | inr m => exact h m List.mem_cons_self
      rw [List.mapM_cons, hp, ih fun m hm => h m (List.mem_cons_of_mem p hm)]
      rfl
  rw [render, hps]
  rfl

theorem exists_of_render {f : β → Option (List α)} {ps : List (α ⊕ β)} {s : List α}
    (h : render f ps = some s) {m : β} (hm : .inr m ∈ ps) : ∃ t, f m = some t := by
  obtain ⟨ts, hts, -⟩ := Option.map_eq_some_iff.mp h
  clear h
  induction ps generalizing ts with
  | nil => exact absurd hm List.not_mem_nil
  | cons p ps ih =>
    rw [List.mapM_cons] at hts
    obtain ⟨t, ht, hrest⟩ := Option.bind_eq_some_iff.mp hts
    obtain ⟨ts', hts', -⟩ := Option.bind_eq_some_iff.mp hrest
    rcases List.mem_cons.mp hm with rfl | hm
    · exact ⟨t, ht⟩
    · exact ih hm ts' hts'

theorem splitFrom_eq (k : ℕ) (s : List α) : P.splitFrom k s = P.split (s.drop k) := by
  induction s generalizing k with
  | nil => cases k <;> rfl
  | cons c s ih =>
    cases k with
    | zero => rfl
    | succ k => exact ih k

variable {P}

theorem split_cons_of_none {c : α} {s : List α} (h : P.find (c :: s) = none) :
    P.split (c :: s) = .inl c :: P.split s := by
  rw [split, splitFrom, h]
  rfl

theorem split_append_of_some {m : β} {s : List α} (h : P.find (P.source m ++ s) = some m) :
    P.split (P.source m ++ s) = .inr m :: P.split s := by
  obtain ⟨c, t, ht⟩ := List.exists_cons_of_ne_nil (P.source_ne_nil m)
  rw [ht, List.cons_append] at h ⊢
  rw [split, splitFrom, h]
  simp only [ht, List.length_cons, Nat.add_sub_cancel, splitFrom_eq, List.drop_left]

variable (P)

/-- The parts of a text, by what the pattern finds at the head of each rest. -/
theorem split_induction {motive : List α → Prop} (nil : motive [])
    (kept : ∀ c s, P.find (c :: s) = none → motive s → motive (c :: s))
    (found : ∀ m s, P.find (P.source m ++ s) = some m → motive s → motive (P.source m ++ s))
    (s : List α) : motive s := by
  induction hlen : s.length using Nat.strongRecOn generalizing s with
  | ind n ih =>
    subst hlen
    rcases s with _ | ⟨c, s⟩
    · exact nil
    rcases hfind : P.find (c :: s) with _ | m
    · exact kept c s hfind (ih _ (by simp) s rfl)
    · obtain ⟨t, ht⟩ := P.prefix_of_find hfind
      have hpos := List.length_pos_iff.mpr (P.source_ne_nil m)
      rw [← ht] at hfind ih ⊢
      exact found m t hfind (ih _ (by rw [List.length_append]; omega) t rfl)

/-- The parts of a split are the text. -/
theorem split_source (s : List α) : (P.split s).flatMap P.part = s := by
  induction s using P.split_induction with
  | nil => rfl
  | kept c s hfind ih =>
    rw [split_cons_of_none hfind, List.flatMap_cons, ih]
    rfl
  | found m s hfind ih =>
    rw [split_append_of_some hfind, List.flatMap_cons, ih]
    rfl

variable {P}

theorem sub_cons_of_none {c : α} {s : List α} {f : β → List α} (h : P.find (c :: s) = none) :
    P.sub f (c :: s) = c :: P.sub f s := by
  rw [sub, split_cons_of_none h]
  rfl

theorem sub_append_of_some {m : β} {s : List α} {f : β → List α}
    (h : P.find (P.source m ++ s) = some m) : P.sub f (P.source m ++ s) = f m ++ P.sub f s := by
  rw [sub, split_append_of_some h]
  rfl

/-- A text at whose letters nothing is found is kept. -/
theorem split_append_of_none {u s : List α} (h : ∀ c ∈ u, ∀ t, P.find (c :: t) = none) :
    P.split (u ++ s) = u.map .inl ++ P.split s := by
  induction u with
  | nil => rfl
  | cons c u ih =>
    obtain ⟨hc, hu⟩ := List.forall_mem_cons.mp h
    rw [List.cons_append, split_cons_of_none (hc _), ih hu]
    rfl

/-- A letter occurs neither in a text nor in what becomes of it, as nothing is found; or it first
occurs in front of the first match; or there is a match before it. -/
theorem sub_cases (P : Pattern α β) (c : α) (f : β → List α) (s : List α) :
    c ∉ s ∧ P.sub f s = s ∨
      (∃ u t, c ∉ u ∧ s = u ++ c :: t ∧ P.sub f s = u ++ c :: P.sub f t) ∨
      ∃ u m t, c ∉ u ∧ s = u ++ P.source m ++ t := by
  induction s using P.split_induction with
  | nil => exact .inl ⟨List.not_mem_nil, rfl⟩
  | kept d s hfind ih =>
    rw [sub_cons_of_none hfind]
    by_cases hd : c = d
    · exact .inr (.inl ⟨[], s, List.not_mem_nil, by rw [hd]; rfl, by rw [hd]; rfl⟩)
    have hcons {u : List α} (hu : c ∉ u) : c ∉ d :: u :=
      fun h => (List.mem_cons.mp h).elim hd hu
    rcases ih with ⟨hs, hsub⟩ | ⟨u, t, hu, hs, hsub⟩ | ⟨u, m, t, hu, hs⟩
    · exact .inl ⟨hcons hs, by rw [hsub]⟩
    · exact .inr (.inl ⟨d :: u, t, hcons hu, by rw [hs]; rfl, by rw [hsub]; rfl⟩)
    · exact .inr (.inr ⟨d :: u, m, t, hcons hu, by rw [hs]; rfl⟩)
  | found m s => exact .inr (.inr ⟨[], m, s, List.not_mem_nil, rfl⟩)

/-- A letter of everything that can be found comes only from a text that has it. -/
theorem mem_of_mem_sub {c : α} (hsource : ∀ m, c ∈ P.source m) {f : β → List α} {s : List α}
    (h : c ∈ P.sub f s) : c ∈ s := by
  rcases P.sub_cases c f s with ⟨-, hsub⟩ | ⟨u, t, -, rfl, -⟩ | ⟨u, m, t, -, rfl⟩
  · exact hsub ▸ h
  · exact List.mem_append_right u List.mem_cons_self
  · exact List.mem_append_left t (List.mem_append_right u (hsource m))

/-- Matches that are replaced by matches are found again, and nothing else is, if replacing what is
behind a letter that is kept does not make a match of it. -/
theorem split_sub {g : β → β} (hfound : ∀ m s, P.find (P.source (g m) ++ s) = some (g m))
    (hkept : ∀ c s, P.find (c :: s) = none → P.find (c :: P.sub (P.source ∘ g) s) = none)
    (s : List α) : P.split (P.sub (P.source ∘ g) s) = (P.split s).map (Sum.map id g) := by
  induction s using P.split_induction with
  | nil => rfl
  | kept c s hfind ih =>
    rw [sub_cons_of_none hfind, split_cons_of_none (hkept c s hfind), split_cons_of_none hfind, ih]
    rfl
  | found m s hfind ih =>
    rw [sub_append_of_some hfind, split_append_of_some hfind, Function.comp_apply,
      split_append_of_some (hfound m _), ih]
    rfl

variable (P)

/-- The text without what has been found in it. -/
def erase (s : List α) : List α := P.sub (fun _ => []) s

/-- Erasing what has been found shortens the text, unless nothing was found. -/
theorem erase_eq_or_length_lt (s : List α) :
    P.erase s = s ∨ (P.erase s).length < s.length := by
  have hle (s : List α) : (P.erase s).length ≤ s.length := by
    induction s using P.split_induction with
    | nil => exact Nat.le_refl 0
    | kept c s hfind ih =>
      rw [erase, sub_cons_of_none hfind]
      exact Nat.succ_le_succ ih
    | found m s hfind ih =>
      rw [erase, sub_append_of_some hfind, List.nil_append, List.length_append]
      exact Nat.le_trans ih (Nat.le_add_left _ _)
  induction s using P.split_induction with
  | nil => exact .inl rfl
  | kept c s hfind ih =>
    rw [erase, sub_cons_of_none hfind]
    exact ih.imp (congrArg (c :: ·)) Nat.succ_lt_succ
  | found m s hfind =>
    refine .inr ?_
    have hpos := List.length_pos_iff.mpr (P.source_ne_nil m)
    have := hle s
    rw [erase] at this ⊢
    rw [sub_append_of_some hfind, List.nil_append, List.length_append]
    omega

end Pattern

end Core
