import SystemsStack.Core.PosixPath
import Mathlib.Data.Int.Notation

/-!
# Detours of a path

Where every `..` of a path is matched with the component that it cancels, the path is a list of
components that are left, with detours in front of them and between them: a detour is a component,
the detours inside it, and the `..` that leads back out of it. Reading the components from the last
one to the first matches them.

## Main definitions

* `Core.descent`: how far down a path leads.
* `Core.Detours`, with `parts`, `depth` and `prune`.
* `Core.Detours.EndsFlat`, `Core.Detours.Staggered`: how detours may follow each other.
* `Core.Reading`, with `of`, `parts` and `names`: a path with its detours.

## Main results

* `Core.Detours.staggered_iff`: detours are staggered if their last ones are innermost, and still
  are when all innermost ones have been taken out.
* `Core.Reading.parts_of`: a path is read as it has been written.
* `Core.Reading.eq_names_of_resolve`: what is left of a path that can be resolved.
-/

namespace Core

/-- How far down a path leads: each `..` goes up by one, any other component down. -/
def descent : List (List Char) → ℤ
  | [] => 0
  | c :: cs => (if c = dotDot then -1 else 1) + descent cs

theorem descent_cons (c : List Char) (cs : List (List Char)) :
    descent (c :: cs) = (if c = dotDot then -1 else 1) + descent cs := rfl

theorem descent_append (cs ds : List (List Char)) :
    descent (cs ++ ds) = descent cs + descent ds := by
  induction cs with
  | nil => exact (Int.zero_add _).symm
  | cons c cs ih => rw [List.cons_append, descent, descent, ih, Int.add_assoc]

theorem descent_of_notMem {cs : List (List Char)} (h : dotDot ∉ cs) : descent cs = cs.length := by
  induction cs with
  | nil => rfl
  | cons c cs ih =>
    obtain ⟨hc, hcs⟩ := not_or.mp (mt List.mem_cons.mpr h)
    rw [descent, if_neg (Ne.symm hc), ih hcs, List.length_cons]
    omega

/-- Detours one behind the other. The first one leads into a component and, behind the detours
inside it, back out. -/
inductive Detours where
  | none
  | detour (c : List Char) (hc : c ≠ dotDot) (inner rest : Detours)

namespace Detours

/-- The components of detours. -/
def parts : Detours → List (List Char)
  | none => []
  | detour c _ inner rest => c :: (inner.parts ++ dotDot :: rest.parts)

/-- How deep detours are nested. -/
def depth : Detours → ℕ
  | none => 0
  | detour _ _ inner rest => max (inner.depth + 1) rest.depth

/-- The detours without the innermost ones. -/
def prune : Detours → Detours
  | none => none
  | detour c hc inner rest =>
      if inner.depth = 0 then rest.prune else detour c hc inner.prune rest.prune

/-- Wherever detours end, the last one has none inside it. -/
def EndsFlat : Detours → Prop
  | none => True
  | detour _ _ inner rest => (rest.depth = 0 → inner.depth = 0) ∧ inner.EndsFlat ∧ rest.EndsFlat

/-- No detours are deeper inside a detour than those behind it. -/
def Staggered : Detours → Prop
  | none => True
  | detour _ _ inner rest => inner.depth ≤ rest.depth ∧ inner.Staggered ∧ rest.Staggered

/-- What is inside each of the detours meets a condition. -/
def Inside (q : Detours → Prop) : Detours → Prop
  | none => True
  | detour _ _ inner rest => q inner ∧ rest.Inside q

instance Staggered.decidable : DecidablePred Staggered
  | none => inferInstanceAs (Decidable True)
  | detour _ _ inner rest =>
      have := Staggered.decidable inner
      have := Staggered.decidable rest
      inferInstanceAs (Decidable (inner.depth ≤ rest.depth ∧ inner.Staggered ∧ rest.Staggered))

instance Inside.decidable {q : Detours → Prop} [DecidablePred q] : DecidablePred (Inside q)
  | none => inferInstanceAs (Decidable True)
  | detour _ _ inner rest =>
      have := Inside.decidable (q := q) rest
      inferInstanceAs (Decidable (q inner ∧ rest.Inside q))

variable {stack cs : List (List Char)} {f : Detours}

@[simp] theorem parts_none : none.parts = [] := rfl

@[simp] theorem parts_detour (c : List Char) (hc : c ≠ dotDot) (inner rest : Detours) :
    (detour c hc inner rest).parts = c :: (inner.parts ++ dotDot :: rest.parts) := rfl

theorem parts_detour_append (c : List Char) (hc : c ≠ dotDot) (inner rest : Detours) :
    (detour c hc inner rest).parts ++ cs =
      c :: (inner.parts ++ dotDot :: (rest.parts ++ cs)) := by
  simp

@[simp] theorem depth_none : none.depth = 0 := rfl

@[simp] theorem depth_detour (c : List Char) (hc : c ≠ dotDot) (inner rest : Detours) :
    (detour c hc inner rest).depth = max (inner.depth + 1) rest.depth := rfl

theorem depth_eq_zero_iff : f.depth = 0 ↔ f = none := by
  cases f with
  | none => exact iff_of_true rfl rfl
  | detour c hc inner rest =>
    refine iff_of_false (fun h => ?_) nofun
    rw [depth_detour] at h
    omega

/-- Resolving goes through detours and comes back. -/
theorem resolveFrom_parts_append (f : Detours) :
    resolveFrom stack (f.parts ++ cs) = resolveFrom stack cs := by
  induction f generalizing stack cs with
  | none => rfl
  | detour c hc inner rest ihinner ihrest =>
    rw [parts_detour_append, resolveFrom_cons_of_ne hc, ihinner, resolveFrom_cons_dotDot, ihrest]

theorem descent_parts (f : Detours) : descent f.parts = 0 := by
  induction f with
  | none => rfl
  | detour c hc inner rest ihinner ihrest =>
    rw [parts_detour, descent, descent_append, descent, ihinner, ihrest, if_neg hc, if_pos rfl]
    rfl

theorem notMem_parts_detour {c : List Char} {hc : c ≠ dotDot} {inner rest : Detours} :
    [] ∉ (detour c hc inner rest).parts ↔ c ≠ [] ∧ [] ∉ inner.parts ∧ [] ∉ rest.parts := by
  have hdots : ([] : List Char) ≠ dotDot := by decide
  simp [hdots, eq_comm]

/-- Detours begin with a component that is not `..`. -/
theorem head?_parts_append (h : f ≠ none) : (f.parts ++ cs).head? ≠ some dotDot := by
  cases f with
  | none => exact absurd rfl h
  | detour c hc inner rest => exact fun h => hc (Option.some.inj h)

theorem head?_parts_append_of_head? (f : Detours) (h : cs.head? ≠ some dotDot) :
    (f.parts ++ cs).head? ≠ some dotDot := by
  cases f with
  | none => exact h
  | detour c hc inner rest => exact head?_parts_append nofun

/-- Detours end with a `..`. -/
theorem singleton_suffix_parts (h : f ≠ none) : [dotDot] <:+ f.parts := by
  induction f with
  | none => exact absurd rfl h
  | detour c hc inner rest _ ihrest =>
    have hrest : [dotDot] <:+ dotDot :: rest.parts := by
      by_cases hnone : rest = none
      · rw [hnone]
        exact List.suffix_rfl
      · exact (ihrest hnone).trans (List.suffix_cons _ _)
    exact hrest.trans ((List.suffix_append _ _).trans (List.suffix_cons _ _))

/-! ### Taking out the innermost detours -/

@[simp] theorem prune_innermost (c : List Char) (hc : c ≠ dotDot) (rest : Detours) :
    (detour c hc none rest).prune = rest.prune := if_pos rfl

theorem prune_detour {c : List Char} {hc : c ≠ dotDot} {inner : Detours} (h : inner ≠ none)
    (rest : Detours) : (detour c hc inner rest).prune = detour c hc inner.prune rest.prune :=
  if_neg (mt depth_eq_zero_iff.mp h)

theorem depth_prune (f : Detours) : f.prune.depth = f.depth - 1 := by
  induction f with
  | none => rfl
  | detour c hc inner rest ihinner ihrest =>
    by_cases hnone : inner = none
    · subst hnone
      rw [prune_innermost, ihrest, depth_detour, depth_none]
      omega
    · have hdepth := mt depth_eq_zero_iff.mp hnone
      rw [prune_detour hnone, depth_detour, depth_detour, ihinner, ihrest]
      omega

/-- Detours are staggered exactly if their last ones are innermost, and they still are staggered
when all innermost ones have been taken out. -/
theorem staggered_iff (f : Detours) : f.Staggered ↔ f.EndsFlat ∧ f.prune.Staggered := by
  induction f with
  | none => exact (and_iff_left trivial).symm
  | detour c hc inner rest ihinner ihrest =>
    by_cases hnone : inner = none
    · subst hnone
      rw [prune_innermost, Staggered, EndsFlat, ihrest, depth_none]
      simp [Staggered, EndsFlat]
    · have hdepth := mt depth_eq_zero_iff.mp hnone
      have hle : inner.depth ≤ rest.depth ↔
          (rest.depth = 0 → inner.depth = 0) ∧ inner.depth - 1 ≤ rest.depth - 1 := by omega
      rw [prune_detour hnone, Staggered, EndsFlat, Staggered, ihinner, ihrest, hle, depth_prune,
        depth_prune]
      tauto

theorem inside_staggered_iff (f : Detours) :
    f.Inside Staggered ↔ f.Inside EndsFlat ∧ f.prune.Inside Staggered := by
  induction f with
  | none => exact (and_iff_left trivial).symm
  | detour c hc inner rest _ ihrest =>
    by_cases hnone : inner = none
    · subst hnone
      rw [prune_innermost, Inside, Inside, ihrest]
      simp [Staggered, EndsFlat]
    · rw [prune_detour hnone, Inside, Inside, Inside, ihrest, staggered_iff inner]
      tauto

end Detours

/-- A component that is left, and the detours behind it. -/
structure Stop where
  name : List Char
  name_ne : name ≠ dotDot
  detours : Detours

/-- The components of a stop. -/
def Stop.parts (s : Stop) : List (List Char) := s.name :: s.detours.parts

/-- The stop without the innermost detours behind it. -/
def Stop.prune (s : Stop) : Stop := { s with detours := s.detours.prune }

/-- What has been read of a path from its end: the detours at the front; for every `..` that is not
matched yet, the detours behind it; and the components that are left. -/
structure Reading where
  front : Detours := .none
  climbs : List Detours := []
  stops : List Stop := []

namespace Reading

/-- The components that have been read. -/
def parts (r : Reading) : List (List Char) :=
  r.front.parts ++ (r.climbs.flatMap (fun f => dotDot :: f.parts) ++ r.stops.flatMap Stop.parts)

/-- The components that are left. -/
def names (r : Reading) : List (List Char) := r.stops.map Stop.name

/-- All detours at the front and behind components that are left meet a condition. -/
def All (q : Detours → Prop) (r : Reading) : Prop := q r.front ∧ ∀ s ∈ r.stops, q s.detours

theorem All.imp {q q' : Detours → Prop} {r : Reading} (h : r.All q) (hq : ∀ f, q f → q' f) :
    r.All q' :=
  ⟨hq _ h.1, fun s hs => hq _ (h.2 s hs)⟩

theorem All.and {q q' : Detours → Prop} {r : Reading} (h : r.All q) (h' : r.All q') :
    r.All fun f => q f ∧ q' f :=
  ⟨⟨h.1, h'.1⟩, fun s hs => ⟨h.2 s hs, h'.2 s hs⟩⟩

instance {q : Detours → Prop} [DecidablePred q] : DecidablePred (All q) :=
  fun r => inferInstanceAs (Decidable (q r.front ∧ ∀ s ∈ r.stops, q s.detours))

/-- The path without the innermost detours. -/
def prune (r : Reading) : Reading :=
  { r with front := r.front.prune, stops := r.stops.map Stop.prune }

/-- Reading one more component, in front of the others. -/
def cons (c : List Char) (r : Reading) : Reading :=
  if hc : c = dotDot then
    { r with front := .none, climbs := r.front :: r.climbs }
  else
    match r.climbs with
    | [] => { front := .none, stops := ⟨c, hc, r.front⟩ :: r.stops }
    | rest :: climbs => { r with front := .detour c hc r.front rest, climbs }

/-- Reading a path. -/
def of (cs : List (List Char)) : Reading := cs.foldr cons {}

theorem parts_cons (c : List Char) (r : Reading) : (r.cons c).parts = c :: r.parts := by
  obtain ⟨front, climbs, stops⟩ := r
  by_cases hc : c = dotDot
  · rw [cons, dif_pos hc, hc]
    simp [parts]
  · rw [cons, dif_neg hc]
    cases climbs with
    | nil => simp [parts, Stop.parts]
    | cons rest climbs => simp [parts]

/-- A path is read as it has been written. -/
theorem parts_of (cs : List (List Char)) : (of cs).parts = cs := by
  induction cs with
  | nil => rfl
  | cons c cs ih => exact (parts_cons c (of cs)).trans (congrArg (c :: ·) ih)

theorem resolveFrom_stops (stack : List (List Char)) (stops : List Stop) :
    resolveFrom stack (stops.flatMap Stop.parts) =
      some (stack.reverse ++ stops.map Stop.name) := by
  induction stops generalizing stack with
  | nil => simp
  | cons s stops ih =>
    rw [List.flatMap_cons, Stop.parts, List.cons_append, resolveFrom_cons_of_ne s.name_ne,
      Detours.resolveFrom_parts_append, ih]
    simp

/-- What is left of a path that can be resolved, in which no `..` is without a match. -/
theorem eq_names_of_resolve {r : Reading} {ds : List (List Char)}
    (h : resolve r.parts = some ds) : r.climbs = [] ∧ ds = r.names := by
  obtain ⟨front, climbs, stops⟩ := r
  rw [resolve, parts, Detours.resolveFrom_parts_append] at h
  cases climbs with
  | nil =>
    rw [List.flatMap_nil, List.nil_append, resolveFrom_stops] at h
    exact ⟨rfl, (Option.some.inj h).symm⟩
  | cons f climbs => simp at h

variable {r : Reading}

@[simp] theorem names_prune (r : Reading) : r.prune.names = r.names := by
  simp only [names, prune, List.map_map]
  rfl

theorem notMem_names (r : Reading) : dotDot ∉ r.names := fun h => by
  obtain ⟨s, -, hs⟩ := List.mem_map.mp h
  exact s.name_ne hs

theorem parts_of_climbs_eq_nil (h : r.climbs = []) :
    r.parts = r.front.parts ++ r.stops.flatMap Stop.parts := by
  rw [parts, h, List.flatMap_nil, List.nil_append]

/-- A path in which every `..` has a match begins with another component. -/
theorem head?_parts_append_stops (f : Detours) (stops : List Stop) :
    (f.parts ++ stops.flatMap Stop.parts).head? ≠ some dotDot := by
  refine f.head?_parts_append_of_head? ?_
  cases stops with
  | nil => exact nofun
  | cons s stops => exact fun h => s.name_ne (Option.some.inj h)

/-- A path without detours. -/
theorem parts_eq_names (hclimbs : r.climbs = []) (h : r.All (· = .none)) : r.parts = r.names := by
  obtain ⟨hfront, hstops⟩ := h
  rw [parts_of_climbs_eq_nil hclimbs, hfront, Detours.parts_none, List.nil_append, names,
    List.map_eq_flatMap]
  refine List.flatMap_congr fun s hs => ?_
  rw [Stop.parts, hstops s hs, Detours.parts_none]

theorem descent_parts (h : r.climbs = []) : descent r.parts = r.names.length := by
  rw [parts_of_climbs_eq_nil h, descent_append, Detours.descent_parts, Int.zero_add, names]
  generalize r.stops = stops
  induction stops with
  | nil => rfl
  | cons s stops ih =>
    rw [List.flatMap_cons, descent_append, Stop.parts, descent, Detours.descent_parts,
      if_neg s.name_ne, ih, List.map_cons, List.length_cons]
    omega

/-- The detours of a path are finitely deep. -/
theorem exists_depth_le (r : Reading) : ∃ n, r.All (Detours.depth · ≤ n) := by
  obtain ⟨front, climbs, stops⟩ := r
  induction stops with
  | nil => exact ⟨front.depth, Nat.le_refl _, by simp⟩
  | cons s stops ih =>
    obtain ⟨n, hfront, hstops⟩ := ih
    refine ⟨max n s.detours.depth, Nat.le_trans hfront (Nat.le_max_left _ _), ?_⟩
    exact List.forall_mem_cons.mpr
      ⟨Nat.le_max_right _ _, fun s hs => Nat.le_trans (hstops s hs) (Nat.le_max_left _ _)⟩

/-! ### Paths that climb once -/

/-- Components in front of a path in which every `..` has a match are left. -/
theorem of_append_of_notMem {q : Detours → Prop} (hq : q .none) {cs ds : List (List Char)}
    (hcs : dotDot ∉ cs) (hds : (of ds).climbs = []) :
    (of (cs ++ ds)).climbs = [] ∧ ((of (cs ++ ds)).All q ↔ (of ds).All q) := by
  induction cs with
  | nil => exact ⟨hds, Iff.rfl⟩
  | cons c cs ih =>
    obtain ⟨hc, hcs⟩ := not_or.mp (mt List.mem_cons.mpr hcs)
    obtain ⟨hclimbs, hall⟩ := ih hcs
    have hcons : of (c :: cs ++ ds) = { front := .none, stops :=
        ⟨c, Ne.symm hc, (of (cs ++ ds)).front⟩ :: (of (cs ++ ds)).stops } := by
      change cons c (of (cs ++ ds)) = _
      rw [cons, dif_neg (Ne.symm hc), hclimbs]
    rw [hcons, ← hall]
    refine ⟨rfl, (and_iff_right hq).trans ?_⟩
    exact List.forall_mem_cons

theorem of_of_notMem {cs : List (List Char)} (h : dotDot ∉ cs) :
    (of cs).climbs = [] ∧ (of cs).All (· = .none) := by
  have hnil : (of []).All (· = .none) := ⟨rfl, fun s hs => absurd hs List.not_mem_nil⟩
  obtain ⟨hclimbs, hall⟩ := of_append_of_notMem (q := (· = .none)) rfl h (rfl : (of []).climbs = [])
  rw [List.append_nil] at hclimbs hall
  exact ⟨hclimbs, hall.mpr hnil⟩

/-- A run of `..` in front of a component that is left. -/
theorem of_replicate_append {cs : List (List Char)} (hfront : (of cs).front = .none)
    (hclimbs : (of cs).climbs = []) (k : ℕ) : of (List.replicate k dotDot ++ cs) =
      { front := .none, climbs := List.replicate k .none, stops := (of cs).stops } := by
  induction k with
  | zero =>
    rw [List.replicate_zero, List.nil_append, List.replicate_zero, ← hfront, ← hclimbs]
  | succ k ih =>
    rw [List.replicate_succ, List.cons_append, List.replicate_succ]
    change cons dotDot (of (List.replicate k dotDot ++ cs)) = _
    rw [cons, dif_pos rfl, ih]

/-- Components in front of a run of `..` lie one inside the other, and are staggered if there are
not too many. -/
theorem of_append_replicate {cs ds : List (List Char)} {n : ℕ} (hcs : dotDot ∉ cs)
    (hfront : (of ds).front = .none)
    (hclimbs : (of ds).climbs = List.replicate (cs.length + n) .none) :
    (of (cs ++ ds)).climbs = List.replicate n .none ∧ (of (cs ++ ds)).stops = (of ds).stops ∧
      (of (cs ++ ds)).front.depth = cs.length ∧
        ((of (cs ++ ds)).front.Staggered ↔ cs.length ≤ 1) ∧
          ((of (cs ++ ds)).front.Inside Detours.Staggered ↔ cs.length ≤ 2) := by
  induction cs generalizing n with
  | nil =>
    rw [List.length_nil, Nat.zero_add] at hclimbs
    rw [List.nil_append, hfront]
    exact ⟨hclimbs, rfl, rfl, iff_of_true trivial (by decide), iff_of_true trivial (by decide)⟩
  | cons c cs ih =>
    obtain ⟨hc, hcs⟩ := not_or.mp (mt List.mem_cons.mpr hcs)
    rw [List.length_cons, Nat.add_assoc, Nat.add_comm 1 n] at hclimbs
    obtain ⟨hrest, hstops, hdepth, hstaggered, -⟩ := ih hcs hclimbs
    have hcons : of (c :: cs ++ ds) = { of (cs ++ ds) with
        front := .detour c (Ne.symm hc) (of (cs ++ ds)).front .none
        climbs := List.replicate n .none } := by
      change cons c (of (cs ++ ds)) = _
      rw [cons, dif_neg (Ne.symm hc), hrest, List.replicate_succ]
    rw [hcons, List.length_cons]
    refine ⟨rfl, hstops, ?_, ?_, ?_⟩
    · rw [Detours.depth_detour, hdepth, Detours.depth_none]
      omega
    · rw [Detours.Staggered, hdepth, hstaggered, Detours.depth_none]
      simp only [Detours.Staggered, and_true]
      omega
    · rw [Detours.Inside, hstaggered]
      simp only [Detours.Inside, and_true]
      omega

theorem all_prune {q : Detours → Prop} : r.prune.All q ↔ r.All fun f => q f.prune :=
  and_congr_right fun _ => List.forall_mem_map

end Reading

end Core
