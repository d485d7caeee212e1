import SystemsStack.Core.Detours
import SystemsStack.Wiki.LinkTargets

/-!
# What the loop makes of a path

In the standard normalisation of a path every `..` cancels the nearest component before it that has
not been cancelled. The loop cancels in rounds, and in a round a `..` that is left of a run of them
stands where it can be cancelled itself, together with the next one. It never cancels a `..` at the
end of a path. This file says on which paths below the root the loop comes to the standard
normalisation (`SystemsStack.Wiki.resolvedPath_eq_normal_iff`).

A round takes out the innermost detours of a path. It goes wrong when one of them ends two others.

## Main definitions

* `SystemsStack.Wiki.Normalizes`: the paths on which the loop is right.

## Main results

* `SystemsStack.Wiki.cancel_parts`: a round takes out the innermost detours.
* `SystemsStack.Wiki.reduced_parts_iff`, `SystemsStack.Wiki.resolvedPath_eq_normal_iff`.
* `SystemsStack.Wiki.resolvedPath_climb_iff`, `SystemsStack.Wiki.resolvedPath_of_page`: links that
  climb once.

## References

* `scripts/publish_wiki.py`, lines 119–126.
-/

namespace SystemsStack.Wiki

open Core

variable {c : List Char} {s cs : List (List Char)} {f : Detours} {stops : List Stop} {r : Reading}

/-! ### One round -/

theorem cancel_name_dotDot (hc : c ≠ []) (hs : s ≠ []) :
    cancel (c :: dotDot :: s) = cancel s := by
  obtain ⟨d, s, rfl⟩ := List.exists_cons_of_ne_nil hs
  rw [cancel, if_pos ⟨hc, rfl⟩]

theorem cancel_cons (h : s.head? ≠ some dotDot) : cancel (c :: s) = c :: cancel s := by
  rcases s with _ | ⟨p, _ | ⟨d, s⟩⟩
  · rfl
  · rfl
  · have hp : p ≠ dotDot := fun hp => h (congrArg some hp)
    rw [cancel, if_neg fun h => hp h.2]

theorem cancelsNames_name_dotDot (hc : c ≠ []) (hs : s ≠ []) :
    CancelsNames (c :: dotDot :: s) ↔ c ≠ dotDot ∧ CancelsNames s := by
  obtain ⟨d, s, rfl⟩ := List.exists_cons_of_ne_nil hs
  rw [CancelsNames, if_pos ⟨hc, rfl⟩]

theorem cancelsNames_cons (h : s.head? ≠ some dotDot) :
    CancelsNames (c :: s) ↔ CancelsNames s := by
  rcases s with _ | ⟨p, _ | ⟨d, s⟩⟩
  · exact Iff.rfl
  · exact Iff.rfl
  · have hp : p ≠ dotDot := fun hp => h (congrArg some hp)
    rw [CancelsNames, if_neg fun h => hp h.2]

/-- A round leads no higher than before, and to the same level only if it cancels no `..` together
with another one. -/
theorem descent_cancel (cs : List (List Char)) : descent cs ≤ descent (cancel cs) ∧
    (descent (cancel cs) ≤ descent cs → CancelsNames cs) := by
  induction cs using cancel.induct with
  | case1 c p d cs h ih =>
    rw [cancel, if_pos h, CancelsNames, if_pos h, descent_cons c, descent_cons p, if_pos h.2]
    by_cases hc : c = dotDot
    · rw [if_pos hc]
      exact ⟨by omega, fun hle => by omega⟩
    · rw [if_neg hc]
      exact ⟨by omega, fun hle => ⟨hc, ih.2 (by omega)⟩⟩
  | case2 c p d cs h ih =>
    rw [cancel, if_neg h, CancelsNames, if_neg h, descent_cons c, descent_cons c]
    exact ⟨by omega, fun hle => ih.2 (by omega)⟩
  | case3 cs h =>
    rw [cancel]
    · refine ⟨Int.le_refl _, fun _ => ?_⟩
      rw [CancelsNames]
      · trivial
      · exact h
    · exact h

theorem descent_le_descent_reduced (cs : List (List Char)) : descent cs ≤ descent (reduced cs) := by
  rw [reduced]
  generalize cs.length = n
  induction n generalizing cs with
  | zero => exact Int.le_refl _
  | succ n ih => exact Int.le_trans (descent_cancel cs).1 (ih (cancel cs))

theorem forall_mem_reduced {q : List Char → Prop} (h : ∀ c ∈ cs, q c) : ∀ c ∈ reduced cs, q c := by
  rw [reduced]
  generalize cs.length = n
  induction n generalizing cs with
  | zero => exact h
  | succ n ih => exact ih (forall_mem_cancel h)

theorem getLast?_reduced (cs : List (List Char)) : (reduced cs).getLast? = cs.getLast? :=
  getLast?_iterate_cancel cs.length cs

theorem reduced_ne_nil (h : cs ≠ []) : reduced cs ≠ [] := fun hnil => by
  have hlast := getLast?_reduced cs
  rw [hnil, List.getLast?_nil, eq_comm, List.getLast?_eq_none_iff] at hlast
  exact h hlast

/-- The rounds behind the first one. -/
theorem reduced_cancel (hne : ∀ c ∈ cs, c ≠ []) : reduced (cancel cs) = reduced cs := by
  have h : ¬HasParent (cancel^[(cancel cs).length] (cancel cs)) :=
    not_hasParent_iterate (forall_mem_cancel hne) (Nat.le_refl _)
  rw [← Function.iterate_succ_apply] at h
  exact iterate_cancel_eq_reduced hne h

theorem not_hasParent_of_notMem (h : dotDot ∉ cs) : ¬HasParent cs := by
  induction cs using HasParent.induct with
  | case1 c p d cs ih =>
    rintro (hp | hparent)
    · exact h (hp ▸ List.mem_cons_of_mem c List.mem_cons_self)
    · exact ih (fun hmem => h (List.mem_cons_of_mem c hmem)) hparent
  | case2 cs hcs =>
    rw [HasParent]
    · exact id
    · exact hcs

/-- Where nothing climbs, nothing is cancelled. -/
theorem reduced_of_notMem (hne : ∀ c ∈ cs, c ≠ []) (h : dotDot ∉ cs) : reduced cs = cs :=
  (iterate_cancel_eq_reduced (n := 0) hne (not_hasParent_of_notMem h)).symm

/-! ### Rounds on detours -/

/-- Inside others, detours that end flat lose their innermost ones. -/
theorem cancel_parts_append (hne : [] ∉ f.parts) (hflat : f.EndsFlat) (hs : s ≠ []) :
    cancel (f.parts ++ s) = f.prune.parts ++ cancel s := by
  induction f generalizing s with
  | none => rfl
  | detour c hc inner rest ihinner ihrest =>
    obtain ⟨hcne, hinner, hrest⟩ := Detours.notMem_parts_detour.mp hne
    obtain ⟨hlast, hinnerFlat, hrestFlat⟩ := hflat
    rw [Detours.parts_detour_append]
    by_cases hnone : inner = .none
    · subst hnone
      rw [Detours.prune_innermost, Detours.parts_none, List.nil_append,
        cancel_name_dotDot hcne (List.append_ne_nil_of_right_ne_nil _ hs),
        ihrest hrest hrestFlat hs]
    · have hrestne : rest ≠ .none := fun h =>
        hnone (Detours.depth_eq_zero_iff.mp (hlast (Detours.depth_eq_zero_iff.mpr h)))
      rw [cancel_cons (Detours.head?_parts_append hnone),
        ihinner hinner hinnerFlat (List.cons_ne_nil _ _),
        cancel_cons (Detours.head?_parts_append hrestne), ihrest hrest hrestFlat hs,
        Detours.prune_detour hnone, Detours.parts_detour_append]

/-- At the front of a component that is left, only what is inside has to end flat. -/
theorem cancel_parts_append_cons (hne : [] ∉ f.parts) (hflat : f.Inside Detours.EndsFlat)
    (hc : c ≠ dotDot) : cancel (f.parts ++ c :: s) = f.prune.parts ++ cancel (c :: s) := by
  induction f with
  | none => rfl
  | detour c' hc' inner rest _ ihrest =>
    obtain ⟨hcne, hinner, hrest⟩ := Detours.notMem_parts_detour.mp hne
    obtain ⟨hinnerFlat, hrestFlat⟩ := hflat
    rw [Detours.parts_detour_append]
    by_cases hnone : inner = .none
    · subst hnone
      rw [Detours.prune_innermost, Detours.parts_none, List.nil_append,
        cancel_name_dotDot hcne (List.append_ne_nil_of_right_ne_nil _ (List.cons_ne_nil _ _)),
        ihrest hrest hrestFlat]
    · have hhead : (rest.parts ++ c :: s).head? ≠ some dotDot :=
        rest.head?_parts_append_of_head? fun h => hc (Option.some.inj h)
      rw [cancel_cons (Detours.head?_parts_append hnone),
        cancel_parts_append hinner hinnerFlat (List.cons_ne_nil _ _), cancel_cons hhead,
        ihrest hrest hrestFlat, Detours.prune_detour hnone, Detours.parts_detour_append]

/-- A round that cancels no `..` as a component finds detours that end flat in front of one. -/
theorem endsFlat_of_cancelsNames (hne : [] ∉ f.parts) (hs : s ≠ [])
    (h : CancelsNames (f.parts ++ dotDot :: s)) : f.EndsFlat ∧ CancelsNames (dotDot :: s) := by
  induction f generalizing s with
  | none => exact ⟨trivial, h⟩
  | detour c hc inner rest ihinner ihrest =>
    obtain ⟨hcne, hinner, hrest⟩ := Detours.notMem_parts_detour.mp hne
    rw [Detours.parts_detour_append] at h
    by_cases hnone : inner = .none
    · subst hnone
      have hbehind := (cancelsNames_name_dotDot hcne
        (List.append_ne_nil_of_right_ne_nil _ (List.cons_ne_nil _ _))).mp h
      obtain ⟨hflat, hdots⟩ := ihrest hrest hs hbehind.2
      exact ⟨⟨fun _ => rfl, trivial, hflat⟩, hdots⟩
    · obtain ⟨hinnerFlat, hdots⟩ := ihinner hinner
        (List.append_ne_nil_of_right_ne_nil _ (List.cons_ne_nil _ _))
        ((cancelsNames_cons (Detours.head?_parts_append hnone)).mp h)
      by_cases hrestnone : rest = .none
      · -- the `..` behind the detours inside is cancelled together with the next one
        subst hrestnone
        exact absurd rfl ((cancelsNames_name_dotDot (by decide) hs).mp hdots).1
      · have hbehind := (cancelsNames_cons (Detours.head?_parts_append hrestnone)).mp hdots
        obtain ⟨hrestFlat, hdots⟩ := ihrest hrest hs hbehind
        have hdepth := mt Detours.depth_eq_zero_iff.mp hrestnone
        exact ⟨⟨fun hzero => absurd hzero hdepth, hinnerFlat, hrestFlat⟩, hdots⟩

theorem inside_endsFlat_of_cancelsNames (hne : [] ∉ f.parts) (hc : c ≠ dotDot)
    (h : CancelsNames (f.parts ++ c :: s)) :
    f.Inside Detours.EndsFlat ∧ CancelsNames (c :: s) := by
  induction f with
  | none => exact ⟨trivial, h⟩
  | detour c' hc' inner rest _ ihrest =>
    obtain ⟨hcne, hinner, hrest⟩ := Detours.notMem_parts_detour.mp hne
    rw [Detours.parts_detour_append] at h
    have htail : rest.parts ++ c :: s ≠ [] :=
      List.append_ne_nil_of_right_ne_nil _ (List.cons_ne_nil _ _)
    by_cases hnone : inner = .none
    · subst hnone
      obtain ⟨hflat, hbehind⟩ := ihrest hrest ((cancelsNames_name_dotDot hcne htail).mp h).2
      exact ⟨⟨trivial, hflat⟩, hbehind⟩
    · obtain ⟨hinnerFlat, hdots⟩ := endsFlat_of_cancelsNames hinner htail
        ((cancelsNames_cons (Detours.head?_parts_append hnone)).mp h)
      have hhead : (rest.parts ++ c :: s).head? ≠ some dotDot :=
        rest.head?_parts_append_of_head? fun h => hc (Option.some.inj h)
      obtain ⟨hflat, hbehind⟩ := ihrest hrest ((cancelsNames_cons hhead).mp hdots)
      exact ⟨⟨hinnerFlat, hflat⟩, hbehind⟩

/-! ### Rounds on paths -/

/-- No component is empty, and the last one is not `..`. -/
structure Proper (cs : List (List Char)) : Prop where
  nil_notMem : [] ∉ cs
  last : ¬[dotDot] <:+ cs

namespace Proper

theorem of_suffix {ds : List (List Char)} (h : Proper cs) (hs : ds <:+ cs) : Proper ds :=
  ⟨fun hmem => h.nil_notMem (hs.subset hmem), fun hlast => h.last (hlast.trans hs)⟩

theorem ne_nil (h : Proper cs) : ∀ c ∈ cs, c ≠ [] := fun _ hc hnil => h.nil_notMem (hnil ▸ hc)

theorem cancel (h : Proper cs) : Proper (cancel cs) := by
  refine ⟨fun hmem => h.nil_notMem ((cancel_sublist cs).subset hmem), fun hlast => h.last ?_⟩
  rw [List.singleton_suffix_iff_getLast?_eq_some] at hlast ⊢
  rwa [getLast?_cancel] at hlast

/-- Behind a component that is left. -/
theorem behind_stop {s : Stop} (h : Proper (f.parts ++ (s :: stops).flatMap Stop.parts)) :
    [] ∉ f.parts ∧ Proper (s.detours.parts ++ stops.flatMap Stop.parts) :=
  ⟨fun hmem => h.nil_notMem (List.mem_append_left _ hmem),
    h.of_suffix ((List.suffix_cons s.name _).trans (List.suffix_append _ _))⟩

/-- There are no detours at the end. -/
theorem eq_none (h : Proper (f.parts ++ [].flatMap Stop.parts)) : f = .none := by
  by_contra hne
  rw [List.flatMap_nil, List.append_nil] at h
  exact h.last (Detours.singleton_suffix_parts hne)

end Proper

theorem cancel_parts_append_stops (hp : Proper (f.parts ++ stops.flatMap Stop.parts))
    (hfront : f.Inside Detours.EndsFlat)
    (hstops : ∀ s ∈ stops, s.detours.Inside Detours.EndsFlat) :
    cancel (f.parts ++ stops.flatMap Stop.parts) =
      f.prune.parts ++ (stops.map Stop.prune).flatMap Stop.parts := by
  induction stops generalizing f with
  | nil =>
    rw [hp.eq_none]
    rfl
  | cons s stops ih =>
    obtain ⟨hs, hstops⟩ := List.forall_mem_cons.mp hstops
    obtain ⟨hf, hbehind⟩ := hp.behind_stop
    rw [List.flatMap_cons, Stop.parts, List.cons_append,
      cancel_parts_append_cons hf hfront s.name_ne,
      cancel_cons (Reading.head?_parts_append_stops s.detours stops), ih hbehind hs hstops]
    rfl

/-- A round takes out the innermost detours of a path. -/
theorem cancel_parts (hclimbs : r.climbs = []) (hp : Proper r.parts)
    (hflat : r.All (Detours.Inside Detours.EndsFlat)) : cancel r.parts = r.prune.parts := by
  rw [Reading.parts_of_climbs_eq_nil hclimbs] at hp ⊢
  rw [cancel_parts_append_stops hp hflat.1 hflat.2]
  exact (Reading.parts_of_climbs_eq_nil (r := r.prune) hclimbs).symm

theorem endsFlat_stops (hp : Proper (f.parts ++ stops.flatMap Stop.parts))
    (h : CancelsNames (f.parts ++ stops.flatMap Stop.parts)) :
    f.Inside Detours.EndsFlat ∧ ∀ s ∈ stops, s.detours.Inside Detours.EndsFlat := by
  induction stops generalizing f with
  | nil =>
    rw [hp.eq_none]
    exact ⟨trivial, by simp⟩
  | cons s stops ih =>
    obtain ⟨hf, hbehind⟩ := hp.behind_stop
    obtain ⟨hfront, hcancels⟩ := inside_endsFlat_of_cancelsNames hf s.name_ne h
    obtain ⟨hs, hstops⟩ := ih hbehind
      ((cancelsNames_cons (Reading.head?_parts_append_stops s.detours stops)).mp hcancels)
    exact ⟨hfront, List.forall_mem_cons.mpr ⟨hs, hstops⟩⟩

/-- When the rounds come to the components that are left, the first one cancels no `..` as a
component: they lead to the same level, and no round leads higher. -/
theorem cancelsNames_of_reduced (hclimbs : r.climbs = []) (hp : Proper r.parts)
    (h : reduced r.parts = r.names) : CancelsNames r.parts := by
  have hrest := descent_le_descent_reduced (cancel r.parts)
  rw [reduced_cancel hp.ne_nil, h, descent_of_notMem r.notMem_names] at hrest
  exact (descent_cancel r.parts).2 (Reading.descent_parts hclimbs ▸ hrest)

/-- **What the rounds come to.** They come to the components that are left exactly if what is inside
detours is staggered. -/
theorem reduced_parts_iff (hclimbs : r.climbs = []) (hp : Proper r.parts) :
    reduced r.parts = r.names ↔ r.All (Detours.Inside Detours.Staggered) := by
  obtain ⟨n, hn⟩ : ∃ n, r.All (Detours.depth · ≤ n) := r.exists_depth_le
  induction n generalizing r with
  | zero =>
    have hnone : r.All (· = .none) :=
      hn.imp fun f hf => Detours.depth_eq_zero_iff.mp (Nat.le_zero.mp hf)
    have hparts := Reading.parts_eq_names hclimbs hnone
    refine iff_of_true ?_ (hnone.imp fun f hf => hf ▸ trivial)
    rw [hparts, reduced_of_notMem (hparts ▸ hp.ne_nil) r.notMem_names]
  | succ n ih =>
    by_cases hflat : r.All (Detours.Inside Detours.EndsFlat)
    · have hround := cancel_parts hclimbs hp hflat
      have hprune := ih (r := r.prune) hclimbs (hround ▸ hp.cancel)
        (Reading.all_prune.mpr (hn.imp fun f hf => f.depth_prune ▸ Nat.sub_le_of_le_add hf))
      rw [← hround, reduced_cancel hp.ne_nil, Reading.names_prune, Reading.all_prune] at hprune
      rw [hprune]
      exact ⟨fun h => (hflat.and h).imp fun f hf => f.inside_staggered_iff.mpr hf,
        fun h => h.imp fun f hf => (f.inside_staggered_iff.mp hf).2⟩
    · refine iff_of_false (fun h => hflat ?_) fun h => hflat ?_
      · have hcancels := cancelsNames_of_reduced hclimbs hp h
        rw [Reading.parts_of_climbs_eq_nil hclimbs] at hp hcancels
        exact endsFlat_stops hp hcancels
      · exact h.imp fun f hf => (f.inside_staggered_iff.mp hf).1

/-! ### The loop of a link -/

/-- The paths below the root on which the loop is right: they do not end with `..`, and what is
inside their detours is staggered. -/
def Normalizes (cs : List (List Char)) : Prop :=
  ¬[dotDot] <:+ cs ∧ (Reading.of cs).All (Detours.Inside Detours.Staggered)

instance : DecidablePred Normalizes :=
  fun cs => inferInstanceAs (Decidable (¬[dotDot] <:+ cs ∧
    (Reading.of cs).All (Detours.Inside Detours.Staggered)))

/-- A path without a root is normalized if its rounds come to what is left of it. -/
theorem reduced_eq_iff {ds : List (List Char)} (hne : [] ∉ cs) (hds : resolve cs = some ds) :
    reduced cs = ds ↔ Normalizes cs := by
  by_cases hlast : [dotDot] <:+ cs
  · refine iff_of_false (fun h => ?_) fun h => h.1 hlast
    rw [List.singleton_suffix_iff_getLast?_eq_some, ← getLast?_reduced, h] at hlast
    have hmem := mem_of_resolveFrom hds (List.mem_of_getLast? hlast)
    exact (hmem.resolve_left List.not_mem_nil).2 rfl
  · have hparts := Reading.parts_of cs
    rw [← hparts] at hds
    obtain ⟨hclimbs, rfl⟩ := Reading.eq_names_of_resolve hds
    rw [Normalizes, and_iff_right hlast, ← reduced_parts_iff hclimbs (hparts.symm ▸ ⟨hne, hlast⟩),
      hparts]

/-- A path that climbs once and then descends is normalized if it climbs by at most two. -/
theorem normalizes_climb_iff {dir tail : List (List Char)} {k : ℕ} (hk : k ≤ dir.length)
    (hdir : dotDot ∉ dir) (htail : dotDot ∉ tail) (hne : tail ≠ []) :
    Normalizes (dir ++ (List.replicate k dotDot ++ tail)) ↔ k ≤ 2 := by
  have hlast : ¬[dotDot] <:+ dir ++ (List.replicate k dotDot ++ tail) := by
    rw [List.singleton_suffix_iff_getLast?_eq_some, ← List.append_assoc,
      List.getLast?_append_of_ne_nil _ hne]
    exact fun h => htail (List.mem_of_getLast? h)
  obtain ⟨hclimbs, hfront, hstops⟩ := Reading.of_of_notMem htail
  have hclimbing := Reading.of_replicate_append hfront hclimbs k
  -- the last `k` components of the directory are cancelled, the first ones are left
  obtain ⟨kept, gone, rfl, hlen⟩ : ∃ kept gone, dir = kept ++ gone ∧ gone.length = k :=
    ⟨_, _, (List.take_append_drop (dir.length - k) dir).symm, by rw [List.length_drop]; omega⟩
  rw [List.mem_append, not_or] at hdir
  obtain ⟨hgone, hgoneStops, -, -, hgoneFront⟩ := Reading.of_append_replicate (n := 0) hdir.2
    (congrArg Reading.front hclimbing) (by rw [hclimbing, hlen]; rfl)
  obtain ⟨-, hkept⟩ := Reading.of_append_of_notMem (q := Detours.Inside Detours.Staggered) trivial
    hdir.1 hgone
  rw [Normalizes, and_iff_right hlast, List.append_assoc, hkept, Reading.All, hgoneFront,
    hgoneStops, hlen, hclimbing]
  exact and_iff_left fun s hs => hstops s hs ▸ trivial

variable {sourceRel path : List Char}

/-- The loop on a path without a root. -/
theorem resolvedPath_of_relative (h : (joinedPath sourceRel path).root = .relative) :
    resolvedPath sourceRel path =
      some (relativeText (reduced (joinedPath sourceRel path).parts)) := by
  obtain ⟨t, ht⟩ := Option.isSome_iff_exists.mp
    ((isSome_resolvedPath_iff sourceRel path).mpr (.inl h))
  obtain ⟨k, -, -, hfails, hk⟩ := whileLoop_eq_some_iff.mp ht
  rw [ht, ← hk]
  generalize joinedPath sourceRel path = p at h hfails
  by_cases hnil : p.parts = []
  · have htext : p.text = ['.'] := if_pos ⟨h, hnil⟩
    rw [htext, hnil, Function.iterate_fixed (by decide)]
    rfl
  · have hslash (c) (hc : c ∈ p.parts) : '/' ∉ c := (p.isPart c hc).2.2
    have hne (c) (hc : c ∈ p.parts) : c ≠ [] := (p.isPart c hc).1
    have htext : p.text = joinParts p.parts := by rw [text_eq_joinParts hnil, h]; rfl
    obtain ⟨hjoin, hslashes⟩ := erase_iterate_joinParts k hslash
    have hparent : ¬HasParent (cancel^[k] p.parts) := by
      rwa [← hasParent_joinParts hslashes, ← hjoin, ← htext, Bool.not_eq_true]
    rw [htext, hjoin, iterate_cancel_eq_reduced hne hparent, relativeText,
      if_neg (reduced_ne_nil hnil)]

/-- The loop on a path without a root that stays below where it starts. -/
theorem resolvedPath_eq_iff (hroot : (joinedPath sourceRel path).root = .relative)
    (hcs : resolve (joinedPath sourceRel path).parts = some cs) :
    resolvedPath sourceRel path = some (relativeText cs) ↔
      Normalizes (joinedPath sourceRel path).parts := by
  have hpart := (joinedPath sourceRel path).isPart
  have hleft (c) (hc : c ∈ cs) : IsPart c :=
    hpart c ((mem_of_resolveFrom hcs hc).resolve_left List.not_mem_nil).1
  rw [resolvedPath_of_relative hroot, Option.some.injEq,
    relativeText_inj (forall_mem_reduced hpart) hleft]
  exact reduced_eq_iff (fun hmem => (hpart [] hmem).1 rfl) hcs

/-- **When the loop normalizes.** For a relative link of a page with a relative path that stays
below the root, the loop ends with the standard normalisation if and only if the joined path does
not end with `..`, and nothing inside one of its detours is deeper than what is behind it there. -/
theorem resolvedPath_eq_normal_iff (hsource : (PosixPath.ofText sourceRel).root = .relative)
    (hpath : (PosixPath.ofText path).root = .relative)
    (hcs : resolve (joinedPath sourceRel path).parts = some cs) :
    resolvedPath sourceRel path = some (relativeText cs) ↔
      Normalizes (joinedPath sourceRel path).parts :=
  resolvedPath_eq_iff ((PosixPath.join_of_relative hpath).1.trans hsource) hcs

/-- From the directory of a page, a link climbs to the root. -/
theorem resolvedPath_eq_normal_license :
    resolvedPath "docs/blueprint/AUDIT.md".toList "../../LICENSE".toList =
      some "LICENSE".toList := by
  have hcs : resolve (joinedPath "docs/blueprint/AUDIT.md".toList
      "../../LICENSE".toList).parts = some ["LICENSE".toList] := by decide
  exact (resolvedPath_eq_normal_iff (by decide) (by decide) hcs).mpr (by decide)

/-- A link goes into another directory first, and climbs to the root: the loop comes to a file in
the directory of the page. -/
theorem not_resolvedPath_eq_normal_threeUp : ¬ ∀ (sourceRel path : List Char)
    (cs : List (List Char)), (PosixPath.ofText sourceRel).root = .relative →
      (PosixPath.ofText path).root = .relative →
        resolve (joinedPath sourceRel path).parts = some cs →
          resolvedPath sourceRel path = some (relativeText cs) := by
  intro h
  have hright := h "docs/blueprint/AUDIT.md".toList "img/../../../LICENSE".toList
    ["LICENSE".toList] (by decide) (by decide) (by decide)
  have hwrong : resolvedPath "docs/blueprint/AUDIT.md".toList "img/../../../LICENSE".toList =
      some "docs/blueprint/LICENSE".toList := by decide +kernel
  rw [hwrong] at hright
  exact absurd (Option.some.inj hright) (by decide)

/-! ### Links that climb once -/

/-- A link that climbs by `k` directories, and then descends, is normalized if `k` is at most
two. -/
theorem resolvedPath_climb_iff {tail : List (List Char)} {k : ℕ}
    (hsource : (PosixPath.ofText sourceRel).root = .relative)
    (hpath : (PosixPath.ofText path).root = .relative)
    (hparts : partsOf path = List.replicate k dotDot ++ tail)
    (hdir : dotDot ∉ directory sourceRel) (hk : k ≤ (directory sourceRel).length)
    (htail : dotDot ∉ tail) (hne : tail ≠ []) :
    resolvedPath sourceRel path = some (relativeText
      ((directory sourceRel).take ((directory sourceRel).length - k) ++ tail)) ↔ k ≤ 2 := by
  obtain ⟨hroot, hjoined⟩ := PosixPath.join_of_relative
    (p := (PosixPath.ofText sourceRel).parent) hpath
  rw [← joinedPath] at hroot hjoined
  have hjoined : (joinedPath sourceRel path).parts =
      directory sourceRel ++ (List.replicate k dotDot ++ tail) := hjoined.trans (congrArg _ hparts)
  rw [resolvedPath_eq_iff (hroot.trans hsource), hjoined, normalizes_climb_iff hk hdir htail hne]
  rw [hjoined, resolve, resolveFrom_append_of_notMem hdir, List.append_nil, resolveFrom_replicate,
    if_pos (by rwa [List.length_reverse]), resolveFrom_of_notMem htail, List.drop_reverse,
    List.reverse_reverse]

/-- On the pages, which are at most two directories below the root, the loop is right for every link
that climbs once and stays below the root. -/
theorem resolvedPath_of_page {page : String × String} (hpage : page ∈ pages)
    {tail : List (List Char)} {k : ℕ} (hpath : (PosixPath.ofText path).root = .relative)
    (hparts : partsOf path = List.replicate k dotDot ++ tail)
    (hk : k ≤ (directory page.1.toList).length) (htail : dotDot ∉ tail) (hne : tail ≠ []) :
    resolvedPath page.1.toList path = some (relativeText
      ((directory page.1.toList).take ((directory page.1.toList).length - k) ++ tail)) := by
  obtain ⟨-, -, -, hsource⟩ := pages_targets.2.2 page hpage
  obtain ⟨hdir, hlength⟩ := directory_page hpage
  exact (resolvedPath_climb_iff hsource hpath hparts hdir hk htail hne).mpr
    (Nat.le_trans hk hlength)

end SystemsStack.Wiki
