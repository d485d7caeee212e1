import SystemsStack.Wiki.PublishWiki

/-!
# The loop that resolves a path

The loop of `rewrite_links` erases components together with the `..` behind them, as long as the
path has a `..` between two slashes. On a relative path every such `..` has a component before it,
so that each round shortens the path. Behind the root of an absolute path a `..` may be left that
has none: there the loop goes on for ever. That does not happen if the path never leads above its
root (`SystemsStack.Wiki.pathLoop_ends`).

## Main definitions

* `SystemsStack.Wiki.HasParent`, `SystemsStack.Wiki.cancel`: the test and the body of the loop on
  components.
* `SystemsStack.Wiki.reduced`: the components that are left when nothing can be cancelled any more.
* `SystemsStack.Wiki.Settles`: the paths on which the rounds leave no `..` behind the root.
* `SystemsStack.Wiki.StaysBelow`: the paths that never lead above their root.
* `SystemsStack.Wiki.CancelsNames`: a round in which no `..` is cancelled as a component.

## Main results

* `SystemsStack.Wiki.hasParent_joinParts`, `SystemsStack.Wiki.erase_joinParts`: the loop on the text
  of a path is the loop on its components.
* `SystemsStack.Wiki.ends_text_iff`, `SystemsStack.Wiki.pathLoop_ends`.

## References

* `scripts/publish_wiki.py`, lines 119–126.
-/

namespace SystemsStack.Wiki

open Core

variable {c d s t : List Char} {cs ds : List (List Char)}

/-! ### The loop on components -/

/-- A `..` stands between two components. -/
def HasParent : List (List Char) → Prop
  | _ :: p :: d :: cs => p = dotDot ∨ HasParent (p :: d :: cs)
  | _ => False

/-- One round: a component goes together with the `..` behind it, unless it is empty or the `..` is
the last component. -/
def cancel : List (List Char) → List (List Char)
  | c :: p :: d :: cs =>
    if c ≠ [] ∧ p = dotDot then cancel (d :: cs) else c :: cancel (p :: d :: cs)
  | cs => cs

/-- The components after as many rounds as there are components. -/
def reduced (cs : List (List Char)) : List (List Char) := cancel^[cs.length] cs

/-- The first component is `..`, and it is not the only one. -/
def StartsUp : List (List Char) → Prop
  | c :: _ :: _ => c = dotDot
  | _ => False

instance : DecidablePred StartsUp
  | c :: _ :: _ => inferInstanceAs (Decidable (c = dotDot))
  | [_] | [] => inferInstanceAs (Decidable False)

/-- The loop leaves no `..` behind the root. -/
def Settles (p : PosixPath) : Prop := p.root = .relative ∨ ¬StartsUp (reduced p.parts)

instance : DecidablePred Settles :=
  fun p => inferInstanceAs (Decidable (p.root = .relative ∨ ¬StartsUp (reduced p.parts)))

theorem cancel_sublist (cs : List (List Char)) : (cancel cs).Sublist cs := by
  induction cs using cancel.induct with
  | case1 c p d cs h ih =>
    rw [cancel, if_pos h]
    exact (ih.cons p).cons c
  | case2 c p d cs h ih =>
    rw [cancel, if_neg h]
    exact ih.cons_cons c
  | case3 cs h =>
    rw [cancel]
    exact h

theorem forall_mem_cancel {q : List Char → Prop} (h : ∀ c ∈ cs, q c) : ∀ c ∈ cancel cs, q c :=
  fun c hc => h c ((cancel_sublist cs).subset hc)

theorem getLast?_cancel (cs : List (List Char)) : (cancel cs).getLast? = cs.getLast? := by
  induction cs using cancel.induct with
  | case1 c p d cs h ih =>
    rw [cancel, if_pos h, ih]
    simp
  | case2 c p d cs h ih =>
    rw [cancel, if_neg h, List.getLast?_cons, ih]
    simp [List.getLast?_cons]
  | case3 cs h => rw [cancel]; exact h

theorem getLast?_iterate_cancel (n : ℕ) (cs : List (List Char)) :
    (cancel^[n] cs).getLast? = cs.getLast? := by
  induction n generalizing cs with
  | zero => rfl
  | succ n ih => rw [Function.iterate_succ_apply, ih, getLast?_cancel]

theorem cancel_ne_nil (h : cs ≠ []) : cancel cs ≠ [] := by
  intro hnil
  have := getLast?_cancel cs
  rw [hnil, List.getLast?_nil, eq_comm, List.getLast?_eq_none_iff] at this
  exact h this

theorem cancel_of_not_hasParent (h : ¬HasParent cs) : cancel cs = cs := by
  induction cs using cancel.induct with
  | case1 c p d cs hc ih => exact absurd (.inl hc.2) h
  | case2 c p d cs hc ih => rw [cancel, if_neg hc, ih fun hparent => h (.inr hparent)]
  | case3 cs hcs => rw [cancel]; exact hcs

/-- Among components that are not empty, every `..` between two of them makes the round shorten the
path. -/
theorem length_cancel_lt (hne : ∀ c ∈ cs, c ≠ []) (h : HasParent cs) :
    (cancel cs).length < cs.length := by
  induction cs using cancel.induct with
  | case1 c p d cs hc ih =>
    rw [cancel, if_pos hc]
    have := (cancel_sublist (d :: cs)).length_le
    simp only [List.length_cons] at this ⊢
    omega
  | case2 c p d cs hc ih =>
    rw [cancel, if_neg hc]
    obtain ⟨hcne, hcs⟩ := List.forall_mem_cons.mp hne
    have hparent := h.resolve_left fun hp => hc ⟨hcne, hp⟩
    exact Nat.succ_lt_succ (ih hcs hparent)
  | case3 cs hcs =>
    rcases cs with _ | ⟨c, _ | ⟨p, _ | ⟨d, cs⟩⟩⟩
    · exact h.elim
    · exact h.elim
    · exact h.elim
    · exact absurd rfl (hcs c p d cs)

theorem not_hasParent_iterate {n : ℕ} (hne : ∀ c ∈ cs, c ≠ []) (hn : cs.length ≤ n) :
    ¬HasParent (cancel^[n] cs) := by
  induction n generalizing cs with
  | zero =>
    obtain rfl := List.length_eq_zero_iff.mp (Nat.le_zero.mp hn)
    exact id
  | succ n ih =>
    rw [Function.iterate_succ_apply]
    by_cases h : HasParent cs
    · have := length_cancel_lt hne h
      exact ih (forall_mem_cancel hne) (by omega)
    · have hfixed := cancel_of_not_hasParent h
      rwa [hfixed, Function.iterate_fixed hfixed]

/-- When nothing can be cancelled any more, the rounds have come to what is left in the end. -/
theorem iterate_cancel_eq_reduced {n : ℕ} (hne : ∀ c ∈ cs, c ≠ [])
    (h : ¬HasParent (cancel^[n] cs)) : cancel^[n] cs = reduced cs := by
  have hfixed := cancel_of_not_hasParent h
  have hreduced := cancel_of_not_hasParent (not_hasParent_iterate hne (Nat.le_refl cs.length))
  rcases Nat.le_total n cs.length with hle | hle
  · obtain ⟨k, hk⟩ := Nat.exists_eq_add_of_le' hle
    rw [reduced, hk, Function.iterate_add_apply, Function.iterate_fixed hfixed]
  · obtain ⟨k, rfl⟩ := Nat.exists_eq_add_of_le' hle
    rw [Function.iterate_add_apply, Function.iterate_fixed hreduced, reduced]

/-! ### The loop on texts -/

theorem findParent_append_slash (hc : '/' ∉ c) : findParent (c ++ '/' :: t) =
    if c ≠ [] ∧ dotDot ++ ['/'] <+: t then some c else none := by
  have hne : ∀ x ∈ c, decide (x ≠ '/') = true := by
    intro x hx
    exact decide_eq_true fun h => hc (h ▸ hx)
  have htake : (c ++ '/' :: t).takeWhile (· ≠ '/') = c := by
    rw [List.takeWhile_append_of_pos hne]
    simp
  have hdrop : (c ++ '/' :: t).dropWhile (· ≠ '/') = '/' :: t := by
    rw [List.dropWhile_append_of_pos hne]
    simp
  have hprefix : "/../".toList <+: '/' :: t ↔ dotDot ++ ['/'] <+: t := by
    rw [show "/../".toList = '/' :: (dotDot ++ ['/']) by decide, List.cons_prefix_cons]
    exact and_iff_right rfl
  simp only [findParent, htake, hdrop, hprefix]

theorem findParent_of_notMem (hs : '/' ∉ s) : findParent s = none := by
  have hdrop : s.dropWhile (· ≠ '/') = [] :=
    List.dropWhile_eq_nil_iff.mpr fun x hx => decide_eq_true fun h => hs (h ▸ hx)
  rw [findParent, hdrop, if_neg]
  exact fun h => absurd h.2 (by decide)

theorem erase_of_notMem (hs : '/' ∉ s) : parentRe.erase s = s := by
  induction s with
  | nil => rfl
  | cons x s ih =>
    rw [Pattern.erase, Pattern.sub_cons_of_none (findParent_of_notMem hs)]
    exact congrArg (x :: ·) (ih fun h => hs (List.mem_cons_of_mem x h))

theorem erase_append_parent (hc : '/' ∉ c) (hne : c ≠ []) :
    parentRe.erase (c ++ '/' :: (dotDot ++ '/' :: t)) = parentRe.erase t := by
  have htext : c ++ '/' :: (dotDot ++ '/' :: t) = parentRe.source c ++ t := by
    change _ = (c ++ "/../".toList) ++ t
    rw [show "/../".toList = '/' :: (dotDot ++ ['/']) by decide]
    simp
  have hfind : parentRe.find (parentRe.source c ++ t) = some c := by
    rw [← htext]
    refine (findParent_append_slash hc).trans (if_pos ⟨hne, t, ?_⟩)
    simp
  rw [htext, Pattern.erase, Pattern.sub_append_of_some hfind]
  rfl

theorem erase_append_slash (hc : '/' ∉ c) (h : c = [] ∨ ¬dotDot ++ ['/'] <+: t) :
    parentRe.erase (c ++ '/' :: t) = c ++ '/' :: parentRe.erase t := by
  induction c with
  | nil =>
    have hfind : parentRe.find ('/' :: t) = none :=
      (findParent_append_slash (c := []) (t := t) hc).trans (if_neg fun h => h.1 rfl)
    rw [List.nil_append, Pattern.erase, Pattern.sub_cons_of_none hfind]
    rfl
  | cons x c ih =>
    have ht := h.resolve_left (List.cons_ne_nil x c)
    have hfind : parentRe.find (x :: (c ++ '/' :: t)) = none :=
      (findParent_append_slash hc).trans (if_neg fun h => ht h.2)
    rw [List.cons_append, Pattern.erase, Pattern.sub_cons_of_none hfind]
    exact congrArg (x :: ·) (ih (fun h => hc (List.mem_cons_of_mem x h)) (.inr ht))

/-- Texts with a slash are compared component by component. -/
theorem append_slash_prefix_iff (hc : '/' ∉ c) (hd : '/' ∉ d) :
    c ++ '/' :: s <+: d ++ '/' :: t ↔ c = d ∧ s <+: t := by
  induction c generalizing d with
  | nil =>
    rcases d with _ | ⟨x, d⟩
    · simp [List.cons_prefix_cons]
    · have hx : '/' ≠ x := fun h => hd (h ▸ List.mem_cons_self)
      simp [List.cons_prefix_cons, hx]
  | cons y c ih =>
    rcases d with _ | ⟨x, d⟩
    · have hy : y ≠ '/' := fun h => hc (h ▸ List.mem_cons_self)
      simp [List.cons_prefix_cons, hy]
    · have hc' : '/' ∉ c := fun h => hc (List.mem_cons_of_mem y h)
      have hd' : '/' ∉ d := fun h => hd (List.mem_cons_of_mem x h)
      simp [List.cons_prefix_cons, ih hc' hd', and_assoc]

theorem dotDot_prefix_joinParts (hd : '/' ∉ d) :
    dotDot ++ ['/'] <+: joinParts (d :: cs) ↔ d = dotDot ∧ cs ≠ [] := by
  rcases cs with _ | ⟨d', cs⟩
  · rw [joinParts_singleton]
    refine iff_of_false (fun h => hd ?_) fun h => h.2 rfl
    exact h.subset (List.mem_append_right _ (List.mem_singleton_self _))
  · rw [joinParts_cons_cons, append_slash_prefix_iff (by decide) hd, eq_comm]
    exact and_congr_right fun _ => iff_of_true List.nil_prefix (List.cons_ne_nil _ _)

theorem joinParts_cons_of_ne_nil (h : cs ≠ []) :
    joinParts (c :: cs) = c ++ '/' :: joinParts cs := by
  obtain ⟨d, ds, rfl⟩ := List.exists_cons_of_ne_nil h
  exact joinParts_cons_cons c d ds

/-- A round on the text of a path is a round on its components. -/
theorem erase_joinParts (h : ∀ c ∈ cs, '/' ∉ c) :
    parentRe.erase (joinParts cs) = joinParts (cancel cs) := by
  induction cs using cancel.induct with
  | case1 c p d cs hc ih =>
    obtain ⟨hslash, hps⟩ := List.forall_mem_cons.mp h
    obtain ⟨hne, rfl⟩ := hc
    rw [cancel, if_pos ⟨hne, rfl⟩, joinParts_cons_cons, joinParts_cons_cons,
      erase_append_parent hslash hne, ih (List.forall_mem_cons.mp hps).2]
  | case2 c p d cs hc ih =>
    obtain ⟨hslash, hps⟩ := List.forall_mem_cons.mp h
    have hparent : c = [] ∨ ¬dotDot ++ ['/'] <+: joinParts (p :: d :: cs) := by
      rw [dotDot_prefix_joinParts (List.forall_mem_cons.mp hps).1]
      rcases not_and_or.mp hc with hnil | hp
      · exact .inl (not_not.mp hnil)
      · exact .inr fun h => hp h.1
    rw [cancel, if_neg hc, joinParts_cons_cons, erase_append_slash hslash hparent, ih hps,
      joinParts_cons_of_ne_nil (cancel_ne_nil (List.cons_ne_nil p (d :: cs)))]
  | case3 cs hcs =>
    rw [cancel]
    · rcases cs with _ | ⟨c, _ | ⟨p, _ | ⟨d, cs⟩⟩⟩
      · rfl
      · rw [joinParts_singleton, erase_of_notMem (h c List.mem_cons_self)]
      · obtain ⟨hc, hp⟩ := List.forall_mem_cons.mp h
        have hp := hp p List.mem_cons_self
        have hparent : ¬dotDot ++ ['/'] <+: joinParts [p] :=
          mt (dotDot_prefix_joinParts hp).mp fun h => h.2 rfl
        rw [joinParts_cons_cons, erase_append_slash hc (.inr hparent), joinParts_singleton,
          erase_of_notMem hp]
      · exact absurd rfl (hcs c p d cs)
    · exact hcs

theorem infix_append_slash (hc : '/' ∉ c) : "/../".toList <:+: c ++ '/' :: t ↔
    dotDot ++ ['/'] <+: t ∨ "/../".toList <:+: t := by
  have hparent : "/../".toList = '/' :: (dotDot ++ ['/']) := by decide
  induction c with
  | nil =>
    rw [List.nil_append, List.infix_cons_iff, hparent, List.cons_prefix_cons]
    exact or_congr_left (and_iff_right rfl)
  | cons x c ih =>
    have hx : '/' ≠ x := fun h => hc (h ▸ List.mem_cons_self)
    have hhead : ¬"/../".toList <+: x :: (c ++ '/' :: t) := by
      rw [hparent, List.cons_prefix_cons]
      exact fun h => hx h.1
    rw [List.cons_append, List.infix_cons_iff, or_iff_right hhead]
    exact ih fun h => hc (List.mem_cons_of_mem x h)

/-- The test on the text of a path is the test on its components. -/
theorem hasParent_joinParts (h : ∀ c ∈ cs, '/' ∉ c) :
    hasParent (joinParts cs) = true ↔ HasParent cs := by
  rw [hasParent, decide_eq_true_iff]
  have hslash : '/' ∈ "/../".toList := by decide
  induction cs using HasParent.induct with
  | case1 c p d cs ih =>
    obtain ⟨hc, hps⟩ := List.forall_mem_cons.mp h
    rw [joinParts_cons_cons, infix_append_slash hc,
      dotDot_prefix_joinParts (List.forall_mem_cons.mp hps).1, HasParent]
    exact or_congr (and_iff_left (List.cons_ne_nil d cs)) (ih hps)
  | case2 cs hcs =>
    rcases cs with _ | ⟨c, _ | ⟨p, _ | ⟨d, cs⟩⟩⟩
    · exact iff_of_false (by decide) id
    · rw [joinParts_singleton]
      exact iff_of_false (fun hin => h c List.mem_cons_self (hin.subset hslash)) id
    · obtain ⟨hc, hp⟩ := List.forall_mem_cons.mp h
      have hp := hp p List.mem_cons_self
      rw [joinParts_cons_cons, infix_append_slash hc, joinParts_singleton]
      refine iff_of_false ?_ id
      rintro (hin | hin)
      · exact hp (hin.subset (List.mem_append_right _ (List.mem_singleton_self _)))
      · exact hp (hin.subset hslash)
    · exact absurd rfl (hcs c p d cs)

theorem erase_iterate_joinParts (n : ℕ) (h : ∀ c ∈ cs, '/' ∉ c) :
    parentRe.erase^[n] (joinParts cs) = joinParts (cancel^[n] cs) ∧
      ∀ c ∈ cancel^[n] cs, '/' ∉ c := by
  induction n generalizing cs with
  | zero => exact ⟨rfl, h⟩
  | succ n ih =>
    rw [Function.iterate_succ_apply, Function.iterate_succ_apply, erase_joinParts h]
    exact ih (forall_mem_cancel h)

/-- The loop on a text ends if and only if it does on the components. -/
theorem ends_joinParts_iff (h : ∀ c ∈ cs, '/' ∉ c) :
    Ends hasParent parentRe.erase (joinParts cs) ↔ ∃ n, ¬HasParent (cancel^[n] cs) := by
  refine exists_congr fun n => ?_
  obtain ⟨htext, hslash⟩ := erase_iterate_joinParts n h
  rw [htext, ← hasParent_joinParts hslash, Bool.not_eq_true]

/-! ### Roots -/

theorem cancel_nil_cons (cs : List (List Char)) : cancel ([] :: cs) = [] :: cancel cs := by
  rcases cs with _ | ⟨p, _ | ⟨d, cs⟩⟩
  · rfl
  · rfl
  · rw [cancel, if_neg fun h => h.1 rfl]

theorem iterate_cancel_nil_cons (n : ℕ) (cs : List (List Char)) :
    cancel^[n] ([] :: cs) = [] :: cancel^[n] cs := by
  have h : Function.Semiconj (List.cons []) cancel cancel := fun cs => (cancel_nil_cons cs).symm
  exact (h.iterate_right n cs).symm

theorem hasParent_nil_cons : HasParent ([] :: cs) ↔ StartsUp cs ∨ HasParent cs := by
  rcases cs with _ | ⟨p, _ | ⟨d, cs⟩⟩
  · exact ⟨False.elim, fun h => h.elim id id⟩
  · exact ⟨False.elim, fun h => h.elim id id⟩
  · exact Iff.rfl

theorem not_startsUp_nil_cons : ¬StartsUp ([] :: cs) := by
  rcases cs with _ | ⟨d, cs⟩
  · exact id
  · exact (by decide : ([] : List Char) ≠ dotDot)

/-- Behind a root, the loop ends if and only if no `..` is left there in the end. -/
theorem ends_rooted_iff (hne : ∀ c ∈ cs, c ≠ []) :
    (∃ n, ¬HasParent (cancel^[n] ([] :: cs))) ↔ ¬StartsUp (reduced cs) := by
  constructor
  · rintro ⟨n, hn⟩
    rw [iterate_cancel_nil_cons, hasParent_nil_cons, not_or] at hn
    exact iterate_cancel_eq_reduced hne hn.2 ▸ hn.1
  · intro h
    refine ⟨cs.length, ?_⟩
    rw [iterate_cancel_nil_cons, hasParent_nil_cons, not_or]
    exact ⟨h, not_hasParent_iterate hne (Nat.le_refl _)⟩

/-- The empty components that a root is written as. -/
def rootParts : PosixRoot → List (List Char)
  | .relative => []
  | .slash => [[]]
  | .slashes => [[], []]

theorem text_eq_joinParts {p : PosixPath} (h : p.parts ≠ []) :
    p.text = joinParts (rootParts p.root ++ p.parts) := by
  rw [PosixPath.text, if_neg fun hp => h hp.2]
  cases p.root with
  | relative => rfl
  | slash =>
    change _ = joinParts ([] :: p.parts)
    rw [joinParts_cons_of_ne_nil h]
    rfl
  | slashes =>
    change _ = joinParts ([] :: [] :: p.parts)
    rw [joinParts_cons_of_ne_nil (List.cons_ne_nil _ _), joinParts_cons_of_ne_nil h]
    rfl

theorem notMem_rootParts_append (p : PosixPath) : ∀ c ∈ rootParts p.root ++ p.parts, '/' ∉ c := by
  intro c hc
  rcases List.mem_append.mp hc with hc | hc
  · cases hroot : p.root <;> rw [hroot] at hc <;> simp_all [rootParts]
  · exact (p.isPart c hc).2.2

theorem text_of_parts_eq_nil {p : PosixPath} (h : p.parts = []) :
    p.text ∈ [".".toList, "/".toList, "//".toList] := by
  rw [PosixPath.text, h]
  cases p.root <;> decide

/-- **When the loop ends** on the text of a path. -/
theorem ends_text_iff (p : PosixPath) : Ends hasParent parentRe.erase p.text ↔ Settles p := by
  by_cases hnil : p.parts = []
  · have htext : ∀ s ∈ [".".toList, "/".toList, "//".toList], hasParent s = false := by decide
    refine iff_of_true (ends_of_false (htext _ (text_of_parts_eq_nil hnil))) (.inr ?_)
    rw [hnil]
    exact id
  have hne (c) (hc : c ∈ p.parts) : c ≠ [] := (p.isPart c hc).1
  rw [text_eq_joinParts hnil, ends_joinParts_iff (notMem_rootParts_append p), Settles]
  cases hroot : p.root with
  | relative => exact iff_of_true ⟨_, not_hasParent_iterate hne (Nat.le_refl _)⟩ (.inl rfl)
  | slash => exact (ends_rooted_iff hne).trans (or_iff_right PosixRoot.noConfusion).symm
  | slashes =>
    have hiff (n : ℕ) : HasParent (cancel^[n] ([] :: [] :: p.parts)) ↔
        HasParent (cancel^[n] ([] :: p.parts)) := by
      rw [iterate_cancel_nil_cons n ([] :: p.parts), hasParent_nil_cons, iterate_cancel_nil_cons]
      exact or_iff_right not_startsUp_nil_cons
    have hrooted : (∃ n, ¬HasParent (cancel^[n] ([] :: [] :: p.parts))) ↔ _ :=
      (exists_congr fun n => not_congr (hiff n)).trans (ends_rooted_iff hne)
    exact hrooted.trans (or_iff_right PosixRoot.noConfusion).symm

/-! ### Paths that stay below the root -/

/-- A path without a root; or one of which the components in front of the last one never lead above
the root. -/
def StaysBelow (p : PosixPath) : Prop :=
  p.root = .relative ∨ (resolve p.parts.dropLast).isSome = true

instance : DecidablePred StaysBelow :=
  fun p => inferInstanceAs (Decidable (p.root = .relative ∨ _))

theorem dropLast_cons_cancel (c p d : List Char) (cs : List (List Char)) :
    (c :: cancel (p :: d :: cs)).dropLast = c :: (cancel (p :: d :: cs)).dropLast :=
  List.dropLast_cons_of_ne_nil (cancel_ne_nil (List.cons_ne_nil p (d :: cs)))

/-- A round keeps a path below its root. -/
theorem isSome_resolveFrom_cancel {stack : List (List Char)}
    (h : (resolveFrom stack cs.dropLast).isSome = true) :
    (resolveFrom stack (cancel cs).dropLast).isSome = true := by
  induction cs using cancel.induct generalizing stack with
  | case1 c p d cs hc ih =>
    obtain ⟨hne, rfl⟩ := hc
    rw [cancel, if_pos ⟨hne, rfl⟩]
    rw [List.dropLast_cons_cons, List.dropLast_cons_cons] at h
    by_cases hup : c = dotDot
    · -- two `..` go together: what is behind them starts higher up
      subst hup
      rcases stack with _ | ⟨x, _ | ⟨y, stack⟩⟩
      · simp at h
      · simp at h
      · rw [resolveFrom_cons_dotDot, resolveFrom_cons_dotDot] at h
        exact isSome_resolveFrom_mono (by simp; omega) (ih h)
    · rw [resolveFrom_cons_of_ne hup, resolveFrom_cons_dotDot] at h
      exact ih h
  | case2 c p d cs hc ih =>
    rw [cancel, if_neg hc, dropLast_cons_cancel]
    rw [List.dropLast_cons_cons] at h
    by_cases hup : c = dotDot
    · subst hup
      rcases stack with _ | ⟨x, stack⟩
      · simp at h
      · rw [resolveFrom_cons_dotDot] at h ⊢
        exact ih h
    · rw [resolveFrom_cons_of_ne hup] at h ⊢
      exact ih h
  | case3 cs hcs => rwa [cancel]; exact hcs

/-- The loop ends on a path that stays below its root. -/
theorem settles_of_staysBelow {p : PosixPath} (h : StaysBelow p) : Settles p := by
  refine h.imp_right fun hresolve hup => ?_
  have hiterate (n : ℕ) : (resolve (cancel^[n] p.parts).dropLast).isSome = true := by
    induction n with
    | zero => exact hresolve
    | succ n ih =>
      rw [Function.iterate_succ_apply']
      exact isSome_resolveFrom_cancel ih
  have hreduced := hiterate p.parts.length
  rw [← reduced] at hreduced
  rcases hw : reduced p.parts with _ | ⟨c, _ | ⟨d, cs⟩⟩
  · exact (hw ▸ hup : StartsUp [])
  · exact (hw ▸ hup : StartsUp [c])
  · obtain rfl : c = dotDot := (hw ▸ hup : StartsUp (c :: d :: cs))
    rw [hw, List.dropLast_cons_cons, resolve, resolveFrom_nil_dotDot] at hreduced
    exact absurd hreduced (by decide)

/-! ### Paths that lead above the root -/

/-- In one round no `..` is cancelled together with another one. -/
def CancelsNames : List (List Char) → Prop
  | c :: p :: d :: cs =>
    if c ≠ [] ∧ p = dotDot then c ≠ dotDot ∧ CancelsNames (d :: cs) else CancelsNames (p :: d :: cs)
  | _ => True

/-- A round that cancels no `..` as a component does not change where a path leads. -/
theorem resolveFrom_cancel {stack : List (List Char)} (h : CancelsNames cs) :
    resolveFrom stack (cancel cs).dropLast = resolveFrom stack cs.dropLast := by
  induction cs using cancel.induct generalizing stack with
  | case1 c p d cs hc ih =>
    rw [CancelsNames, if_pos hc] at h
    obtain ⟨hne, rfl⟩ := hc
    rw [cancel, if_pos ⟨hne, rfl⟩, ih h.2, List.dropLast_cons_cons, List.dropLast_cons_cons,
      resolveFrom_cons_of_ne h.1, resolveFrom_cons_dotDot]
  | case2 c p d cs hc ih =>
    rw [CancelsNames, if_neg hc] at h
    rw [cancel, if_neg hc, dropLast_cons_cancel, List.dropLast_cons_cons]
    by_cases hup : c = dotDot
    · subst hup
      rcases stack with _ | ⟨x, stack⟩
      · rw [resolveFrom_nil_dotDot, resolveFrom_nil_dotDot]
      · rw [resolveFrom_cons_dotDot, resolveFrom_cons_dotDot, ih h]
    · rw [resolveFrom_cons_of_ne hup, resolveFrom_cons_of_ne hup, ih h]
  | case3 cs hcs => rw [cancel]; exact hcs

/-- When nothing can be cancelled any more, and there is no `..` in front of other components, there
is none at all in front of the last one. -/
theorem notMem_dropLast (h : ¬HasParent cs) (hup : ¬StartsUp cs) : dotDot ∉ cs.dropLast := by
  induction cs using HasParent.induct with
  | case1 c p d cs ih =>
    obtain ⟨hp, hparent⟩ := not_or.mp h
    rw [List.dropLast_cons_cons, List.mem_cons, not_or]
    exact ⟨fun hc => hup hc.symm, ih hparent hp⟩
  | case2 cs hcs =>
    rcases cs with _ | ⟨c, _ | ⟨p, _ | ⟨d, cs⟩⟩⟩
    · exact List.not_mem_nil
    · exact List.not_mem_nil
    · exact fun hmem => hup (List.mem_singleton.mp hmem).symm
    · exact absurd rfl (hcs c p d cs)

/-- Where the loop ends although the path leads above its root, some round has cancelled a `..`
together with another one. -/
theorem staysBelow_of_settles {p : PosixPath} (h : Settles p)
    (hcancels : ∀ n, CancelsNames (cancel^[n] p.parts)) : StaysBelow p := by
  refine h.imp_right fun hup => ?_
  have hiterate (n : ℕ) :
      resolve (cancel^[n] p.parts).dropLast = resolve p.parts.dropLast := by
    induction n with
    | zero => rfl
    | succ n ih =>
      rw [Function.iterate_succ_apply', ← ih]
      exact resolveFrom_cancel (hcancels n)
  have hne (c) (hc : c ∈ p.parts) : c ≠ [] := (p.isPart c hc).1
  have hnotMem := notMem_dropLast (not_hasParent_iterate hne (Nat.le_refl _)) hup
  rw [← hiterate p.parts.length, resolve, resolveFrom_of_notMem hnotMem]
  rfl

/-! ### The loop of a link -/

variable (sourceRel path : List Char)

variable {sourceRel path} in
/-- The loop keeps the file name. -/
theorem name_of_resolvedPath (h : resolvedPath sourceRel path = some s) :
    (PosixPath.ofText s).name = (joinedPath sourceRel path).name := by
  obtain ⟨k, -, -, -, rfl⟩ := whileLoop_eq_some_iff.mp h
  generalize joinedPath sourceRel path = p
  by_cases hnil : p.parts = []
  · have htext : ∀ s ∈ [".".toList, "/".toList, "//".toList],
        parentRe.erase s = s ∧ (PosixPath.ofText s).name = [] := by decide
    obtain ⟨hfixed, hname⟩ := htext _ (text_of_parts_eq_nil hnil)
    rw [Function.iterate_fixed hfixed, hname, PosixPath.name, hnil]
    rfl
  · obtain ⟨htext, hslash⟩ := erase_iterate_joinParts k (notMem_rootParts_append p)
    obtain ⟨init, c, hc⟩ := List.eq_nil_or_concat' p.parts |>.resolve_left hnil
    have hpart : IsPart c := p.isPart c (hc ▸ List.mem_append_right _ (List.mem_singleton_self c))
    have hlast : p.parts.getLast? = some c := hc ▸ List.getLast?_concat
    have hcancel : (cancel^[k] (rootParts p.root ++ p.parts)).getLast? = some c := by
      rw [getLast?_iterate_cancel, List.getLast?_append_of_ne_nil _ hnil, hlast]
    rw [text_eq_joinParts hnil, htext, PosixPath.name, PosixPath.name, hlast]
    exact congrArg (Option.getD · []) (getLast?_partsOf_joinParts hslash hcancel hpart)

theorem isSome_resolvedPath_iff :
    (resolvedPath sourceRel path).isSome = true ↔ Settles (joinedPath sourceRel path) := by
  rw [← ends_text_iff, resolvedPath]
  exact (ends_iff_isSome List.length (fun s _ => parentRe.erase_eq_or_length_lt s)
    (Nat.le_refl _)).symm

/-- **When the loop ends.** It ends if the path is relative, or if what is in front of its last
component never leads above the root. If it ends on another path, then only because in some round
the pattern has matched a `..` as the component that goes together with the next `..`. -/
theorem pathLoop_ends :
    (StaysBelow (joinedPath sourceRel path) →
      Ends hasParent parentRe.erase (joinedPath sourceRel path).text) ∧
    (Ends hasParent parentRe.erase (joinedPath sourceRel path).text →
      StaysBelow (joinedPath sourceRel path) ∨
        ∃ n, ¬CancelsNames (cancel^[n] (joinedPath sourceRel path).parts)) := by
  refine ⟨fun h => (ends_text_iff _).mpr (settles_of_staysBelow h), fun h => ?_⟩
  rw [or_iff_not_imp_right, not_exists_not]
  exact staysBelow_of_settles ((ends_text_iff _).mp h)

/-- On `/a/../x` the loop ends. -/
theorem pathLoop_ends_absolute : Ends hasParent parentRe.erase "/a/../x".toList := by
  have htext : (joinedPath "docs/clion.md".toList "/a/../x".toList).text = "/a/../x".toList := by
    decide
  rw [← htext]
  exact (pathLoop_ends "docs/clion.md".toList "/a/../x".toList).1 (by decide)

/-- On `/../x` the test holds, and there is nothing to erase. -/
theorem not_pathLoop_ends_parentOfRoot : ¬ ∀ sourceRel path : List Char,
    Ends hasParent parentRe.erase (joinedPath sourceRel path).text := by
  intro h
  have htext : (joinedPath "docs/clion.md".toList "/../x".toList).text = "/../x".toList := by
    decide
  have hends := h "docs/clion.md".toList "/../x".toList
  rw [htext] at hends
  exact not_ends_of_eq (by decide) (by decide) hends

end SystemsStack.Wiki
