import SystemsStack.Core.EditScript
import SystemsStack.Wiki.PageLookup

/-!
# Code samples

The rewriter looks for links in the whole text of a page, so that a pair of brackets with
parentheses behind it is a link also in a code sample. This file writes the rewriting of a text as
an edit script: outside links every character is kept, and of a link that is rewritten the script
replaces the opening parenthesis with the path, or with what climbs at its start, and drops the
query. The lines in fenced code blocks are copied if and only if no link has such a stretch in one
of them (`SystemsStack.Wiki.rewriteLinks_codeFences`). What is copied stands in the result
(`SystemsStack.Wiki.KeepsCode.exists_result`).

## Main definitions

* `SystemsStack.Wiki.Link.edits`, `SystemsStack.Wiki.edits`: the edit script.
* `SystemsStack.Wiki.Link.Changes`: the characters of a link that are replaced.
* `SystemsStack.Wiki.lines`, `SystemsStack.Wiki.IsFenced`, `SystemsStack.Wiki.InFence`: fenced code.
* `SystemsStack.Wiki.KeepsCode`: code samples are copied.

## Main results

* `SystemsStack.Wiki.rewriteLinks_eq`: the target of the script is what the rewriter returns.
* `SystemsStack.Wiki.rewriteLinks_codeFences`.

## References

* `scripts/publish_wiki.py`, lines 97–140; `docs/libraries/tbb.md`, lines 57–82.
-/

namespace SystemsStack.Wiki

open Core

/-! ### The edit script of a link -/

namespace Link

variable (l : Link)

/-- What is stripped from the path. -/
def climbed : List Char := l.path.take (l.path.length - l.clean.length)

/-- The label with its brackets. -/
def bracketed : List Char := '[' :: l.label ++ [']']

/-- The anchor, and the parenthesis behind it. -/
def ending : List Char := l.anchor ++ [')']

/-- The query goes, if there is one. -/
def dropQuery : Script Char :=
  if h : l.query = [] then [] else [.replace l.query [] h]

/-- How a link is rewritten: behind its opening parenthesis. -/
def edits : Script Char :=
  match l.outcome with
  | .same => l.text.map .keep
  | .page wiki =>
    l.bracketed.map .keep ++
      [.replace ('(' :: l.path ++ l.query) ('(' :: wiki) (List.cons_ne_nil _ _)] ++
      l.ending.map .keep
  | .blob =>
    l.bracketed.map .keep ++
      [.replace ('(' :: l.climbed) ('(' :: blobUrl) (List.cons_ne_nil _ _)] ++
      l.clean.map .keep ++ l.dropQuery ++ l.ending.map .keep

/-- The character with this number is replaced: from the opening parenthesis to the end of the query
when the link is sent to a page, and else the start of the path and the query. -/
def Changes (i : ℕ) : Prop :=
  match l.outcome with
  | .same => False
  | .page _ =>
    l.label.length + 2 ≤ i ∧ i < l.label.length + 3 + l.path.length + l.query.length
  | .blob =>
    l.label.length + 2 ≤ i ∧ i < l.label.length + 3 + l.climbed.length ∨
      l.label.length + 3 + l.path.length ≤ i ∧
        i < l.label.length + 3 + l.path.length + l.query.length

theorem climbed_append_clean : l.climbed ++ l.clean = l.path := by
  obtain ⟨k, hk⟩ := exists_climb l.path
  rw [← clean] at hk
  have hclimbed : l.climbed = climb k := by
    rw [climbed, hk, List.length_append, Nat.add_sub_cancel, List.take_left]
  rw [hclimbed, ← hk]

theorem text_eq : l.text = l.bracketed ++ '(' :: (l.path ++ l.query) ++ l.ending := by
  rw [text, linkText, bracketed, ending, ← l.url_eq]
  simp

theorem source_dropQuery : Script.source l.dropQuery = l.query := by
  rw [dropQuery]
  split_ifs with h
  · exact h.symm
  · exact List.append_nil _

theorem target_dropQuery : Script.target l.dropQuery = [] := by
  rw [dropQuery]
  split_ifs <;> rfl

theorem replaced_dropQuery : Script.replaced l.dropQuery = List.replicate l.query.length true := by
  rw [dropQuery]
  split_ifs with h
  · rw [h]
    rfl
  · exact List.append_nil _

theorem source_edits : Script.source l.edits = l.text := by
  rw [edits]
  cases houtcome : l.outcome with
  | same => exact Script.source_keep _
  | page wiki =>
    rw [Script.source_append, Script.source_append, Script.source_keep, Script.source_keep, text_eq]
    simp [Script.source, Edit.source]
  | blob =>
    simp only [Script.source_append, Script.source_keep, source_dropQuery]
    rw [text_eq, ← l.climbed_append_clean]
    simp [Script.source, Edit.source]

theorem target_edits : Script.target l.edits = l.replacement := by
  rw [edits, replacement]
  cases houtcome : l.outcome with
  | same => exact Script.target_keep _
  | page wiki =>
    rw [Script.target_append, Script.target_append, Script.target_keep, Script.target_keep]
    simp [Script.target, Edit.target, linkText, bracketed, ending]
  | blob =>
    simp only [Script.target_append, Script.target_keep, target_dropQuery]
    simp [Script.target, Edit.target, linkText, bracketed, ending]

theorem length_bracketed : l.bracketed.length = l.label.length + 2 := by
  simp [bracketed]

theorem length_path : l.climbed.length + l.clean.length = l.path.length := by
  rw [← List.length_append, climbed_append_clean]

/-- The script of a link replaces the characters that the link changes. -/
theorem replaced_edits_iff (i : ℕ) :
    (Script.replaced l.edits)[i]? = some true ↔ l.Changes i := by
  rw [edits, Changes]
  cases houtcome : l.outcome with
  | same => simp [List.getElem?_replicate]
  | page wiki =>
    simp only [Script.replaced_append, Script.replaced_keep, Script.replaced_replace,
      List.getElem?_append, List.getElem?_replicate, List.length_append, List.length_replicate,
      List.length_cons, length_bracketed]
    split_ifs <;> simp <;> omega
  | blob =>
    simp only [Script.replaced_append, Script.replaced_keep, Script.replaced_replace,
      replaced_dropQuery, List.getElem?_append, List.getElem?_replicate, List.length_append,
      List.length_replicate, List.length_cons, length_bracketed, ← l.length_path]
    split_ifs <;> simp <;> omega

theorem lt_of_changes {i : ℕ} (h : l.Changes i) : i < l.text.length := by
  obtain ⟨hlt, -⟩ := List.getElem?_eq_some_iff.mp ((l.replaced_edits_iff i).mpr h)
  rwa [Script.length_replaced, source_edits] at hlt

end Link

/-! ### The edit script of a text -/

/-- How a part of a text is rewritten. -/
def partEdits : Char ⊕ Link → Script Char := Sum.elim (fun c => [.keep c]) Link.edits

/-- How a text is rewritten. -/
def edits (text : List Char) : Script Char := (linkRe.split text).flatMap partEdits

/-- The links among some parts, with the positions where they start. -/
def linksFrom : ℕ → List (Char ⊕ Link) → List (ℕ × Link)
  | _, [] => []
  | k, .inl _ :: ps => linksFrom (k + 1) ps
  | k, .inr l :: ps => (k, l) :: linksFrom (k + l.text.length) ps

/-- The links of a text. -/
def linksOf (text : List Char) : List (ℕ × Link) := linksFrom 0 (linkRe.split text)

variable {page : String × String} {text : List Char} {ps : List (Char ⊕ Link)} {k j : ℕ} {l : Link}

theorem source_parts (ps : List (Char ⊕ Link)) :
    Script.source (ps.flatMap partEdits) = ps.flatMap linkRe.part := by
  induction ps with
  | nil => rfl
  | cons p ps ih =>
    rw [List.flatMap_cons, List.flatMap_cons, Script.source_append, ih]
    cases p with
    | inl c => rfl
    | inr l => exact congrArg (· ++ _) l.source_edits

theorem target_parts (ps : List (Char ⊕ Link)) :
    Script.target (ps.flatMap partEdits) =
      ps.flatMap (Sum.elim (fun c => [c]) Link.replacement) := by
  induction ps with
  | nil => rfl
  | cons p ps ih =>
    rw [List.flatMap_cons, List.flatMap_cons, Script.target_append, ih]
    cases p with
    | inl c => rfl
    | inr l => exact congrArg (· ++ _) l.target_edits

theorem flatMap_kept (s : List Char) (f : Link → List Char) :
    (s.map Sum.inl).flatMap (Sum.elim (fun c => [c]) f) = s := by
  induction s with
  | nil => rfl
  | cons c s ih => exact congrArg (c :: ·) ih

@[simp] theorem source_edits (text : List Char) : Script.source (edits text) = text :=
  (source_parts _).trans (linkRe.split_source text)

theorem mem_linksFrom : .inr l ∈ ps ↔ ∃ i, (i, l) ∈ linksFrom k ps := by
  induction ps generalizing k with
  | nil => simp [linksFrom]
  | cons p ps ih =>
    cases p with
    | inl c => simpa [linksFrom] using ih
    | inr l' =>
      simp only [linksFrom, List.mem_cons, Sum.inr.injEq, Prod.mk.injEq, exists_or,
        exists_eq_left]
      exact or_congr (by simp) ih

theorem le_of_mem_linksFrom {p : ℕ × Link} (h : p ∈ linksFrom k ps) : k ≤ p.1 := by
  induction ps generalizing k with
  | nil => exact absurd h List.not_mem_nil
  | cons q ps ih =>
    cases q with
    | inl c => exact Nat.le_of_succ_le (ih h)
    | inr l' =>
      rcases List.mem_cons.mp h with rfl | h
      · exact Nat.le_refl k
      · exact Nat.le_trans (Nat.le_add_right k _) (ih h)

/-- The characters that are replaced are those that some link changes. -/
theorem replaced_parts_iff : (Script.replaced (ps.flatMap partEdits))[j]? = some true ↔
    ∃ p ∈ linksFrom k ps, ∃ i, p.2.Changes i ∧ k + j = p.1 + i := by
  induction ps generalizing k j with
  | nil => simp [linksFrom, Script.replaced]
  | cons q ps ih =>
    rw [List.flatMap_cons, Script.replaced_append]
    cases q with
    | inl c =>
      cases j with
      | zero =>
        refine iff_of_false (fun h => Bool.false_ne_true (Option.some.inj h)) ?_
        rintro ⟨p, hp, i, -, hj⟩
        have : k + 1 ≤ p.1 := le_of_mem_linksFrom hp
        omega
      | succ j =>
        have hj : k + (j + 1) = k + 1 + j := by omega
        rw [hj]
        exact ih
    | inr l' =>
      have hlen : (Script.replaced (partEdits (.inr l'))).length = l'.text.length :=
        (Script.length_replaced _).trans (congrArg List.length l'.source_edits)
      rcases Nat.lt_or_ge j l'.text.length with hlt | hge
      · rw [List.getElem?_append_left (hlen ▸ hlt)]
        refine (l'.replaced_edits_iff j).trans ⟨fun h => ⟨_, List.mem_cons_self, j, h, rfl⟩, ?_⟩
        rintro ⟨p, hp, i, hi, hj⟩
        rcases List.mem_cons.mp hp with rfl | hp
        · exact Nat.add_left_cancel hj ▸ hi
        · have := le_of_mem_linksFrom hp
          omega
      · rw [List.getElem?_append_right (hlen ▸ hge), hlen]
        refine (ih (k := k + l'.text.length)).trans ⟨?_, ?_⟩
        · rintro ⟨p, hp, i, hi, hj⟩
          exact ⟨p, List.mem_cons_of_mem _ hp, i, hi, by omega⟩
        · rintro ⟨p, hp, i, hi, hj⟩
          rcases List.mem_cons.mp hp with rfl | hp
          · have := l'.lt_of_changes hi
            omega
          · exact ⟨p, hp, i, hi, by omega⟩

theorem replaced_edits_iff : (Script.replaced (edits text))[j]? = some true ↔
    ∃ p ∈ linksOf text, ∃ i, p.2.Changes i ∧ j = p.1 + i := by
  rw [edits, replaced_parts_iff (k := 0), Nat.zero_add, linksOf]

/-- The rewriter returns if the loop ends for each link, and then returns the target of the edit
script. -/
theorem rewriteLinks_eq (hpage : page ∈ pages) :
    rewriteLinks text page.1.toList buildPathMap = some (Script.target (edits text)) ↔
      ∀ p ∈ linksOf text, p.2.Returns page.1.toList := by
  rw [rewriteLinks, Pattern.subM, edits, target_parts]
  constructor
  · rintro h ⟨i, l⟩ hl
    obtain ⟨t, ht⟩ := Pattern.exists_of_render h (mem_linksFrom.mpr ⟨i, hl⟩)
    rw [repl_eq hpage] at ht
    by_contra hnot
    rw [if_neg hnot] at ht
    exact absurd ht (Option.some_ne_none t).symm
  · intro h
    refine Pattern.render_of_forall fun l hl => ?_
    obtain ⟨i, hi⟩ := mem_linksFrom.mp hl
    rw [repl_eq hpage, if_pos (h (i, l) hi)]

/-! ### Fenced code -/

/-- The lines of a text, with their line ends. -/
def lines : List Char → List (List Char)
  | [] => []
  | c :: s =>
    if c = '\n' then
      ['\n'] :: lines s
    else
      match lines s with
      | [] => [[c]]
      | line :: rest => (c :: line) :: rest

/-- The line starts with three backticks. -/
def IsFence (line : List Char) : Prop := "```".toList <+: line

instance : DecidablePred IsFence := fun _ => inferInstanceAs (Decidable (_ <+: _))

/-- The line is in a fenced code block: the last fence before it opens a block, and there is one
behind it. -/
def IsFenced (before : List (List Char)) (line : List Char) (after : List (List Char)) : Prop :=
  ¬IsFence line ∧ before.countP (IsFence ·) % 2 = 1 ∧ ∃ fence ∈ after, IsFence fence

instance (before : List (List Char)) (line : List Char) (after : List (List Char)) :
    Decidable (IsFenced before line after) :=
  inferInstanceAs (Decidable (_ ∧ _ ∧ _))

/-- The character with this number is in a fenced code block. -/
def InFence (text : List Char) (i : ℕ) : Prop :=
  ∃ before line after, lines text = before ++ line :: after ∧ IsFenced before line after ∧
    before.flatten.length ≤ i ∧ i < before.flatten.length + line.length

theorem flatten_lines (text : List Char) : (lines text).flatten = text := by
  induction text with
  | nil => rfl
  | cons c s ih =>
    rw [lines]
    split_ifs with hc
    · rw [List.flatten_cons, ih, hc]
      rfl
    · rcases hlines : lines s with _ | ⟨line, rest⟩
      · rw [hlines] at ih
        exact congrArg (c :: ·) ih
      · rw [hlines] at ih
        exact congrArg (c :: ·) ih

theorem ne_nil_of_mem_lines {line : List Char} (h : line ∈ lines text) : line ≠ [] := by
  induction text generalizing line with
  | nil => exact absurd h List.not_mem_nil
  | cons c s ih =>
    rw [lines] at h
    split_ifs at h with hc
    · rcases List.mem_cons.mp h with rfl | h
      · exact List.cons_ne_nil _ _
      · exact ih h
    · rcases hlines : lines s with _ | ⟨line', rest⟩
      · rw [hlines] at h
        exact List.mem_singleton.mp h ▸ List.cons_ne_nil _ _
      · rw [hlines] at h ih
        rcases List.mem_cons.mp h with rfl | h
        · exact List.cons_ne_nil _ _
        · exact ih (List.mem_cons_of_mem _ h)

/-- Code samples are copied: the rewriter returns what the edit script gives, which copies all lines
in fenced code blocks and all characters outside links. -/
structure KeepsCode (sourceRel text : List Char) : Prop where
  returns : rewriteLinks text sourceRel buildPathMap = some (Script.target (edits text))
  fenced : ∀ before line after, lines text = before ++ line :: after →
    IsFenced before line after →
      Script.Copied (edits text) before.flatten line after.flatten
  outside : ∀ before c after, linkRe.split text = before ++ .inl c :: after →
    Script.Copied (edits text) (before.flatMap linkRe.part) [c] (after.flatMap linkRe.part)

theorem copied_of_split {before after : List (Char ⊕ Link)} {c : Char}
    (h : linkRe.split text = before ++ .inl c :: after) :
    Script.Copied (edits text) (before.flatMap linkRe.part) [c] (after.flatMap linkRe.part) := by
  refine ⟨before.flatMap partEdits, after.flatMap partEdits, ?_, source_parts before,
    source_parts after⟩
  rw [edits, h, List.flatMap_append, List.flatMap_cons, List.append_assoc]
  rfl

/-- A line is copied if and only if no link changes a character of it. -/
theorem copied_line_iff {before after : List (List Char)} {line : List Char}
    (h : lines text = before ++ line :: after) :
    Script.Copied (edits text) before.flatten line after.flatten ↔
      ∀ p ∈ linksOf text, ∀ i, p.2.Changes i →
        ¬(before.flatten.length ≤ p.1 + i ∧ p.1 + i < before.flatten.length + line.length) := by
  have hsource : Script.source (edits text) = before.flatten ++ line ++ after.flatten := by
    rw [source_edits, ← flatten_lines text, h]
    simp
  have hne : line ≠ [] := ne_nil_of_mem_lines (h ▸ List.mem_append_right _ List.mem_cons_self)
  rw [Script.copied_iff hsource hne]
  constructor
  · rintro hcopied p hp i hi ⟨hle, hlt⟩
    refine hcopied (p.1 + i - before.flatten.length) (by omega) (replaced_edits_iff.mpr ?_)
    exact ⟨p, hp, i, hi, by omega⟩
  · intro hnot i hi hreplaced
    obtain ⟨p, hp, i', hi', hj⟩ := replaced_edits_iff.mp hreplaced
    exact hnot p hp i' hi' (by omega)

/-- A line in a fenced code block stands in what the rewriter returns. -/
theorem KeepsCode.exists_result {sourceRel : List Char} (h : KeepsCode sourceRel text)
    {before after : List (List Char)} {line : List Char}
    (hlines : lines text = before ++ line :: after) (hfenced : IsFenced before line after) :
    ∃ before' after' : List Char,
      rewriteLinks text sourceRel buildPathMap = some (before' ++ line ++ after') := by
  obtain ⟨before', after', htarget⟩ := (h.fenced before line after hlines hfenced).target_eq
  exact ⟨before', after', h.returns.trans (congrArg some htarget)⟩

theorem KeepsCode.not_inFence {sourceRel : List Char} (h : KeepsCode sourceRel text) {p : ℕ × Link}
    (hp : p ∈ linksOf text) {i : ℕ} (hi : p.2.Changes i) : ¬InFence text (p.1 + i) := by
  rintro ⟨before, line, after, hlines, hfenced, hrange⟩
  exact (copied_line_iff hlines).mp (h.fenced before line after hlines hfenced) p hp i hi hrange

/-- **When code samples are copied.** The rewriter returns, copies every line in a fenced code block
and every character outside links, if and only if for every link the loop ends and none of the
characters that the link changes is in a fenced code block. -/
theorem rewriteLinks_codeFences (hpage : page ∈ pages) : KeepsCode page.1.toList text ↔
    ∀ p ∈ linksOf text, p.2.Returns page.1.toList ∧
      ∀ i, p.2.Changes i → ¬InFence text (p.1 + i) := by
  constructor
  · intro h p hp
    exact ⟨(rewriteLinks_eq hpage).mp h.returns p hp, fun i => h.not_inFence hp⟩
  · intro h
    refine ⟨(rewriteLinks_eq hpage).mpr fun p hp => (h p hp).1, ?_, fun _ _ _ => copied_of_split⟩
    intro before line after hlines hfenced
    rw [copied_line_iff hlines]
    intro p hp i hi hrange
    exact (h p hp).2 i hi ⟨before, line, after, hlines, hfenced, hrange⟩

/-- A link to a page stands before a code sample that refers to the page itself. -/
theorem rewriteLinks_codeFences_audit : KeepsCode "docs/blueprint/README.md".toList
    "[audit](AUDIT.md)\n```\n[top](#top)\n```\n".toList := by
  have hpage : ("docs/blueprint/README.md", "Blueprint-Overview") ∈ pages := List.mem_cons_self
  have hmem : ("docs/blueprint/AUDIT.md", "Blueprint-Audit") ∈ pages :=
    List.mem_of_getElem? (i := 2) rfl
  obtain ⟨audit, haudit⟩ : ∃ l : Link, l =
      ⟨"audit".toList, "AUDIT.md".toList, by decide, by decide, by decide, by decide⟩ := ⟨_, rfl⟩
  obtain ⟨top, htop⟩ : ∃ l : Link, l =
      ⟨"top".toList, "#top".toList, by decide, by decide, by decide, by decide⟩ := ⟨_, rfl⟩
  have hpath : audit.path = "AUDIT.md".toList := by
    rw [haudit]
    decide
  have hfound : lookupPage buildPathMap audit.path = some "Blueprint-Audit".toList := by
    rw [hpath]
    exact lookupPage_of_page hmem (by decide) (by decide)
  have hexempt : ¬audit.Exempt := by
    rw [haudit]
    decide
  have htopExempt : top.Exempt := by
    rw [htop]
    decide
  generalize htext : "[audit](AUDIT.md)\n```\n[top](#top)\n```\n".toList = text
  have hlinks : linksOf text = [(0, audit), (22, top)] := by
    rw [← htext, haudit, htop]
    decide +kernel
  have hfirst : (lines text).head?.map List.length = some 18 := by
    rw [← htext]
    decide +kernel
  refine (rewriteLinks_codeFences hpage).mpr fun p hp => ?_
  rw [hlinks] at hp
  rcases List.mem_cons.mp hp with rfl | hp
  · refine ⟨.inr (.inl (by rw [hfound]; rfl)), fun i hi => ?_⟩
    rw [Link.Changes, Link.outcome, if_neg hexempt, hfound] at hi
    have hlt : i < 16 := by
      have := hi.2
      rw [hpath, haudit] at this
      exact this
    rintro ⟨_ | ⟨first, before⟩, line, after, hlines, ⟨-, hodd, -⟩, hle, -⟩
    · exact absurd hodd (by decide)
    · rw [hlines] at hfirst
      have hlen : first.length = 18 := Option.some.inj hfirst
      rw [List.flatten_cons, List.length_append] at hle
      omega
  · obtain rfl := List.mem_singleton.mp hp
    refine ⟨.inl htopExempt, fun i hi => ?_⟩
    rw [Link.Changes, Link.outcome, if_pos htopExempt] at hi
    exact hi.elim

/-- In a code sample with the lambda `[&](size_t i) {}`, the list of its parameters is rewritten. -/
theorem not_keepsCode_lambda :
    rewriteLinks "```cpp\n[&](size_t i) {}\n```\n".toList "docs/blueprint/README.md".toList
        buildPathMap =
      some ("```cpp\n[&](".toList ++ blobUrl ++ "size_t i) {}\n```\n".toList) ∧
    ¬KeepsCode "docs/blueprint/README.md".toList "```cpp\n[&](size_t i) {}\n```\n".toList := by
  have hpage : ("docs/blueprint/README.md", "Blueprint-Overview") ∈ pages := List.mem_cons_self
  obtain ⟨l, hl⟩ : ∃ l : Link, l =
      ⟨"&".toList, "size_t i".toList, by decide, by decide, by decide, by decide⟩ := ⟨_, rfl⟩
  have hpath : l.path = "size_t i".toList := by
    rw [hl]
    decide
  have hnot : lookupPage buildPathMap l.path = none := by
    rw [hpath]
    refine lookupPage_of_notPage fun page hpage hname => ?_
    have hmd := (pages_files.1 page hpage).1
    rw [hname] at hmd
    exact absurd hmd (by decide)
  have houtcome : l.outcome = .blob := by
    have hexempt : ¬l.Exempt := by
      rw [hl]
      decide
    rw [Link.outcome, if_neg hexempt, hnot, Link.clean, hpath]
    exact if_pos (by decide)
  generalize htext : "```cpp\n[&](size_t i) {}\n```\n".toList = text
  have hsplit : linkRe.split text =
      "```cpp\n".toList.map .inl ++ .inr l :: " {}\n```\n".toList.map .inl := by
    rw [← htext, hl]
    decide +kernel
  have hlinks : linksOf text = [(7, l)] := by
    rw [← htext, hl]
    decide +kernel
  constructor
  · have hreturns : ∀ p ∈ linksOf text, p.2.Returns "docs/blueprint/README.md".toList := by
      rw [hlinks]
      refine List.forall_mem_singleton.mpr (.inr (.inr (.inl ?_)))
      rw [hpath]
      decide
    have hreplacement : l.replacement = "[&](".toList ++ blobUrl ++ "size_t i)".toList := by
      rw [Link.replacement, houtcome, hl]
      decide
    rw [(rewriteLinks_eq hpage).mpr hreturns, edits, target_parts, hsplit]
    simp only [List.flatMap_append, List.flatMap_cons, flatMap_kept, Sum.elim_inr, hreplacement]
    decide +kernel
  · intro hkeeps
    have hmem : (7, l) ∈ linksOf text := hlinks ▸ List.mem_singleton_self _
    have hchanges : l.Changes 3 := by
      rw [Link.Changes, houtcome, hl]
      exact .inl (by decide)
    have hlines : lines text =
        ["```cpp\n".toList] ++ "[&](size_t i) {}\n".toList :: ["```\n".toList] := by
      rw [← htext]
      decide +kernel
    have hrange : ["```cpp\n".toList].flatten.length ≤ 7 + 3 ∧
        7 + 3 < ["```cpp\n".toList].flatten.length + "[&](size_t i) {}\n".toList.length := by
      decide +kernel
    exact hkeeps.not_inFence hmem hchanges ⟨_, _, _, hlines, by decide +kernel, hrange⟩

end SystemsStack.Wiki
