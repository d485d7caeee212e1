import SystemsStack.Wiki.PageLookup
import Mathlib.Data.List.Nodup

/-!
# Where links point to

A relative link of a page should keep its target: it points to a page of the wiki when the file is
the source of one, to `Home` when it is the `README.md` of the repository, and else to the file on
the web. The publisher finds pages by the file name alone, prefers one of the pages named
`README.md`, and keeps of a path that is not found what is left without its leading `../`. This file
says for which links that gives the target (`SystemsStack.Wiki.rewriteLinks_target`).

## Main definitions

* `SystemsStack.Wiki.targetOf`: the target of a link to a file of the repository.
* `SystemsStack.Wiki.TargetKept`: the paths that are rewritten to their targets.

## Main results

* `SystemsStack.Wiki.replacement_eq_iff`, `SystemsStack.Wiki.rewriteLinks_target`.

## References

* `scripts/publish_wiki.py`, lines 27–140; `docs/blueprint/README.md`, lines 49–50.
-/

namespace SystemsStack.Wiki

open Core

/-! ### Targets -/

/-- The directory of a page. -/
def directory (sourceRel : List Char) : List (List Char) :=
  (PosixPath.ofText sourceRel).parent.parts

/-- A link to a path that has no root of its own. -/
def Link.IsRelative (l : Link) : Prop :=
  ¬l.Exempt ∧ l.path ≠ [] ∧ (PosixPath.ofText l.path).root = .relative

instance : DecidablePred Link.IsRelative :=
  fun l => inferInstanceAs (Decidable (¬l.Exempt ∧ l.path ≠ [] ∧ _))

/-- Where a link to the file or directory with these components should point to. -/
def targetOf (cs : List (List Char)) : List Char :=
  match pages.find? fun page => page.1.toList = joinParts cs with
  | some page => page.2.toList
  | none => if joinParts cs = readme then "Home".toList else blobUrl ++ joinParts cs

/-- The paths to some `README.md` that are rewritten to their targets. -/
def ReadmeKept (path : List Char) (cs : List (List Char)) : Prop :=
  path ∈ ["blueprint/README.md".toList, "../blueprint/README.md".toList] ∧
      joinParts cs = "docs/blueprint/README.md".toList ∨
    path ∈ homeReadmes ∧ joinParts cs = readme ∨
    joinParts cs = "cmake/toolchains/README.md".toList

/-- The paths that are rewritten to their targets: with the file name of one page, those to this
page; with the file name `README.md`, some; and all others only if they climb to the root of the
repository and name the file from there, in normal form. -/
def TargetKept (sourceRel path : List Char) (cs : List (List Char)) : Prop :=
  if fileName path = readme then
    ReadmeKept path cs
  else if ∃ page ∈ pages, fileName page.1.toList = fileName path then
    ∃ page ∈ pages, page.1.toList = joinParts cs
  else
    path = climb (directory sourceRel).length ++ joinParts cs ∧ cs ≠ [] ∧
      ¬"http".toList <+: joinParts cs

instance (path : List Char) (cs : List (List Char)) : Decidable (ReadmeKept path cs) :=
  inferInstanceAs (Decidable (_ ∧ _ ∨ _ ∧ _ ∨ _))

/-- The directories of the pages. -/
def pageDirectories : List (List (List Char)) :=
  [["docs".toList, "blueprint".toList], ["docs".toList, "tutorials".toList],
    ["docs".toList, "libraries".toList], ["docs".toList], ["cmake".toList, "toolchains".toList]]

/-- The names of the pages begin with capital letters, and the sources of the pages are relative
paths to a few directories. -/
theorem pages_targets :
    (pages.map fun page => page.1.toList).Nodup ∧ (pages.map fun page => page.2.toList).Nodup ∧
    ∀ page ∈ pages, page.2.toList ≠ "Home".toList ∧
      page.2.toList.head?.any Char.isUpper = true ∧ directory page.1.toList ∈ pageDirectories ∧
        (PosixPath.ofText page.1.toList).root = .relative := by
  decide +kernel

/-- These directories are written in normal form, and are at most two below the root. -/
theorem pageDirectories_normal :
    ∀ dir ∈ pageDirectories, dotDot ∉ dir ∧ dir.length ≤ 2 := by
  decide

/-- From the directory of a page, what is found for a path to some `README.md` that has an entry of
its own is its target if and only if the path is one of those kept. -/
theorem pageDirectories_readmes :
    ∀ dir ∈ pageDirectories, ∀ path ∈ librariesReadme :: (blueprintReadmes ++ homeReadmes),
      ∀ cs ∈ resolve (dir ++ partsOf path),
        (readmePage path = targetOf cs ↔ ReadmeKept path cs) := by
  decide +kernel

variable {page : String × String} {path s : List Char} {cs : List (List Char)} {k : ℕ}

theorem head?_blobUrl_append (s : List Char) :
    (blobUrl ++ s).head?.any Char.isUpper = false := rfl

/-- The target is a page exactly if the file is its source. -/
theorem targetOf_eq_title_iff (hpage : page ∈ pages) :
    targetOf cs = page.2.toList ↔ joinParts cs = page.1.toList := by
  obtain ⟨hsources, htitles, hnames⟩ := pages_targets
  rcases hfind : pages.find? fun page => page.1.toList = joinParts cs with _ | page'
  · have hnone := List.find?_eq_none.mp hfind
    rw [targetOf, hfind]
    refine iff_of_false ?_ fun h => hnone page hpage (decide_eq_true h.symm)
    obtain ⟨hhome, hupper, -⟩ := hnames page hpage
    dsimp only
    split_ifs with hreadme
    · exact hhome.symm
    · intro htitle
      rw [← htitle, head?_blobUrl_append] at hupper
      exact absurd hupper (by decide)
  · have hpage' := List.mem_of_find?_eq_some hfind
    have hsome := List.find?_some hfind
    have hsource : page'.1.toList = joinParts cs := of_decide_eq_true hsome
    rw [targetOf, hfind]
    constructor
    · intro htitle
      rw [← hsource, List.inj_on_of_nodup_map htitles hpage' hpage htitle]
    · intro h
      rw [List.inj_on_of_nodup_map hsources hpage' hpage (hsource.trans h)]

/-- The target of a file that is not the source of a page, and not the `README.md` of the
repository. -/
theorem targetOf_eq_blobUrl (hpages : ∀ page ∈ pages, page.1.toList ≠ joinParts cs)
    (hreadme : joinParts cs ≠ readme) : targetOf cs = blobUrl ++ joinParts cs := by
  have hfind : (pages.find? fun page => page.1.toList = joinParts cs) = none :=
    List.find?_eq_none.mpr fun page hpage h => hpages page hpage (of_decide_eq_true h)
  rw [targetOf, hfind]
  exact if_neg hreadme

/-- A target is a file on the web, or begins with a capital letter. -/
theorem targetOf_cases (cs : List (List Char)) : targetOf cs = blobUrl ++ joinParts cs ∨
    (targetOf cs).head?.any Char.isUpper = true := by
  rcases hfind : pages.find? fun page => page.1.toList = joinParts cs with _ | page
  · rw [targetOf, hfind]
    dsimp only
    split_ifs
    · exact .inr (by decide)
    · exact .inl rfl
  · rw [targetOf, hfind]
    exact .inr (pages_targets.2.2 page (List.mem_of_find?_eq_some hfind)).2.1

/-! ### Paths from the root -/

theorem partsOf_climb (k : ℕ) (s : List Char) :
    partsOf (climb k ++ s) = List.replicate k dotDot ++ partsOf s := by
  induction k with
  | zero => rfl
  | succ k ih =>
    rw [climb_succ_append, partsOf_append_slash, partsOf_of_isPart (by decide), ih]
    rfl

theorem stripParents_joinParts (hparts : ∀ c ∈ cs, IsPart c) (hup : dotDot ∉ cs) :
    stripParents (joinParts cs) = joinParts cs := by
  rcases cs with _ | ⟨c, cs⟩
  · rfl
  · refine stripParents_of_not_prefix ?_
    rw [dotDot_prefix_joinParts (hparts c List.mem_cons_self).2.2]
    rintro ⟨rfl, -⟩
    exact hup List.mem_cons_self

/-- A path that names a file from the root of the repository, behind any number of `../`, resolves
to this file only if it climbs from the directory of the page to the root. -/
theorem climb_of_resolve {dir : List (List Char)} (hdir : dotDot ∉ dir)
    (hparts : ∀ c ∈ cs, IsPart c) (hup : dotDot ∉ cs)
    (h : resolve (dir ++ partsOf (climb k ++ joinParts cs)) = some cs) : k = dir.length := by
  rw [partsOf_climb, partsOf_joinParts hparts, resolve, resolveFrom_append_of_notMem hdir,
    resolveFrom_replicate] at h
  split_ifs at h with hk
  rw [resolveFrom_of_notMem hup] at h
  have hnil := List.append_left_eq_self.mp (Option.some.inj h)
  rw [List.reverse_eq_nil_iff, List.drop_eq_nil_iff] at hnil
  simp only [List.append_nil, List.length_reverse] at hnil hk
  omega

theorem isPart_of_resolve {dir : List (List Char)} (hdir : ∀ c ∈ dir, IsPart c)
    (h : resolve (dir ++ partsOf path) = some cs) : (∀ c ∈ cs, IsPart c) ∧ dotDot ∉ cs := by
  have hmem (c) (hc : c ∈ cs) : c ∈ dir ++ partsOf path ∧ c ≠ dotDot :=
    (mem_of_resolveFrom h hc).resolve_left List.not_mem_nil
  refine ⟨fun c hc => ?_, fun hup => (hmem dotDot hup).2 rfl⟩
  rcases List.mem_append.mp (hmem c hc).1 with hc | hc
  · exact hdir c hc
  · exact isPart_of_mem_partsOf hc

/-- Resolving keeps the file name. -/
theorem fileName_of_resolve {dir : List (List Char)} (hdir : ∀ c ∈ dir, IsPart c)
    (h : resolve (dir ++ partsOf path) = some cs) (hne : fileName path ≠ [])
    (hup : fileName path ≠ dotDot) : fileName (joinParts cs) = fileName path := by
  rcases hlast : (partsOf path).getLast? with _ | c
  · exact absurd (congrArg (Option.getD · []) hlast) hne
  have hname : fileName path = c := congrArg (Option.getD · []) hlast
  obtain ⟨init, hinit⟩ := List.getLast?_eq_some_iff.mp hlast
  have hparts := partsOf_joinParts (isPart_of_resolve hdir h).1
  rw [hinit, ← List.append_assoc] at h
  have hcs := getLast?_of_resolveFrom h (hname ▸ hup)
  rw [hname]
  exact (congrArg (fun ds => ds.getLast?.getD []) hparts).trans (congrArg (Option.getD · []) hcs)

/-! ### Links -/

theorem linkText_inj {label url url' : List Char} :
    linkText label url = linkText label url' ↔ url = url' := by
  simp [linkText]

theorem isPart_directory (sourceRel : List Char) : ∀ c ∈ directory sourceRel, IsPart c :=
  (PosixPath.ofText sourceRel).parent.isPart

theorem fileName_page (hpage : page ∈ pages) :
    fileName page.1.toList ≠ [] ∧ fileName page.1.toList ≠ dotDot := by
  have hmd := (pages_files.1 page hpage).1
  constructor
  · intro hnil
    rw [hnil] at hmd
    exact absurd hmd (by decide)
  · intro hup
    rw [hup] at hmd
    exact absurd hmd (by decide)

/-- The directory of a page is written in normal form, and is at most two below the root. -/
theorem directory_page (hpage : page ∈ pages) :
    dotDot ∉ directory page.1.toList ∧ (directory page.1.toList).length ≤ 2 :=
  pageDirectories_normal _ (pages_targets.2.2 page hpage).2.2.1

section

variable (hpage : page ∈ pages) (hcs : resolve (directory page.1.toList ++ partsOf path) = some cs)

include hcs

/-- A path with the file name of one page is found to be its target if and only if the target is a
page. -/
theorem title_eq_targetOf_iff {page' : String × String} (hpage' : page' ∈ pages)
    (hname : fileName page'.1.toList = fileName path) (hne : fileName path ≠ readme) :
    page'.2.toList = targetOf cs ↔ ∃ page ∈ pages, page.1.toList = joinParts cs := by
  rw [eq_comm, targetOf_eq_title_iff hpage']
  refine ⟨fun h => ⟨page', hpage', h.symm⟩, ?_⟩
  rintro ⟨target, htarget, hsource⟩
  obtain ⟨hnil, hup⟩ := fileName_page hpage'
  have hfile := fileName_of_resolve (isPart_directory _) hcs (hname ▸ hnil) (hname ▸ hup)
  rw [← hsource] at hfile
  have htitle := (lookupPage_of_page htarget hfile hne).symm.trans
    (lookupPage_of_page hpage' hname hne)
  have htitles := List.inj_on_of_nodup_map pages_targets.2.1 htarget hpage'
    (Option.some.inj htitle)
  rw [← hsource, htitles]

include hpage

theorem readmePage_eq_targetOf_iff : readmePage path = targetOf cs ↔ ReadmeKept path cs := by
  by_cases hmem : path ∈ librariesReadme :: (blueprintReadmes ++ homeReadmes)
  · exact pageDirectories_readmes _ (pages_targets.2.2 page hpage).2.2.1 path hmem cs hcs
  have htoolchains : ("cmake/toolchains/README.md", "CMake-Toolchains") ∈ pages :=
    List.mem_of_getElem? (i := 28) rfl
  rw [readmePage_of_notMem hmem, eq_comm, targetOf_eq_title_iff htoolchains, ReadmeKept]
  have hblueprint : path ∉ ["blueprint/README.md".toList, "../blueprint/README.md".toList] :=
    fun h => hmem (List.mem_cons_of_mem _ (List.mem_append_left _ (by
      simp only [blueprintReadmes, List.mem_cons] at h ⊢
      tauto)))
  have hhome : path ∉ homeReadmes :=
    fun h => hmem (List.mem_cons_of_mem _ (List.mem_append_right _ h))
  rw [or_iff_right fun h => hblueprint h.1, or_iff_right fun h => hhome h.1]

/-- A path that is not found, and is not left alone, is sent to its target on the web if and only if
it names the file from the root of the repository. -/
theorem clean_eq_iff : stripParents path = joinParts cs ↔
    path = climb (directory page.1.toList).length ++ joinParts cs := by
  obtain ⟨hparts, hup⟩ := isPart_of_resolve (isPart_directory _) hcs
  constructor
  · intro h
    obtain ⟨k, hk⟩ := exists_climb path
    rw [h] at hk
    rw [hk] at hcs
    rw [hk, climb_of_resolve (directory_page hpage).1 hparts hup hcs]
  · intro h
    rw [h, stripParents_climb, stripParents_joinParts hparts hup]

end

theorem fileName_climb_joinParts (hparts : ∀ c ∈ cs, IsPart c) (hne : cs ≠ []) (k : ℕ) :
    fileName (climb k ++ joinParts cs) = fileName (joinParts cs) := by
  have hlast :
      (partsOf (climb k ++ joinParts cs)).getLast? = (partsOf (joinParts cs)).getLast? := by
    rw [partsOf_climb, partsOf_joinParts hparts, List.getLast?_append_of_ne_nil _ hne]
  exact congrArg (Option.getD · []) hlast

variable {l : Link}

/-- A path that is not found is rewritten to its target if and only if it names the file from the
root of the repository. -/
theorem replacement_eq_iff_of_notPage (hpage : page ∈ pages) (hexempt : ¬l.Exempt)
    (hne : l.path ≠ []) (hcs : resolve (directory page.1.toList ++ partsOf l.path) = some cs)
    (hreadme : fileName l.path ≠ readme)
    (hnot : ∀ page ∈ pages, fileName page.1.toList ≠ fileName l.path) :
    l.replacement = linkText l.label (targetOf cs ++ l.anchor) ↔
      l.path = climb (directory page.1.toList).length ++ joinParts cs ∧ cs ≠ [] ∧
        ¬"http".toList <+: joinParts cs := by
  have hparts := (isPart_of_resolve (isPart_directory _) hcs).1
  have hiff := clean_eq_iff hpage hcs
  rw [← Link.clean] at hiff
  rw [Link.replacement, Link.outcome, if_neg hexempt, lookupPage_of_notPage hnot]
  by_cases hclean : l.clean ≠ [] ∧ ¬"http".toList <+: l.clean
  · simp only [if_pos hclean, linkText_inj, List.append_left_inj]
    constructor
    · intro h
      rcases targetOf_cases cs with hblob | hupper
      · have hjoin := List.append_cancel_left (h.trans hblob)
        refine ⟨hiff.mp hjoin, ?_, hjoin ▸ hclean.2⟩
        rintro rfl
        exact hclean.1 hjoin
      · rw [← h, head?_blobUrl_append] at hupper
        exact absurd hupper (by decide)
    · rintro ⟨hpath, hcsne, -⟩
      have hfile : fileName (joinParts cs) = fileName l.path := by
        rw [hpath, fileName_climb_joinParts hparts hcsne]
      rw [hiff.mpr hpath, targetOf_eq_blobUrl]
      · intro page' hpage' hsource
        exact hnot page' hpage' (hsource ▸ hfile)
      · intro hjoin
        rw [hjoin] at hfile
        exact hreadme (hfile.symm.trans (by decide))
  · simp only [if_neg hclean, Link.text, linkText_inj]
    refine iff_of_false (fun h => ?_) ?_
    · -- the link is left alone, and its url is no target
      rw [← l.url_eq, List.append_left_inj] at h
      obtain ⟨x, xs, hx⟩ := List.exists_cons_of_ne_nil hne
      rcases targetOf_cases cs with hblob | hupper
      · have hhttps : "https://".toList <+: l.url := by
          rw [← l.url_eq, h, hblob, List.append_assoc]
          exact List.IsPrefix.trans (by decide) (List.prefix_append _ _)
        exact hexempt ⟨"https://", by simp, hhttps⟩
      · rw [← h, hx] at hupper
        change x.isUpper = true at hupper
        have hstrip : l.clean = x :: xs := by
          rw [Link.clean, hx]
          refine stripParents_of_not_prefix fun hup => ?_
          obtain ⟨rfl, -⟩ := List.cons_prefix_cons.mp hup
          exact absurd hupper (by decide)
        refine hclean ⟨hstrip ▸ List.cons_ne_nil x xs, fun hhttp => ?_⟩
        rw [hstrip] at hhttp
        obtain ⟨rfl, -⟩ := List.cons_prefix_cons.mp hhttp
        exact absurd hupper (by decide)
    · rintro ⟨hpath, hcsne, hhttp⟩
      have hjoin := hiff.mpr hpath
      refine hclean ⟨fun hnil => hcsne ?_, hjoin ▸ hhttp⟩
      rw [← partsOf_joinParts hparts, ← hjoin, hnil]
      rfl

/-- The text that replaces a relative link has its target, with its label and anchor, if and only if
its path is one of those kept. -/
theorem replacement_eq_iff (hpage : page ∈ pages) (hexempt : ¬l.Exempt) (hne : l.path ≠ [])
    (hcs : resolve (directory page.1.toList ++ partsOf l.path) = some cs) :
    l.replacement = linkText l.label (targetOf cs ++ l.anchor) ↔
      TargetKept page.1.toList l.path cs := by
  rw [TargetKept]
  split_ifs with hreadme hfound
  · rw [Link.replacement, Link.outcome, if_neg hexempt, lookupPage_of_readme hreadme]
    simp only [linkText_inj, List.append_left_inj]
    exact readmePage_eq_targetOf_iff hpage hcs
  · obtain ⟨page', hpage', hname⟩ := hfound
    rw [Link.replacement, Link.outcome, if_neg hexempt, lookupPage_of_page hpage' hname hreadme]
    simp only [linkText_inj, List.append_left_inj]
    exact title_eq_targetOf_iff hcs hpage' hname hreadme
  · exact replacement_eq_iff_of_notPage hpage hexempt hne hcs hreadme
      fun page' hpage' hname => hfound ⟨page', hpage', hname⟩

/-- The loop ends on the paths of relative links. -/
theorem repl_of_isRelative (hpage : page ∈ pages) (hrel : l.IsRelative) :
    repl buildPathMap page.1.toList l = some l.replacement := by
  have hroot : (joinedPath page.1.toList l.path).root = .relative :=
    (PosixPath.join_of_relative hrel.2.2).1.trans (pages_targets.2.2 page hpage).2.2.2
  rw [repl_eq hpage, if_pos (.inr (.inr (.inl hroot)))]

/-- In the text of a page, only the link itself is replaced. -/
theorem rewriteLinks_of_split {text a b : List Char} {before after : List (Char ⊕ Link)}
    (hpage : page ∈ pages) (hsplit : linkRe.split text = before ++ .inr l :: after)
    (hbefore : Pattern.render (repl buildPathMap page.1.toList) before = some b)
    (hafter : Pattern.render (repl buildPathMap page.1.toList) after = some a)
    (hrel : l.IsRelative) :
    rewriteLinks text page.1.toList buildPathMap = some (b ++ l.replacement ++ a) := by
  rw [rewriteLinks, Pattern.subM, hsplit]
  exact Pattern.render_append_inr hbefore (repl_of_isRelative hpage hrel) hafter

/-- **Which links keep their targets.** In the text of a page, where what stands before and behind a
relative link to the file or directory `cs` is rewritten to `b` and `a`, the link is rewritten to
its target between them, with its label and anchor, if and only if its path is one of those kept.
That there are `b` and `a` means that the loop ends for each of the other links, as `Link.Returns`
says; where it does not, nothing is returned for the whole text. -/
theorem rewriteLinks_target {text a b : List Char} {before after : List (Char ⊕ Link)}
    (hpage : page ∈ pages) (hsplit : linkRe.split text = before ++ .inr l :: after)
    (hbefore : Pattern.render (repl buildPathMap page.1.toList) before = some b)
    (hafter : Pattern.render (repl buildPathMap page.1.toList) after = some a)
    (hrel : l.IsRelative)
    (hcs : resolve (directory page.1.toList ++ partsOf l.path) = some cs) :
    rewriteLinks text page.1.toList buildPathMap =
        some (b ++ linkText l.label (targetOf cs ++ l.anchor) ++ a) ↔
      TargetKept page.1.toList l.path cs := by
  rw [rewriteLinks_of_split hpage hsplit hbefore hafter hrel, Option.some.injEq,
    List.append_left_inj, List.append_right_inj, replacement_eq_iff hpage hrel.1 hrel.2.1 hcs]

/-- `AUDIT.md` next to the page is rewritten to its page. -/
theorem rewriteLinks_target_audit :
    rewriteLinks "[audit](AUDIT.md#gaps)".toList "docs/blueprint/README.md".toList buildPathMap =
      some "[audit](Blueprint-Audit#gaps)".toList := by
  have haudit : ("docs/blueprint/AUDIT.md", "Blueprint-Audit") ∈ pages :=
    List.mem_of_getElem? (i := 2) rfl
  have htarget : targetOf ["docs".toList, "blueprint".toList, "AUDIT.md".toList] =
      "Blueprint-Audit".toList := (targetOf_eq_title_iff haudit).mpr (by decide)
  let l : Link :=
    ⟨"audit".toList, "AUDIT.md#gaps".toList, by decide, by decide, by decide, by decide⟩
  have hpage : ("docs/blueprint/README.md", "Blueprint-Overview") ∈ pages := List.mem_cons_self
  have hsplit : linkRe.split "[audit](AUDIT.md#gaps)".toList = [] ++ .inr l :: [] := rfl
  have hrender : Pattern.render (repl buildPathMap "docs/blueprint/README.md".toList) [] =
      some [] := rfl
  have hcs : resolve (directory "docs/blueprint/README.md".toList ++ partsOf l.path) =
      some ["docs".toList, "blueprint".toList, "AUDIT.md".toList] := by decide
  have hkept : TargetKept "docs/blueprint/README.md".toList l.path
      ["docs".toList, "blueprint".toList, "AUDIT.md".toList] := by
    rw [TargetKept, if_neg (by decide), if_pos ⟨_, haudit, by decide⟩]
    exact ⟨_, haudit, by decide⟩
  have h := (rewriteLinks_target hpage hsplit hrender hrender (by decide) hcs).mpr hkept
  rw [htarget] at h
  exact h

/-- The link of `docs/blueprint/README.md` to the directory `docs/tutorials` is sent to a directory
`tutorials` of the repository. -/
theorem not_rewriteLinks_target_tutorials : ¬ ∀ page ∈ pages,
    ∀ (text a b : List Char) (before after : List (Char ⊕ Link)) (l : Link)
      (cs : List (List Char)),
      linkRe.split text = before ++ .inr l :: after →
      Pattern.render (repl buildPathMap page.1.toList) before = some b →
      Pattern.render (repl buildPathMap page.1.toList) after = some a → l.IsRelative →
      resolve (directory page.1.toList ++ partsOf l.path) = some cs →
      rewriteLinks text page.1.toList buildPathMap =
        some (b ++ linkText l.label (targetOf cs ++ l.anchor) ++ a) := by
  intro h
  have hpage : ("docs/blueprint/README.md", "Blueprint-Overview") ∈ pages := List.mem_cons_self
  let l : Link :=
    ⟨"`docs/tutorials/`".toList, "../tutorials/".toList, by decide, by decide, by decide, by decide⟩
  have hsplit : linkRe.split l.text = [] ++ .inr l :: [] := rfl
  have hcs : resolve (directory "docs/blueprint/README.md".toList ++ partsOf l.path) =
      some ["docs".toList, "tutorials".toList] := by decide
  have hrender : Pattern.render (repl buildPathMap "docs/blueprint/README.md".toList) [] =
      some [] := rfl
  have hrewritten := h _ hpage l.text [] [] [] [] l _ hsplit hrender hrender (by decide) hcs
  rw [rewriteLinks_of_split hpage hsplit hrender hrender (by decide), Option.some.injEq,
    List.append_left_inj, List.append_right_inj,
    replacement_eq_iff hpage (by decide) (by decide) hcs, TargetKept, if_neg (by decide),
    if_neg] at hrewritten
  · exact absurd hrewritten.1 (by decide)
  · rintro ⟨page, hpage', hname⟩
    have hmd := (pages_files.1 page hpage').1
    rw [hname] at hmd
    exact absurd hmd (by decide)

end SystemsStack.Wiki
