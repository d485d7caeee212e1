import SystemsStack.Wiki.PathLoop

/-!
# What the publisher makes of a link

The path map finds a page by the file name of a link: each of its keys has the file name of a page.
Only the file name `README.md` is that of several pages, and there the path decides. As the loop
keeps the file name, looking up its result finds nothing that has not been found before. So the
replacement of a link depends on the link alone, as long as the loop ends
(`SystemsStack.Wiki.repl_eq`).

## Main definitions

* `SystemsStack.Wiki.fileName`, `SystemsStack.Wiki.readmePage`.
* `SystemsStack.Wiki.Outcome`, `SystemsStack.Wiki.Link.outcome`: what becomes of a link.
* `SystemsStack.Wiki.Link.Returns`: the loop is not reached, or it ends.

## Main results

* `SystemsStack.Wiki.lookupPage_of_page`, `SystemsStack.Wiki.lookupPage_of_readme`,
  `SystemsStack.Wiki.lookupPage_of_notPage`: what is found for a path.
* `SystemsStack.Wiki.lookup_resolvedPath`: nothing more is found for the resolved path.
* `SystemsStack.Wiki.repl_eq`.

## References

* `scripts/publish_wiki.py`, lines 100–140.
-/

namespace SystemsStack.Wiki

open Core

/-! ### The path map -/

/-- `Path(s).name`. -/
abbrev fileName (s : List Char) : List Char := (PosixPath.ofText s).name

/-- The one file name of several pages. -/
def readme : List Char := "README.md".toList

def blueprintReadmes : List (List Char) :=
  ["blueprint/README.md".toList, "../blueprint/README.md".toList,
    "docs/blueprint/README.md".toList]

def homeReadmes : List (List Char) := ["../README.md".toList, "../../README.md".toList]

def librariesReadme : List Char := "docs/libraries/README.md".toList

/-- The page that is found for a path to some `README.md`. -/
def readmePage (path : List Char) : List Char :=
  if path ∈ blueprintReadmes then
    "Blueprint-Overview".toList
  else if path ∈ homeReadmes then
    "Home".toList
  else if path = librariesReadme then
    "Libraries-Index".toList
  else
    "CMake-Toolchains".toList

/-- What is stored in the path map: pages, under the names of their files, where that is the name of
one page. -/
theorem buildPathMap_entries :
    (∀ e ∈ buildPathMap, e.2 ≠ [] ∧
      if fileName e.1 = readme then
        buildPathMap.lookup e.1 = some (readmePage e.1)
      else
        ∃ page ∈ pages, fileName page.1.toList = fileName e.1 ∧ page.2.toList = e.2) ∧
    (∀ page ∈ pages, (buildPathMap.lookup (fileName page.1.toList)).isSome = true) ∧
    ∀ path ∈ librariesReadme :: (blueprintReadmes ++ homeReadmes),
      (buildPathMap.lookup path).isSome = true := by
  decide +kernel

/-- The sources of the pages are Markdown files in directories, and no two but those named
`README.md` have one file name. -/
theorem pages_files :
    (∀ page ∈ pages, ".md".toList <:+ fileName page.1.toList ∧
      ¬".md".toList <:+ (PosixPath.ofText page.1.toList).parent.name) ∧
    (∀ page ∈ pages, ∀ page' ∈ pages, fileName page.1.toList = fileName page'.1.toList →
      fileName page.1.toList = readme ∨ page.2.toList = page'.2.toList) ∧
    ∃ page ∈ pages, fileName page.1.toList = readme := by
  decide +kernel

theorem mem_of_lookup {pathMap : PathMap} {k v : List Char} (h : pathMap.lookup k = some v) :
    (k, v) ∈ pathMap := by
  obtain ⟨l, l', rfl, -⟩ := List.lookup_eq_some_iff.mp h
  exact List.mem_append_right l List.mem_cons_self

/-- The name of a file is its own file name. -/
theorem fileName_fileName (s : List Char) : fileName (fileName s) = fileName s := by
  rcases hlast : (partsOf s).getLast? with _ | c
  · have hname : fileName s = [] := congrArg (Option.getD · []) hlast
    rw [hname]
    decide
  · have hname : fileName s = c := congrArg (Option.getD · []) hlast
    have hpart := partsOf_of_isPart (isPart_of_mem_partsOf (List.mem_of_getLast? hlast))
    rw [hname]
    exact congrArg (fun cs => cs.getLast?.getD []) hpart

theorem lookupPage_eq (path : List Char) : lookupPage buildPathMap path =
    (buildPathMap.lookup path).or (buildPathMap.lookup (fileName path)) := by
  rw [lookupPage]
  rcases hlookup : buildPathMap.lookup path with _ | _ | ⟨c, wiki⟩
  · rfl
  · exact absurd rfl (buildPathMap_entries.1 _ (mem_of_lookup hlookup)).1
  · rfl

variable {path k v : List Char} {page : String × String}

theorem exists_page_of_lookup (h : buildPathMap.lookup k = some v) :
    ∃ page ∈ pages, fileName page.1.toList = fileName k := by
  have hentry := (buildPathMap_entries.1 _ (mem_of_lookup h)).2
  split_ifs at hentry with hreadme
  · obtain ⟨page, hpage, hname⟩ := pages_files.2.2
    exact ⟨page, hpage, hname.trans hreadme.symm⟩
  · obtain ⟨page, hpage, hname, -⟩ := hentry
    exact ⟨page, hpage, hname⟩

/-- A path with the file name of a page is found. -/
theorem isSome_lookupPage (hpage : page ∈ pages)
    (hname : fileName page.1.toList = fileName path) :
    (lookupPage buildPathMap path).isSome = true := by
  rw [lookupPage_eq, Option.isSome_or, ← hname, buildPathMap_entries.2.1 page hpage, Bool.or_true]

/-- What is found is stored under a key with the same file name. -/
theorem exists_key_of_lookupPage (h : lookupPage buildPathMap path = some v) :
    ∃ k, buildPathMap.lookup k = some v ∧ fileName k = fileName path ∧
      (k = path ∨ k = fileName path ∧ buildPathMap.lookup path = none) := by
  rw [lookupPage_eq] at h
  rcases hlookup : buildPathMap.lookup path with _ | wiki
  · rw [hlookup, Option.none_or] at h
    exact ⟨_, h, fileName_fileName path, .inr ⟨rfl, rfl⟩⟩
  · rw [hlookup, Option.some_or] at h
    exact ⟨path, hlookup.trans h, rfl, .inl rfl⟩

/-- A path with the file name of just one page is found to be this page. -/
theorem lookupPage_of_page (hpage : page ∈ pages)
    (hname : fileName page.1.toList = fileName path) (hne : fileName path ≠ readme) :
    lookupPage buildPathMap path = some page.2.toList := by
  obtain ⟨v, hv⟩ := Option.isSome_iff_exists.mp (isSome_lookupPage hpage hname)
  obtain ⟨k, hk, hkname, -⟩ := exists_key_of_lookupPage hv
  have hentry := (buildPathMap_entries.1 _ (mem_of_lookup hk)).2
  rw [if_neg (hkname ▸ hne)] at hentry
  obtain ⟨page', hpage', hname', rfl⟩ := hentry
  have hnames := hname.trans (hkname.symm.trans hname'.symm)
  have htitle := (pages_files.2.1 page hpage page' hpage' hnames).resolve_left
    (hname ▸ hne)
  rw [hv, htitle]

theorem readmePage_of_notMem (h : path ∉ librariesReadme :: (blueprintReadmes ++ homeReadmes)) :
    readmePage path = "CMake-Toolchains".toList := by
  simp only [List.mem_cons, List.mem_append, not_or] at h
  rw [readmePage, if_neg h.2.1, if_neg h.2.2, if_neg h.1]

/-- What is found for a path to some `README.md` depends on the path. -/
theorem lookupPage_of_readme (hname : fileName path = readme) :
    lookupPage buildPathMap path = some (readmePage path) := by
  obtain ⟨page, hpage, hpageName⟩ := pages_files.2.2
  obtain ⟨v, hv⟩ := Option.isSome_iff_exists.mp
    (isSome_lookupPage hpage (hpageName.trans hname.symm))
  obtain ⟨k, hk, hkname, hkpath⟩ := exists_key_of_lookupPage hv
  have hentry := (buildPathMap_entries.1 _ (mem_of_lookup hk)).2
  rw [if_pos (hkname.trans hname)] at hentry
  have hvalue : v = readmePage k := Option.some.inj (hk.symm.trans hentry)
  rw [hv, hvalue]
  rcases hkpath with rfl | ⟨rfl, hnone⟩
  · rfl
  · have hkeys : path ∉ librariesReadme :: (blueprintReadmes ++ homeReadmes) := by
      intro hmem
      have hsome := buildPathMap_entries.2.2 path hmem
      rw [hnone] at hsome
      exact absurd hsome (by decide)
    rw [readmePage_of_notMem hkeys, hname]
    decide

/-- Nothing is found for a path whose file name is not that of a page. -/
theorem lookupPage_of_notPage (h : ∀ page ∈ pages, fileName page.1.toList ≠ fileName path) :
    lookupPage buildPathMap path = none := by
  rw [Option.eq_none_iff_forall_not_mem]
  intro v hv
  obtain ⟨k, hk, hkname, -⟩ := exists_key_of_lookupPage hv
  obtain ⟨page, hpage, hname⟩ := exists_page_of_lookup hk
  exact h page hpage (hname.trans hkname)

/-- Looking up the resolved path finds nothing more. -/
theorem lookup_resolvedPath {resolved : List Char} (hpage : page ∈ pages)
    (hnone : lookupPage buildPathMap path = none)
    (h : resolvedPath page.1.toList path = some resolved) :
    buildPathMap.lookup resolved = none := by
  rw [Option.eq_none_iff_forall_not_mem]
  intro v hv
  obtain ⟨page', hpage', hname⟩ := exists_page_of_lookup hv
  have hresolved := name_of_resolvedPath h
  have hjoin := PosixPath.name_join (PosixPath.ofText page.1.toList).parent (.ofText path)
  rcases hjoin with hpath | hdir
  · have hsome := isSome_lookupPage hpage' (hname.trans (hresolved.trans hpath))
    rw [hnone] at hsome
    exact absurd hsome (by decide)
  · have hmd := (pages_files.1 page' hpage').1
    rw [hname.trans (hresolved.trans hdir)] at hmd
    exact (pages_files.1 page hpage).2 hmd

/-! ### Leading `../` -/

/-- `k` times `../`. -/
def climb (k : ℕ) : List Char := (List.replicate k "../".toList).flatten

variable {s : List Char}

theorem climb_succ_append (k : ℕ) (s : List Char) :
    climb (k + 1) ++ s = dotDot ++ '/' :: (climb k ++ s) := by
  rw [climb, List.replicate_succ, List.flatten_cons, List.append_assoc]
  rfl

theorem stripParents_climb (k : ℕ) (s : List Char) :
    stripParents (climb k ++ s) = stripParents s := by
  induction k with
  | zero => rfl
  | succ k ih =>
    rw [climb_succ_append]
    exact ih

theorem stripParents_of_not_prefix (h : ¬dotDot ++ ['/'] <+: s) : stripParents s = s := by
  unfold stripParents
  split
  · exact absurd ⟨_, rfl⟩ h
  · rfl

theorem exists_climb (s : List Char) : ∃ k, s = climb k ++ stripParents s := by
  induction s using stripParents.induct with
  | case1 s ih =>
    obtain ⟨k, hk⟩ := ih
    refine ⟨k + 1, ?_⟩
    rw [climb_succ_append, stripParents, ← hk]
    rfl
  | case2 s hs => exact ⟨0, by rw [stripParents]; exacts [rfl, hs]⟩

/-! ### The replacement of a link -/

/-- What becomes of a link. -/
inductive Outcome where
  /-- It is left alone. -/
  | same
  /-- It points to a page of the wiki. -/
  | page (wiki : List Char)
  /-- It points to a file on the web. -/
  | blob

theorem Link.url_eq (l : Link) : l.path ++ l.query ++ l.anchor = l.url := by
  rw [Link.path, Link.query, Link.anchor, List.takeWhile_append_dropWhile,
    List.takeWhile_append_dropWhile]

namespace Link

variable (l : Link)

/-- The path without leading `../`. -/
def clean : List Char := stripParents l.path

def outcome : Outcome :=
  if l.Exempt then
    .same
  else
    match lookupPage buildPathMap l.path with
    | some wiki => .page wiki
    | none => if l.clean ≠ [] ∧ ¬"http".toList <+: l.clean then .blob else .same

/-- The text that replaces the link. -/
def replacement : List Char :=
  match l.outcome with
  | .same => l.text
  | .page wiki => linkText l.label (wiki ++ l.anchor)
  | .blob => linkText l.label (blobUrl ++ l.clean ++ l.anchor)

/-- The loop is not reached, or it ends. -/
def Returns (sourceRel : List Char) : Prop :=
  l.Exempt ∨ (lookupPage buildPathMap l.path).isSome = true ∨ Settles (joinedPath sourceRel l.path)

instance (sourceRel : List Char) : Decidable (l.Returns sourceRel) :=
  inferInstanceAs (Decidable (_ ∨ _ ∨ _))

end Link

/-- The replacement of a link depends on the link alone, as long as the loop ends. -/
theorem repl_eq (hpage : page ∈ pages) (l : Link) : repl buildPathMap page.1.toList l =
    if l.Returns page.1.toList then some l.replacement else none := by
  by_cases hexempt : l.Exempt
  · rw [repl, Link.replacement, Link.outcome, if_pos hexempt, if_pos hexempt, if_pos (.inl hexempt)]
  rw [repl, Link.replacement, Link.outcome, if_neg hexempt, if_neg hexempt]
  rcases hlookup : lookupPage buildPathMap l.path with _ | wiki
  · have hreturns : l.Returns page.1.toList ↔
        (resolvedPath page.1.toList l.path).isSome = true := by
      rw [Link.Returns, hlookup, isSome_resolvedPath_iff]
      exact (or_iff_right hexempt).trans (or_iff_right Bool.false_ne_true)
    rcases hresolved : resolvedPath page.1.toList l.path with _ | resolved
    · have hnot : ¬l.Returns page.1.toList := by
        rw [hreturns, hresolved]
        exact Bool.false_ne_true
      rw [if_neg hnot]
      rfl
    · have hnothing := lookup_resolvedPath hpage hlookup hresolved
      rw [if_pos (hreturns.mpr (by rw [hresolved]; rfl))]
      simp only [Option.map_some, hnothing]
      change some (if l.clean ≠ [] ∧ ¬"http".toList <+: l.clean then _ else _) = _
      by_cases hclean : l.clean ≠ [] ∧ ¬"http".toList <+: l.clean
      · rw [if_pos hclean, if_pos hclean]
        rfl
      · rw [if_neg hclean, if_neg hclean]
  · have hreturns : l.Returns page.1.toList := .inr (.inl (by rw [hlookup]; rfl))
    rw [if_pos hreturns]

end SystemsStack.Wiki
