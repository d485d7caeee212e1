import SystemsStack.Wiki.CodeFences
import Mathlib.Data.List.Nodup
import Mathlib.Logic.Function.Basic

/-!
# The pages of the wiki

`write_pages` writes a file for each page whose source exists, and three more: the home page, the
side bar and the footer. Before that, `main` and `write_preview` delete the files that match `*.md`.
The pattern matches entries of the directory itself only, so that Markdown files in subdirectories
stay, as all other files do. The files that match it afterwards are a function of the documentation
alone (`SystemsStack.Wiki.sync_eq`): writing again changes nothing, and the preview shows what would
be published.

A link that has been rewritten to a page of the wiki leads to a file that has been written, if the
source of that page exists (`SystemsStack.Wiki.sync_links`).

Source: `scripts/publish_wiki.py`, lines 262–300.

## Main definitions

* `SystemsStack.Wiki.Directory`, `SystemsStack.Wiki.Docs`.
* `SystemsStack.Wiki.clear`, `SystemsStack.Wiki.writePages`, `SystemsStack.Wiki.sync`.
* `SystemsStack.Wiki.Docs.file`: the Markdown files that the documentation stands for.

## Main results

* `SystemsStack.Wiki.sync_eq`, `SystemsStack.Wiki.sync_links`.
-/

namespace SystemsStack.Wiki

open Core

/-! ### Directories -/

/-- The texts of the files below a directory, by their paths from it. It has no directory in it with
a name that ends with `.md`, which could not be unlinked. -/
abbrev Directory := List Char → Option (List Char)

/-- What the pages are made from: the texts of the files of the repository, by their paths, as
`read_text` returns them, where each line end has become a single line feed; and the texts of
`home_md`, `sidebar_md` and the footer. -/
structure Docs where
  root : String → Option (List Char)
  homeMd : List Char
  sidebarMd : List Char
  footerMd : List Char

/-- The name of the Markdown file of a page. -/
def mdFile (name : List Char) : List Char := name ++ ".md".toList

/-- The pattern `*.md`, which matches entries of the directory itself. -/
def IsMarkdown (file : List Char) : Prop := ".md".toList <:+ file ∧ '/' ∉ file

instance : DecidablePred IsMarkdown := fun file =>
  inferInstanceAs (Decidable (".md".toList <:+ file ∧ '/' ∉ file))

theorem isMarkdown_mdFile {name : List Char} (h : '/' ∉ name) : IsMarkdown (mdFile name) := by
  refine ⟨List.suffix_append _ _, fun hslash => ?_⟩
  rcases List.mem_append.mp hslash with hname | hmd
  · exact h hname
  · exact absurd hmd (by decide)

theorem mdFile_inj {name name' : List Char} : mdFile name = mdFile name' ↔ name = name' :=
  List.append_left_inj _

/-- Write a file. -/
def Directory.write (d : Directory) (file text : List Char) : Directory :=
  Function.update d file (some text)

/-- Delete the Markdown files of the directory itself. -/
def clear (d : Directory) : Directory := fun file =>
  if IsMarkdown file ∧ file ≠ ".git".toList then none else d file

/-! ### Writing -/

/-- What is written above a page. -/
def header (rel : List Char) : List Char :=
  "> Source: [`".toList ++ rel ++ "`](".toList ++ blobUrl ++ rel ++
    ") in the main repository.\n\n".toList

variable (docs : Docs)

/-- Write a page, if its source exists. -/
def writePage (d : Directory) (page : String × String) : Option Directory :=
  match docs.root page.1 with
  | none => some d
  | some text =>
      (rewriteLinks text page.1.toList buildPathMap).map fun body =>
        d.write (mdFile page.2.toList) (header page.1.toList ++ body)

/-- `write_pages`, if the rewriting of each page ends. -/
def writePages (d : Directory) : Option Directory :=
  (pages.foldlM (writePage docs) d).map fun d =>
    ((d.write (mdFile "Home".toList) docs.homeMd).write (mdFile "_Sidebar".toList)
      docs.sidebarMd).write (mdFile "_Footer".toList) docs.footerMd

/-- Delete the Markdown files, and write the pages. -/
def sync (d : Directory) : Option Directory := writePages docs (clear d)

/-! ### What is written -/

namespace Docs

/-- The text of a page, if its source exists. -/
def pageText (page : String × String) : Option (List Char) :=
  (docs.root page.1).map fun text => header page.1.toList ++ Script.target (edits text)

/-- The text of the file of one of the pages. -/
def pageFile (ps : List (String × String)) (file : List Char) : Option (List Char) :=
  ps.findSome? fun page => if mdFile page.2.toList = file then docs.pageText page else none

/-- The text of a Markdown file of the wiki itself. -/
def file (file : List Char) : Option (List Char) :=
  if file = mdFile "_Footer".toList then some docs.footerMd
  else if file = mdFile "_Sidebar".toList then some docs.sidebarMd
  else if file = mdFile "Home".toList then some docs.homeMd
  else docs.pageFile pages file

/-- The rewriting of each page that exists ends. -/
def Rewritable (ps : List (String × String)) : Prop :=
  ∀ page ∈ ps, ∀ text, docs.root page.1 = some text →
    ∀ p ∈ linksOf text, p.2.Returns page.1.toList

end Docs

/-- The names of the pages are different, and none of them is that of another file. -/
theorem pages_names : (pages.map fun page => page.2.toList).Nodup ∧
    ∀ page ∈ pages, page.2.toList ≠ "_Footer".toList ∧ page.2.toList ≠ "_Sidebar".toList ∧
      page.2.toList ≠ "Home".toList ∧ '/' ∉ page.2.toList := by
  decide +kernel

theorem isMarkdown_page {page : String × String} (hpage : page ∈ pages) :
    IsMarkdown (mdFile page.2.toList) :=
  isMarkdown_mdFile (pages_names.2 page hpage).2.2.2

variable {docs} {d d' : Directory} {page : String × String} {text : List Char}

theorem rewriteLinks_eq_some_iff (hpage : page ∈ pages) {body : List Char} :
    rewriteLinks text page.1.toList buildPathMap = some body ↔
      (∀ p ∈ linksOf text, p.2.Returns page.1.toList) ∧ body = Script.target (edits text) := by
  constructor
  · intro h
    have hreturns : ∀ p ∈ linksOf text, p.2.Returns page.1.toList := by
      rintro ⟨i, l⟩ hl
      obtain ⟨t, ht⟩ := Pattern.exists_of_render h (mem_linksFrom.mpr ⟨i, hl⟩)
      rw [repl_eq hpage] at ht
      by_contra hnot
      rw [if_neg hnot] at ht
      exact absurd ht (Option.some_ne_none t).symm
    exact ⟨hreturns, Option.some.inj (h.symm.trans ((rewriteLinks_eq hpage).mpr hreturns))⟩
  · rintro ⟨hreturns, rfl⟩
    exact (rewriteLinks_eq hpage).mpr hreturns

/-- One page. -/
theorem writePage_eq_some_iff (hpage : page ∈ pages) : writePage docs d page = some d' ↔
    (∀ text, docs.root page.1 = some text → ∀ p ∈ linksOf text, p.2.Returns page.1.toList) ∧
      d' = fun file =>
        (if mdFile page.2.toList = file then docs.pageText page else none).or (d file) := by
  rw [writePage]
  rcases hroot : docs.root page.1 with _ | text
  · have hnone : docs.pageText page = none := by rw [Docs.pageText, hroot]; rfl
    simp only [hnone, ite_self, Option.none_or, Option.some.injEq, reduceCtorEq, false_implies,
      implies_true, true_and]
    exact eq_comm
  · have hsome : docs.pageText page =
        some (header page.1.toList ++ Script.target (edits text)) := by
      rw [Docs.pageText, hroot]
      rfl
    have hwrite : (fun file => (if mdFile page.2.toList = file then docs.pageText page
        else none).or (d file)) =
          d.write (mdFile page.2.toList) (header page.1.toList ++ Script.target (edits text)) := by
      funext file
      rw [Directory.write, Function.update_apply, hsome]
      by_cases hfile : mdFile page.2.toList = file
      · rw [if_pos hfile, if_pos hfile.symm, Option.some_or]
      · rw [if_neg hfile, if_neg (Ne.symm hfile), Option.none_or]
    rw [hwrite]
    simp only [Option.map_eq_some_iff, rewriteLinks_eq_some_iff hpage, Option.some.injEq,
      forall_eq']
    constructor
    · rintro ⟨body, ⟨hreturns, rfl⟩, rfl⟩
      exact ⟨hreturns, rfl⟩
    · rintro ⟨hreturns, rfl⟩
      exact ⟨_, ⟨hreturns, rfl⟩, rfl⟩

/-- The file of a page whose name is not among those of the pages is not written. -/
theorem pageFile_of_notMem {ps : List (String × String)}
    (h : page.2.toList ∉ ps.map fun page => page.2.toList) :
    docs.pageFile ps (mdFile page.2.toList) = none := by
  refine List.findSome?_eq_none_iff.mpr fun page' hpage' => if_neg fun hfile => h ?_
  exact mdFile_inj.mp hfile ▸ List.mem_map_of_mem hpage'

/-- Pages with different names. -/
theorem foldlM_writePage_eq_some_iff {ps : List (String × String)} (hps : ∀ page ∈ ps, page ∈ pages)
    (hnodup : (ps.map fun page => page.2.toList).Nodup) :
    ps.foldlM (writePage docs) d = some d' ↔
      docs.Rewritable ps ∧ d' = fun file => (docs.pageFile ps file).or (d file) := by
  induction ps generalizing d with
  | nil =>
    simp only [List.foldlM_nil, Docs.pageFile, List.findSome?_nil, Option.none_or]
    exact ⟨fun h => ⟨nofun, (Option.some.inj h).symm⟩, fun h => congrArg some h.2.symm⟩
  | cons page ps ih =>
    obtain ⟨hpage, hps⟩ := List.forall_mem_cons.mp hps
    rw [List.map_cons, List.nodup_cons] at hnodup
    have hfiles (d : Directory) : (fun file => (docs.pageFile ps file).or
        ((if mdFile page.2.toList = file then docs.pageText page else none).or (d file))) =
          fun file => (docs.pageFile (page :: ps) file).or (d file) := by
      funext file
      rw [Docs.pageFile, Docs.pageFile, List.findSome?_cons]
      by_cases hfile : mdFile page.2.toList = file
      · have hnone : docs.pageFile ps file = none := hfile ▸ pageFile_of_notMem hnodup.1
        rw [Docs.pageFile] at hnone
        rw [if_pos hfile, hnone, Option.none_or]
        cases docs.pageText page <;> rfl
      · rw [if_neg hfile, Option.none_or]
    simp only [List.foldlM_cons, Option.bind_eq_bind, Option.bind_eq_some_iff,
      writePage_eq_some_iff hpage, ih hps hnodup.2]
    constructor
    · rintro ⟨d₁, ⟨hreturns, rfl⟩, hrewritable, rfl⟩
      exact ⟨List.forall_mem_cons.mpr ⟨hreturns, hrewritable⟩, hfiles d⟩
    · rintro ⟨hrewritable, rfl⟩
      obtain ⟨hreturns, hrewritable⟩ := List.forall_mem_cons.mp hrewritable
      exact ⟨_, ⟨hreturns, rfl⟩, hrewritable, (hfiles d).symm⟩

theorem writePages_eq_some_iff : writePages docs d = some d' ↔
    docs.Rewritable pages ∧ d' = fun file => (docs.file file).or (d file) := by
  have hfiles (d : Directory) : (((Directory.write (fun file => (docs.pageFile pages file).or
      (d file)) (mdFile "Home".toList) docs.homeMd).write (mdFile "_Sidebar".toList)
        docs.sidebarMd).write (mdFile "_Footer".toList) docs.footerMd) =
          fun file => (docs.file file).or (d file) := by
    funext file
    simp only [Directory.write, Function.update_apply, Docs.file]
    split_ifs <;> rfl
  rw [writePages, Option.map_eq_some_iff]
  simp only [foldlM_writePage_eq_some_iff (fun _ => id) pages_names.1]
  constructor
  · rintro ⟨d₁, ⟨hrewritable, rfl⟩, rfl⟩
    exact ⟨hrewritable, hfiles d⟩
  · rintro ⟨hrewritable, rfl⟩
    exact ⟨_, ⟨hrewritable, rfl⟩, hfiles d⟩

/-- Every file that is written is a Markdown file of the directory itself. -/
theorem isMarkdown_of_file {file text : List Char} (h : docs.file file = some text) :
    IsMarkdown file := by
  rw [Docs.file] at h
  split_ifs at h with hfooter hsidebar hhome
  · exact hfooter ▸ isMarkdown_mdFile (by decide)
  · exact hsidebar ▸ isMarkdown_mdFile (by decide)
  · exact hhome ▸ isMarkdown_mdFile (by decide)
  · obtain ⟨page, hpage, hfound⟩ := List.exists_of_findSome?_eq_some h
    split_ifs at hfound with hfile
    exact hfile ▸ isMarkdown_page hpage

/-- The file of a page. -/
theorem file_mdFile (hpage : page ∈ pages) :
    docs.file (mdFile page.2.toList) = docs.pageText page := by
  obtain ⟨hfooter, hsidebar, hhome, -⟩ := pages_names.2 page hpage
  have hne {name : List Char} (h : page.2.toList ≠ name) : mdFile page.2.toList ≠ mdFile name :=
    fun heq => h (mdFile_inj.mp heq)
  rw [Docs.file, if_neg (hne hfooter), if_neg (hne hsidebar), if_neg (hne hhome)]
  have hpages (ps : List (String × String)) (hnodup : (ps.map fun page => page.2.toList).Nodup)
      (hmem : page ∈ ps) : docs.pageFile ps (mdFile page.2.toList) = docs.pageText page := by
    induction ps with
    | nil => exact absurd hmem List.not_mem_nil
    | cons page' ps ih =>
      rw [List.map_cons, List.nodup_cons] at hnodup
      rw [Docs.pageFile, List.findSome?_cons]
      rcases List.mem_cons.mp hmem with rfl | hmem
      · have hnone : docs.pageFile ps (mdFile page.2.toList) = none := pageFile_of_notMem hnodup.1
        rw [Docs.pageFile] at hnone
        rw [if_pos rfl, hnone]
        cases docs.pageText page <;> rfl
      · have hother : mdFile page'.2.toList ≠ mdFile page.2.toList := fun hfile =>
          hnodup.1 (mdFile_inj.mp hfile ▸ List.mem_map_of_mem hmem)
        rw [if_neg hother]
        exact ih hnodup.2 hmem
  exact hpages pages pages_names.1 hpage

/-- What is written does not depend on the Markdown files that the directory itself has had. -/
theorem sync_eq_some_iff : sync docs d = some d' ↔ docs.Rewritable pages ∧
    d' = fun file => if IsMarkdown file then docs.file file else d file := by
  have hfiles : (fun file => (docs.file file).or (clear d file)) =
      fun file => if IsMarkdown file then docs.file file else d file := by
    funext file
    by_cases hmd : IsMarkdown file
    · have hgit : file ≠ ".git".toList := fun h => by
        rw [h] at hmd
        exact absurd hmd (by decide)
      rw [clear, if_pos ⟨hmd, hgit⟩, if_pos hmd, Option.or_none]
    · have hnone : docs.file file = none :=
        Option.eq_none_iff_forall_ne_some.mpr fun _ h => hmd (isMarkdown_of_file h)
      rw [clear, if_neg fun h => hmd h.1, if_neg hmd, hnone, Option.none_or]
  rw [sync, writePages_eq_some_iff, hfiles]

/-- **What is published.** The pages are written if and only if the rewriting of each page that
exists ends. Then each page has its text, and is there only if its source exists; the directory
itself has no other Markdown files but those of the documentation, and all other files stay, also
those in its subdirectories. The result is the same whatever Markdown files the directory itself has
had before; so writing again changes nothing. -/
theorem sync_eq (docs : Docs) (d : Directory) :
    ((sync docs d).isSome ↔ docs.Rewritable pages) ∧ ∀ d', sync docs d = some d' →
      (∀ page ∈ pages, d' (mdFile page.2.toList) = docs.pageText page) ∧
      (∀ file, IsMarkdown file → d' file = docs.file file) ∧
      (∀ file, ¬IsMarkdown file → d' file = d file) ∧
      ∀ d'' : Directory, (∀ file, ¬IsMarkdown file → d'' file = d file) →
        sync docs d'' = some d' := by
  refine ⟨?_, fun d' h => ?_⟩
  · simp only [Option.isSome_iff_exists, sync_eq_some_iff, exists_and_left, exists_eq, and_true]
  · obtain ⟨hrewritable, rfl⟩ := sync_eq_some_iff.mp h
    refine ⟨fun page hpage => ?_, fun file hmd => if_pos hmd, fun file hmd => if_neg hmd,
      fun d'' hsame => sync_eq_some_iff.mpr ⟨hrewritable, ?_⟩⟩
    · exact (if_pos (isMarkdown_page hpage)).trans (file_mdFile hpage)
    · funext file
      by_cases hmd : IsMarkdown file
      · rw [if_pos hmd, if_pos hmd]
      · rw [if_neg hmd, if_neg hmd, hsame file hmd]

/-! ### Links between pages -/

/-- What the path map leads to is the home page or one of the pages. -/
theorem exists_page_of_lookupPage {path wiki : List Char}
    (h : lookupPage buildPathMap path = some wiki) :
    wiki = "Home".toList ∨ ∃ page ∈ pages, wiki = page.2.toList := by
  obtain ⟨k, hk, -⟩ := exists_key_of_lookupPage h
  have hentry := (buildPathMap_entries.1 _ (mem_of_lookup hk)).2
  split_ifs at hentry
  · obtain rfl : wiki = readmePage k := Option.some.inj (hk.symm.trans hentry)
    rw [readmePage]
    split_ifs
    · exact .inr ⟨("docs/blueprint/README.md", "Blueprint-Overview"), by simp [pages], rfl⟩
    · exact .inl rfl
    · exact .inr ⟨("docs/libraries/README.md", "Libraries-Index"), by simp [pages], rfl⟩
    · exact .inr ⟨("cmake/toolchains/README.md", "CMake-Toolchains"), by simp [pages], rfl⟩
  · obtain ⟨page, hpage, -, hname⟩ := hentry
    exact .inr ⟨page, hpage, hname.symm⟩

theorem lookupPage_of_outcome {l : Link} {wiki : List Char} (h : l.outcome = .page wiki) :
    lookupPage buildPathMap l.path = some wiki := by
  rw [Link.outcome] at h
  by_cases hexempt : l.Exempt
  · rw [if_pos hexempt] at h
    cases h
  · rw [if_neg hexempt] at h
    cases hlookup : lookupPage buildPathMap l.path with
    | some wiki' =>
      rw [hlookup] at h
      exact congrArg some (Outcome.page.inj h)
    | none =>
      rw [hlookup] at h
      split_ifs at h

/-- **No dead links.** A link that has been rewritten to a page of the wiki leads to a file that has
been written, unless it is one of the pages and its source does not exist. -/
theorem sync_links (h : sync docs d = some d') {l : Link} {wiki : List Char}
    (hwiki : l.outcome = .page wiki) :
    (d' (mdFile wiki)).isSome ∨
      ∃ page ∈ pages, wiki = page.2.toList ∧ docs.root page.1 = none := by
  obtain ⟨-, rfl⟩ := sync_eq_some_iff.mp h
  have hlookup := lookupPage_of_outcome hwiki
  beta_reduce
  rcases exists_page_of_lookupPage hlookup with rfl | ⟨page, hpage, rfl⟩
  · left
    rw [if_pos (isMarkdown_mdFile (by decide)), Docs.file, if_neg (mdFile_inj.not.mpr (by decide)),
      if_neg (mdFile_inj.not.mpr (by decide)), if_pos rfl]
    rfl
  · rw [if_pos (isMarkdown_page hpage), file_mdFile hpage, Docs.pageText]
    rcases hroot : docs.root page.1 with _ | text
    · exact .inr ⟨page, hpage, rfl, hroot⟩
    · exact .inl rfl

/-- The documentation in which all files are empty. -/
def emptyDocs : Docs where
  root _ := some []
  homeMd := []
  sidebarMd := []
  footerMd := []

theorem rewritable_emptyDocs : emptyDocs.Rewritable pages := fun page _ text htext p hp => by
  obtain rfl : [] = text := Option.some.inj htext
  exact absurd hp List.not_mem_nil

/-- `[guide](asio.md)`. -/
def guideLink : Link where
  label := "guide".toList
  url := "asio.md".toList
  label_ne_nil := by decide
  notMem_label := by decide
  url_ne_nil := by decide
  notMem_url := by decide

theorem lookupPage_guideLink :
    lookupPage buildPathMap guideLink.path = some "Library-Asio".toList := by
  decide +kernel

/-- A link to a page, in an empty wiki. -/
theorem sync_links_guideLink : ∃ d', sync emptyDocs (fun _ => none) = some d' ∧
    (d' (mdFile "Library-Asio".toList)).isSome := by
  have houtcome : guideLink.outcome = .page "Library-Asio".toList := by
    rw [Link.outcome, if_neg (by decide +kernel), lookupPage_guideLink]
  have hsync := sync_eq_some_iff (d := fun _ => none) |>.mpr ⟨rewritable_emptyDocs, rfl⟩
  refine ⟨_, hsync, (sync_links hsync houtcome).resolve_right ?_⟩
  rintro ⟨page, -, -, hroot⟩
  exact absurd hroot (Option.some_ne_none [])

end SystemsStack.Wiki
