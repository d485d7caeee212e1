import SystemsStack.Core.Delimiters
import SystemsStack.Wiki.WritePages

/-!
# The links of a published page

Rewriting works on the text, and not on a page as a reader of Markdown sees it. So it is not clear
that what is published has the links that were meant: an address that is put in could end too early,
and what is put in could make a link together with the text around it. This file reads the published
pages again, with the pattern of the publisher itself: each link of the source is found at its
place, with its label and the new address, and no others are, but for the one in the header
(`SystemsStack.Wiki.published_split`).

Source: `scripts/publish_wiki.py`, lines 97, 108–140 and 263–282.

## Main definitions

* `SystemsStack.Wiki.Link.rewritten`: a link with its new address.

## Main results

* `SystemsStack.Wiki.Link.find_eq_some_iff`: a link is found where its text stands.
* `SystemsStack.Wiki.split_target_edits`, `SystemsStack.Wiki.published_split`.
-/

namespace SystemsStack.Wiki

open Core

namespace Link

variable {l : Link} {s : List Char}

/-! ### Finding a link -/

theorem text_append (l : Link) (s : List Char) :
    l.text ++ s = '[' :: (l.label ++ ']' :: '(' :: (l.url ++ ')' :: s)) := by
  simp [text, linkText]

theorem find_text_append (l : Link) (s : List Char) : find (l.text ++ s) = some l := by
  rw [text_append]
  simp only [find, takeWhile_append_delimiter l.notMem_label,
    dropWhile_append_delimiter l.notMem_label, takeWhile_append_delimiter l.notMem_url,
    dropWhile_append_delimiter l.notMem_url]
  exact dif_pos ⟨l.label_ne_nil, l.url_ne_nil⟩

/-- A link is found where its text stands. -/
theorem find_eq_some_iff : find s = some l ↔ l.text <+: s := by
  refine ⟨prefix_of_find, ?_⟩
  rintro ⟨t, rfl⟩
  exact find_text_append l t

theorem find_cons_of_ne {c : Char} (h : c ≠ '[') (s : List Char) : find (c :: s) = none := by
  rw [Option.eq_none_iff_forall_ne_some]
  intro l hl
  obtain ⟨t, ht⟩ := find_eq_some_iff.mp hl
  rw [text_append] at ht
  exact h (List.head_eq_of_cons_eq ht).symm

/-- What does not begin with a bracket in the rewritten text has been kept. -/
theorem exists_of_sub_eq_cons {f : Link → Link} {c : Char} {w : List Char}
    (h : linkRe.sub (text ∘ f) s = c :: w) (hc : c ≠ '[') :
    ∃ t, s = c :: t ∧ linkRe.sub (text ∘ f) t = w := by
  induction s using linkRe.split_induction with
  | nil => exact absurd h (List.cons_ne_nil c w).symm
  | kept d t hfind =>
    rw [Pattern.sub_cons_of_none hfind] at h
    obtain ⟨rfl, hw⟩ := List.cons_eq_cons.mp h
    exact ⟨t, rfl, hw⟩
  | found m t hfind =>
    rw [Pattern.sub_append_of_some hfind, Function.comp_apply, text_append] at h
    exact absurd (List.head_eq_of_cons_eq h).symm hc

theorem close_mem_text (l : Link) : ')' ∈ l.text := List.mem_append_right _ List.mem_cons_self

/-- If what becomes of a text begins with an address and a closing parenthesis, so does the text. -/
theorem exists_url_of_sub_eq {f : Link → Link} {r : List Char}
    (h : linkRe.sub (text ∘ f) s = l.url ++ ')' :: r) :
    ∃ v w, s = v ++ ')' :: w ∧ v ≠ [] ∧ ')' ∉ v := by
  have hclose : ')' ∈ s := by
    refine Pattern.mem_of_mem_sub (P := linkRe) close_mem_text (f := text ∘ f) ?_
    rw [h]
    exact List.mem_append_right _ List.mem_cons_self
  obtain ⟨v, w, rfl, hv⟩ := List.eq_append_cons_of_mem hclose
  refine ⟨v, w, rfl, ?_, hv⟩
  -- a parenthesis at the start would be kept, and the address would begin with it
  rintro rfl
  obtain ⟨d, url, hurl⟩ := List.exists_cons_of_ne_nil l.url_ne_nil
  rw [List.nil_append, Pattern.sub_cons_of_none (find_cons_of_ne (c := ')') (by decide) w),
    hurl] at h
  refine l.notMem_url ?_
  rw [hurl, List.head_eq_of_cons_eq h]
  exact List.mem_cons_self

/-- What is rewritten behind an opening bracket does not make a link of it. -/
theorem find_cons_sub {c : Char} (f : Link → Link) (h : find (c :: s) = none) :
    find (c :: linkRe.sub (text ∘ f) s) = none := by
  rw [Option.eq_none_iff_forall_ne_some]
  intro l hl
  obtain ⟨r, hr⟩ := find_eq_some_iff.mp hl
  rw [text_append] at hr
  obtain ⟨rfl, hsub⟩ := List.cons_eq_cons.mp hr
  have hnot (l : Link) (r : List Char) : s ≠ l.label ++ ']' :: '(' :: (l.url ++ ')' :: r) := by
    rintro rfl
    rw [← text_append, find_text_append] at h
    exact Option.some_ne_none l h
  rcases linkRe.sub_cases ']' (text ∘ f) s with ⟨-, heq⟩ | ⟨u, t, hu, hs, heq⟩ | ⟨u, m, t, hu, hs⟩
  · exact hnot l r (heq.symm.trans hsub.symm)
  · -- the label ends at a bracket that was kept; so do the parentheses behind it
    obtain ⟨rfl, hopen⟩ := (append_cons_inj l.notMem_label hu).mp (hsub.trans heq)
    obtain ⟨t, rfl, ht⟩ := exists_of_sub_eq_cons hopen.symm (by decide)
    obtain ⟨v, w, rfl, hne, hv⟩ := exists_url_of_sub_eq ht
    exact hnot { l with url := v, url_ne_nil := hne, notMem_url := hv } w hs
  · -- the bracket opens the label of a link that is in the text
    let l' : Link :=
      { label := u ++ '[' :: m.label
        url := m.url
        label_ne_nil := List.append_ne_nil_of_right_ne_nil u (List.cons_ne_nil _ _)
        notMem_label := by simp [hu, m.notMem_label]
        url_ne_nil := m.url_ne_nil
        notMem_url := m.notMem_url }
    refine hnot l' t ?_
    rw [hs, List.append_assoc]
    exact (congrArg (u ++ ·) (m.text_append t)).trans (by simp [l'])

/-! ### The new address -/

/-- The address that the link gets. -/
def rewrittenUrl (l : Link) : List Char :=
  match l.outcome with
  | .same => l.url
  | .page wiki => wiki ++ l.anchor
  | .blob => blobUrl ++ l.clean ++ l.anchor

theorem mem_url_of_mem_anchor {c : Char} (h : c ∈ l.anchor) : c ∈ l.url := by
  rw [← l.url_eq]
  exact List.mem_append_right _ h

theorem mem_url_of_mem_clean {c : Char} (h : c ∈ l.clean) : c ∈ l.url := by
  rw [← l.url_eq, ← l.climbed_append_clean]
  exact List.mem_append_left _ (List.mem_append_left _ (List.mem_append_right _ h))

/-- The names of the pages can stand in an address. -/
theorem pages_urls : ∀ page ∈ pages, page.2.toList ≠ [] ∧ ')' ∉ page.2.toList := by
  decide +kernel

theorem blobUrl_url : blobUrl ≠ [] ∧ ')' ∉ blobUrl := by decide

theorem wiki_url {wiki : List Char} (h : l.outcome = .page wiki) : wiki ≠ [] ∧ ')' ∉ wiki := by
  rcases exists_page_of_lookupPage (lookupPage_of_outcome h) with rfl | ⟨page, hpage, rfl⟩
  · decide
  · exact pages_urls page hpage

theorem rewrittenUrl_ne_nil (l : Link) : l.rewrittenUrl ≠ [] := by
  rw [rewrittenUrl]
  cases houtcome : l.outcome with
  | same => exact l.url_ne_nil
  | page wiki => exact List.append_ne_nil_of_left_ne_nil (wiki_url houtcome).1 _
  | blob =>
    rw [List.append_assoc]
    exact List.append_ne_nil_of_left_ne_nil blobUrl_url.1 _

theorem notMem_rewrittenUrl (l : Link) : ')' ∉ l.rewrittenUrl := by
  have hanchor : ')' ∉ l.anchor := fun h => l.notMem_url (mem_url_of_mem_anchor h)
  have hclean : ')' ∉ l.clean := fun h => l.notMem_url (mem_url_of_mem_clean h)
  rw [rewrittenUrl]
  cases houtcome : l.outcome with
  | same => exact l.notMem_url
  | page wiki =>
    rw [List.mem_append, not_or]
    exact ⟨(wiki_url houtcome).2, hanchor⟩
  | blob =>
    rw [List.append_assoc, List.mem_append, List.mem_append, not_or, not_or]
    exact ⟨blobUrl_url.2, hclean, hanchor⟩

/-- The link with its new address. -/
def rewritten (l : Link) : Link where
  label := l.label
  url := l.rewrittenUrl
  label_ne_nil := l.label_ne_nil
  notMem_label := l.notMem_label
  url_ne_nil := l.rewrittenUrl_ne_nil
  notMem_url := l.notMem_rewrittenUrl

theorem text_rewritten (l : Link) : l.rewritten.text = l.replacement := by
  change linkText l.label l.rewrittenUrl = l.replacement
  rw [rewrittenUrl, replacement]
  cases l.outcome <;> rfl

end Link

/-! ### Reading the pages again -/

variable {page : String × String} {text : List Char}

theorem split_text_append (l : Link) (s : List Char) :
    linkRe.split (l.text ++ s) = .inr l :: linkRe.split s :=
  Pattern.split_append_of_some (P := linkRe) (Link.find_text_append l s)

theorem target_edits_eq_sub (text : List Char) :
    Script.target (edits text) = linkRe.sub (Link.text ∘ Link.rewritten) text := by
  have hfun : Link.text ∘ Link.rewritten = Link.replacement := funext Link.text_rewritten
  rw [hfun, edits, target_parts]
  rfl

theorem split_target_edits (text : List Char) :
    linkRe.split (Script.target (edits text)) =
      (linkRe.split text).map (Sum.map id Link.rewritten) := by
  rw [target_edits_eq_sub]
  exact Pattern.split_sub (P := linkRe) (fun m s => Link.find_text_append m.rewritten s)
    (fun _ _ => Link.find_cons_sub Link.rewritten) text

/-- The sources of the pages can stand in a label and in an address. -/
theorem pages_sources : ∀ page ∈ pages, ']' ∉ page.1.toList ∧ ')' ∉ page.1.toList := by
  decide +kernel

/-- The link to the source of a page. -/
def sourceLink (hpage : page ∈ pages) : Link where
  label := '`' :: page.1.toList ++ ['`']
  url := blobUrl ++ page.1.toList
  label_ne_nil := List.cons_ne_nil _ _
  notMem_label := by simp [(pages_sources page hpage).1]
  url_ne_nil := List.append_ne_nil_of_left_ne_nil Link.blobUrl_url.1 _
  notMem_url := by simp [(pages_sources page hpage).2, Link.blobUrl_url.2]

theorem header_eq (hpage : page ∈ pages) : header page.1.toList = "> Source: ".toList ++
    ((sourceLink hpage).text ++ " in the main repository.\n\n".toList) := by
  have hopen : "> Source: [`".toList = "> Source: ".toList ++ ['[', '`'] := rfl
  have hmiddle : "`](".toList = ['`', ']', '('] := rfl
  have hclose : ") in the main repository.\n\n".toList =
      ')' :: " in the main repository.\n\n".toList := rfl
  unfold header
  rw [hopen, hmiddle, hclose, Link.text_append, sourceLink]
  simp only [List.append_assoc, List.cons_append, List.nil_append]

theorem split_header_append (hpage : page ∈ pages) (s : List Char) :
    linkRe.split (header page.1.toList ++ s) = "> Source: ".toList.map .inl ++
      .inr (sourceLink hpage) :: (" in the main repository.\n\n".toList.map .inl ++
        linkRe.split s) := by
  have hplain {u : List Char} (hu : '[' ∉ u) (t : List Char) :
      linkRe.split (u ++ t) = u.map .inl ++ linkRe.split t :=
    Pattern.split_append_of_none fun c hc => Link.find_cons_of_ne fun h => hu (h ▸ hc)
  rw [header_eq hpage, List.append_assoc, List.append_assoc, hplain (by decide),
    split_text_append, hplain (by decide)]

/-- **The links of the published pages.** The file of a page, read again with the pattern of the
publisher, has the link to its source in the header, and then the links of the source, each at its
place, with its label and its new address; all other text is that of the source, and there are no
other links. -/
theorem published_split {docs : Docs} {d d' : Directory} (h : sync docs d = some d')
    (hpage : page ∈ pages) (htext : docs.root page.1 = some text) :
    ∃ published, d' (mdFile page.2.toList) = some published ∧
      linkRe.split published = "> Source: ".toList.map .inl ++ .inr (sourceLink hpage) ::
        (" in the main repository.\n\n".toList.map .inl ++
          (linkRe.split text).map (Sum.map id Link.rewritten)) := by
  obtain ⟨-, rfl⟩ := sync_eq_some_iff.mp h
  refine ⟨header page.1.toList ++ Script.target (edits text), ?_, ?_⟩
  · beta_reduce
    rw [if_pos (isMarkdown_page hpage), file_mdFile hpage, Docs.pageText, htext]
    rfl
  · rw [split_header_append hpage, split_target_edits]

/-- The documentation in which all pages are the link `[guide](asio.md)`. -/
def guideDocs : Docs := { emptyDocs with root := fun _ => some guideLink.text }

theorem split_guideLink : linkRe.split guideLink.text = [.inr guideLink] := by
  rw [← List.append_nil guideLink.text, split_text_append]
  rfl

theorem rewritable_guideDocs : guideDocs.Rewritable pages := by
  intro page hpage text htext p hp
  obtain rfl : guideLink.text = text := Option.some.inj htext
  rw [linksOf, split_guideLink] at hp
  obtain rfl : p = (0, guideLink) := List.mem_singleton.mp hp
  exact .inr (.inl (by rw [lookupPage_guideLink]; rfl))

/-- The page of the libraries, in an empty wiki. -/
theorem published_split_guideLink :
    ∃ hpage : ("docs/libraries/README.md", "Libraries-Index") ∈ pages, ∃ d' published,
      sync guideDocs (fun _ => none) = some d' ∧
      d' (mdFile "Libraries-Index".toList) = some published ∧
      linkRe.split published = "> Source: ".toList.map .inl ++ .inr (sourceLink hpage) ::
        (" in the main repository.\n\n".toList.map .inl ++ [.inr guideLink.rewritten]) := by
  have hpage : ("docs/libraries/README.md", "Libraries-Index") ∈ pages := by simp [pages]
  have hsync := sync_eq_some_iff (d := fun _ => none) |>.mpr ⟨rewritable_guideDocs, rfl⟩
  obtain ⟨published, hfile, hsplit⟩ := published_split hsync hpage rfl
  rw [split_guideLink] at hsplit
  exact ⟨hpage, _, published, hsync, hfile, hsplit⟩

end SystemsStack.Wiki
