import SystemsStack.Core.PosixPath
import SystemsStack.Core.Substitution
import SystemsStack.Core.WhileLoop
import Mathlib.Data.List.TakeWhile
import Mathlib.Data.List.Infix

/-!
# The wiki publisher

`scripts/publish_wiki.py` copies pages of the documentation to a wiki and rewrites the links in
them. A link is looked up by its path and by its file name, then by its path resolved against the
directory of the page; a link that is not found is sent to the repository on the web. This file
embeds the tables and the rewriting. Texts are lists of characters, and paths are those of POSIX.

Source: `scripts/publish_wiki.py`, lines 27–140.

## Main definitions

* `SystemsStack.Wiki.pages`, `SystemsStack.Wiki.extraMap`, `SystemsStack.Wiki.buildPathMap`.
* `SystemsStack.Wiki.Link`, `SystemsStack.Wiki.linkRe`: what `LINK_RE` matches.
* `SystemsStack.Wiki.parentRe`, `SystemsStack.Wiki.resolvedPath`: the loop that resolves a path.
* `SystemsStack.Wiki.repl`, `SystemsStack.Wiki.rewriteLinks`. There is no result when the loop does
  not end.
-/

namespace SystemsStack.Wiki

open Core

/-! ### The tables -/

/-- `PAGES`: sources and the names of their pages. -/
def pages : List (String × String) :=
  [("docs/blueprint/README.md", "Blueprint-Overview"),
   ("docs/blueprint/LOW_LATENCY_STACK.md", "Blueprint-Low-Latency-Stack"),
   ("docs/blueprint/AUDIT.md", "Blueprint-Audit"),
   ("docs/blueprint/01-hardware-os.md", "Blueprint-01-Hardware-OS"),
   ("docs/blueprint/02-network-ingress.md", "Blueprint-02-Network-Ingress"),
   ("docs/blueprint/03-memory.md", "Blueprint-03-Memory"),
   ("docs/blueprint/04-concurrency.md", "Blueprint-04-Concurrency"),
   ("docs/blueprint/05-compiler.md", "Blueprint-05-Compiler"),
   ("docs/blueprint/06-telemetry.md", "Blueprint-06-Telemetry"),
   ("docs/blueprint/07-industry-libraries.md", "Blueprint-07-Industry-Libraries"),
   ("docs/tutorials/industry-stack.md", "Tutorial-Industry-Stack"),
   ("docs/tutorials/sbe-codegen.md", "Tutorial-SBE-Codegen"),
   ("docs/tutorials/linux-numa-uring.md", "Tutorial-Linux-NUMA-io-uring"),
   ("docs/tutorials/hdrhistogram-c.md", "Tutorial-HdrHistogram-C"),
   ("docs/tutorials/kernel-bypass-lab.md", "Tutorial-Kernel-Bypass-Lab"),
   ("docs/tutorials/ninja-build.md", "Tutorial-Ninja-Build"),
   ("docs/tutorials/modern-cpp-tooling-arm-intel.md", "Tutorial-Modern-Cpp-Tooling-ARM-Intel"),
   ("docs/libraries/README.md", "Libraries-Index"),
   ("docs/libraries/asio.md", "Library-Asio"),
   ("docs/libraries/beast.md", "Library-Beast"),
   ("docs/libraries/taskflow.md", "Library-Taskflow"),
   ("docs/libraries/tbb.md", "Library-TBB"),
   ("docs/libraries/stdexec.md", "Library-stdexec"),
   ("docs/libraries/simdjson.md", "Library-simdjson"),
   ("docs/libraries/grpc-protobuf.md", "Library-gRPC-Protobuf"),
   ("docs/libraries/folly.md", "Library-Folly"),
   ("docs/libraries/hpx.md", "Library-HPX"),
   ("docs/clion.md", "CLion-Setup"),
   ("cmake/toolchains/README.md", "CMake-Toolchains")]

/-- `EXTRA_MAP`. -/
def extraMap : List (String × String) :=
  [("blueprint/README.md", "Blueprint-Overview"),
   ("blueprint/AUDIT.md", "Blueprint-Audit"),
   ("blueprint/LOW_LATENCY_STACK.md", "Blueprint-Low-Latency-Stack"),
   ("blueprint/01-hardware-os.md", "Blueprint-01-Hardware-OS"),
   ("blueprint/02-network-ingress.md", "Blueprint-02-Network-Ingress"),
   ("blueprint/03-memory.md", "Blueprint-03-Memory"),
   ("blueprint/04-concurrency.md", "Blueprint-04-Concurrency"),
   ("blueprint/05-compiler.md", "Blueprint-05-Compiler"),
   ("blueprint/06-telemetry.md", "Blueprint-06-Telemetry"),
   ("blueprint/07-industry-libraries.md", "Blueprint-07-Industry-Libraries"),
   ("../blueprint/AUDIT.md", "Blueprint-Audit"),
   ("../blueprint/05-compiler.md", "Blueprint-05-Compiler"),
   ("../blueprint/07-industry-libraries.md", "Blueprint-07-Industry-Libraries"),
   ("../blueprint/README.md", "Blueprint-Overview"),
   ("../clion.md", "CLion-Setup"),
   ("clion.md", "CLion-Setup"),
   ("industry-stack.md", "Tutorial-Industry-Stack"),
   ("sbe-codegen.md", "Tutorial-SBE-Codegen"),
   ("linux-numa-uring.md", "Tutorial-Linux-NUMA-io-uring"),
   ("hdrhistogram-c.md", "Tutorial-HdrHistogram-C"),
   ("kernel-bypass-lab.md", "Tutorial-Kernel-Bypass-Lab"),
   ("ninja-build.md", "Tutorial-Ninja-Build"),
   ("modern-cpp-tooling-arm-intel.md", "Tutorial-Modern-Cpp-Tooling-ARM-Intel"),
   ("asio.md", "Library-Asio"),
   ("beast.md", "Library-Beast"),
   ("taskflow.md", "Library-Taskflow"),
   ("tbb.md", "Library-TBB"),
   ("stdexec.md", "Library-stdexec"),
   ("simdjson.md", "Library-simdjson"),
   ("grpc-protobuf.md", "Library-gRPC-Protobuf"),
   ("folly.md", "Library-Folly"),
   ("hpx.md", "Library-HPX"),
   ("../../README.md", "Home"),
   ("../README.md", "Home"),
   ("cmake/toolchains/README.md", "CMake-Toolchains")]

/-- A dictionary, with the entries added last in front. -/
abbrev PathMap := List (List Char × List Char)

/-- `build_path_map`. -/
def buildPathMap : PathMap :=
  pages.foldl
    (fun m page =>
      ((PosixPath.ofText page.1.toList).name, page.2.toList) ::
        (page.1.toList, page.2.toList) :: m)
    (extraMap.map fun entry => (entry.1.toList, entry.2.toList))

/-- The start of the address of a file on the web, from `OWNER_REPO`. -/
def blobUrl : List Char := "https://github.com/Dmdv/cpp26-systems-stack/blob/main/".toList

/-! ### Links -/

/-- `[label](url)`. -/
def linkText (label url : List Char) : List Char :=
  '[' :: label ++ ']' :: '(' :: url ++ [')']

/-- The groups of a match of `LINK_RE`. -/
structure Link where
  label : List Char
  url : List Char
  label_ne_nil : label ≠ []
  notMem_label : ']' ∉ label
  url_ne_nil : url ≠ []
  notMem_url : ')' ∉ url
  deriving DecidableEq

theorem notMem_takeWhile_ne (a : Char) (s : List Char) : a ∉ s.takeWhile (· ≠ a) :=
  fun h => of_decide_eq_true (List.mem_takeWhile_imp (p := fun c => decide (c ≠ a)) h) rfl

namespace Link

/-- The match of `LINK_RE` at the head of a text. -/
def find : List Char → Option Link
  | '[' :: s =>
    match s.dropWhile (· ≠ ']') with
    | ']' :: '(' :: t =>
      match t.dropWhile (· ≠ ')') with
      | ')' :: _ =>
        if h : s.takeWhile (· ≠ ']') ≠ [] ∧ t.takeWhile (· ≠ ')') ≠ [] then
          some
            { label := s.takeWhile (· ≠ ']')
              url := t.takeWhile (· ≠ ')')
              label_ne_nil := h.1
              notMem_label := notMem_takeWhile_ne ']' s
              url_ne_nil := h.2
              notMem_url := notMem_takeWhile_ne ')' t }
        else
          none
      | _ => none
    | _ => none
  | _ => none

variable (l : Link)

/-- `match.group(0)`. -/
def text : List Char := linkText l.label l.url

/-- The schemes, and the links within a page, that are left alone. -/
def Exempt : Prop :=
  ∃ start ∈ ["http://", "https://", "mailto:", "#"], start.toList <+: l.url

instance : Decidable l.Exempt :=
  inferInstanceAs (Decidable (∃ start ∈ ["http://", "https://", "mailto:", "#"], _))

/-- The path of the url, without query and anchor. -/
def path : List Char := (l.url.takeWhile (· ≠ '#')).takeWhile (· ≠ '?')

/-- The query, with its question mark. -/
def query : List Char := (l.url.takeWhile (· ≠ '#')).dropWhile (· ≠ '?')

/-- The anchor, with its hash. -/
def anchor : List Char := l.url.dropWhile (· ≠ '#')

end Link

theorem Link.prefix_of_find {s : List Char} {l : Link} (h : Link.find s = some l) :
    l.text <+: s := by
  unfold Link.find at h
  split at h <;> try cases h
  rename_i s
  split at h <;> try cases h
  rename_i t ht
  split at h <;> try cases h
  rename_i u hu
  split_ifs at h
  obtain rfl := Option.some.inj h
  have hs := List.takeWhile_append_dropWhile (p := fun c => decide (c ≠ ']')) (l := s)
  have ht' := List.takeWhile_append_dropWhile (p := fun c => decide (c ≠ ')')) (l := t)
  rw [ht] at hs
  rw [hu] at ht'
  refine ⟨u, ?_⟩
  simp only [Link.text, linkText, List.cons_append, List.append_assoc, List.nil_append]
  rw [ht', hs]

/-- `LINK_RE`. -/
def linkRe : Pattern Char Link where
  find := Link.find
  source := Link.text
  source_ne_nil _ := List.cons_ne_nil _ _
  prefix_of_find := Link.prefix_of_find

/-! ### The path of a link -/

/-- The match of `[^/]+/\.\./` at the head of a text: what is before the first slash. -/
def findParent (s : List Char) : Option (List Char) :=
  if s.takeWhile (· ≠ '/') ≠ [] ∧ "/../".toList <+: s.dropWhile (· ≠ '/') then
    some (s.takeWhile (· ≠ '/'))
  else
    none

theorem prefix_of_findParent {s c : List Char} (h : findParent s = some c) :
    c ++ "/../".toList <+: s := by
  rw [findParent] at h
  split_ifs at h with hc
  obtain rfl := Option.some.inj h
  conv => right; rw [← List.takeWhile_append_dropWhile (p := fun c => decide (c ≠ '/')) (l := s)]
  exact (List.prefix_append_right_inj _).mpr hc.2

/-- A component, and the `..` behind it. -/
def parentRe : Pattern Char (List Char) where
  find := findParent
  source c := c ++ "/../".toList
  source_ne_nil _ := List.append_ne_nil_of_right_ne_nil _ (by decide)
  prefix_of_find := prefix_of_findParent

/-- The test `"/../" in resolved`. -/
def hasParent (s : List Char) : Bool := decide ("/../".toList <:+: s)

/-- The path of a link before the loop: `(Path(source_rel).parent / path).as_posix()`. -/
def joinedPath (sourceRel path : List Char) : PosixPath :=
  (PosixPath.ofText sourceRel).parent.join (.ofText path)

/-- The path after the loop, if it ends. Within as many rounds as there are characters, the loop
ends or comes to a text that it does not change. -/
def resolvedPath (sourceRel path : List Char) : Option (List Char) :=
  whileLoop hasParent parentRe.erase (joinedPath sourceRel path).text.length
    (joinedPath sourceRel path).text

/-- The path without leading `../`. -/
def stripParents : List Char → List Char
  | '.' :: '.' :: '/' :: s => stripParents s
  | s => s

/-! ### Rewriting -/

/-- `path_map.get(path) or path_map.get(Path(path).name)`, where an empty name is passed over. -/
def lookupPage (pathMap : PathMap) (path : List Char) : Option (List Char) :=
  match pathMap.lookup path with
  | none | some [] => pathMap.lookup (PosixPath.ofText path).name
  | some wiki => some wiki

/-- `repl`: the replacement of a link, if the loop ends. Nothing raises in the `try` block, and both
branches behind it return the same. -/
def repl (pathMap : PathMap) (sourceRel : List Char) (l : Link) : Option (List Char) :=
  if l.Exempt then
    some l.text
  else
    match lookupPage pathMap l.path with
    | some wiki => some (linkText l.label (wiki ++ l.anchor))
    | none =>
      (resolvedPath sourceRel l.path).map fun resolved =>
        match pathMap.lookup resolved with
        | some wiki => linkText l.label (wiki ++ l.anchor)
        | none =>
          if stripParents l.path ≠ [] ∧ ¬"http".toList <+: stripParents l.path then
            linkText l.label (blobUrl ++ stripParents l.path ++ l.anchor)
          else
            l.text

/-- `rewrite_links`. -/
def rewriteLinks (text sourceRel : List Char) (pathMap : PathMap) : Option (List Char) :=
  linkRe.subM (repl pathMap sourceRel) text

example : resolvedPath "docs/blueprint/README.md".toList "../tutorials/".toList =
    some "docs/tutorials".toList := by
  decide +kernel

end SystemsStack.Wiki
