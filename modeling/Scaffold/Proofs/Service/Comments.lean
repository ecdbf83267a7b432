import Scaffold.Proofs.Go.Remarks
import Scaffold.Proofs.Service.Merging

/-!
# Comments outside functions

What regeneration makes of the comments that stand outside the declarations of functions. Free comments
stay, and so do those above helpers and above implementations that an action takes (`KeepsComment`), down
to a drift. The comments above all other functions have no part in what is written: neither the new file
nor the archive can tell which ones they were (`regenerate_comments`), so that the comment above an
implementation that is archived is lost (`comment_lost_in_archive`).
-/

namespace Scaffold.Service

open Text Go Naming

/-- An old function that is written with its comment: a helper, or an implementation that an action
takes. -/
def KeepsComment (claimed : List Text) (fs : List Function) (f : Function) : Prop :=
  f ∈ helpers claimed fs ∨ isStub f = false ∧ f.name ∈ claimed ∧
    (sortFunctions claimed fs).previous.get? f.name = some f

/-! ## Comments that stay -/

section

variable {header : Text} {blocks : List Text} {fs : List Function}

/-- A file that is laid out holds its header. -/
theorem header_infix_layout : header <:+: layout header blocks fs := by
  unfold layout
  rw [List.append_assoc, List.append_assoc]
  exact (List.prefix_append _ _).isInfix

theorem block_infix_layout {block : Text} (h : block ∈ blocks) : block <:+: layout header blocks fs := by
  have hblock : block ++ blankLine <:+: blocks.flatMap (· ++ blankLine) :=
    List.infix_of_mem_flatten (List.mem_map_of_mem (f := (· ++ blankLine)) h)
  unfold layout
  exact ((List.prefix_append _ _).isInfix.trans hblock).trans (List.infix_append _ _ _)

/-- It holds the comments above its functions. -/
theorem comment_infix_layout {f : Function} {comment : Text} (hf : f ∈ fs)
    (h : f.leadingComment = some comment) : comment <:+: layout header blocks fs := by
  have hcomment : comment <:+: verbatim f := by
    rw [verbatim, h]
    simp only [Option.elim_some, List.append_assoc]
    exact (List.prefix_append _ _).isInfix
  have hfunctions : verbatim f <:+: fs.flatMap verbatim :=
    List.infix_of_mem_flatten (List.mem_map_of_mem hf)
  exact (hcomment.trans hfunctions).trans (List.suffix_append _ _).isInfix

end

variable {responses : Schema.Registry} {g : Group}

/-- Where a comment is kept, what is written has it above a function, below the banner at most. -/
theorem KeepsComment.exists_written {fs : List Function} {f : Function}
    (h : KeepsComment (g.actions.map functionName) fs f) {ls : List Lexeme} {l : Lexeme}
    (hcomment : f.leadingComment = some (textOf ls))
    (hreads : ∀ s : Text, s.head? = some '\n' → Reads ls s) (hl : l ∈ ls) (hkind : l.kind = .comment)
    (hbanner : l.text ≠ trimEnd driftBanner) :
    ∃ f' ∈ written responses g fs, ∃ comment, f'.leadingComment = some comment ∧
      l.text <:+: comment := by
  -- a helper is written as it is; a claimed function is kept or drifts
  rcases h with hhelper | ⟨hstub, hname, hget⟩
  · refine ⟨f, List.mem_append_left _ ?_, _, hcomment, infix_textOf hl⟩
    rwa [carried_eq_helpers]
  · obtain ⟨a, -, hclaim⟩ := exists_mem_claims hget hname
    refine ⟨successor responses a (some f),
      List.mem_append_right _ (List.mem_map_of_mem (f := successorOf responses) hclaim), ?_⟩
    rcases successor_cases responses a (some f) with ⟨hnone, -⟩ | ⟨_, ⟨⟩, -, ⟨-, hkept⟩ | ⟨-, hdrift⟩⟩
    · simp [hstub] at hnone
    · rw [hkept]
      exact ⟨_, hcomment, infix_textOf hl⟩
    · rw [hdrift]
      exact ⟨_, rfl, (infix_commentWithoutBanner hcomment hreads hl hkind hbanner).trans
        (commentWithoutBanner_isInfix f)⟩

/-! ## Comments without a part -/

/-- A function under another comment. -/
def remarked (remark : Function → Option Text) (f : Function) : Function :=
  { f with leadingComment := remark f }

variable {remark : Function → Option Text}

/-- The table of old functions depends on comments only in what it holds. -/
theorem previous_remarked (claimed : List Text) (fs : List Function) :
    (sortFunctions claimed (fs.map (remarked remark))).previous =
      (sortFunctions claimed fs).previous.map (remarked remark) := by
  refine Table.ext_get? fun name => ?_
  rw [Table.get?_map, get?_previous, get?_previous, List.filter_map, ← List.map_reverse, List.find?_map]
  rfl

theorem helpers_remarked (claimed : List Text) (fs : List Function) :
    helpers claimed (fs.map (remarked remark)) = (helpers claimed fs).map (remarked remark) :=
  List.filter_map

theorem clashing_remarked (claimed : List Text) (fs : List Function) :
    (sortFunctions claimed (fs.map (remarked remark))).clashing =
      (sortFunctions claimed fs).clashing.map (remarked remark) := by
  show ((fs.map (remarked remark)).filter (!answers ·)).filter (claimed.contains ·.name) =
    ((fs.filter (!answers ·)).filter (claimed.contains ·.name)).map (remarked remark)
  rw [List.filter_map, List.filter_map]
  rfl

theorem claims_remarked (actions : List Action) (t : Table Text Function) :
    claims actions (t.map (remarked remark)) =
      (claims actions t).map fun c => (c.1, c.2.map (remarked remark)) := by
  induction actions generalizing t with
  | nil => rfl
  | cons a rest ih => rw [claims, claims, List.map_cons, Table.erase_map, ih, Table.get?_map]

theorem unclaimed_remarked (actions : List Action) (t : Table Text Function) :
    unclaimed actions (t.map (remarked remark)) = (unclaimed actions t).map (remarked remark) := by
  induction actions generalizing t with
  | nil => rfl
  | cons a rest ih => rw [unclaimed, unclaimed, Table.erase_map, ih]

/-- What is written does not depend on comments that are not kept. -/
theorem written_remarked {fs : List Function}
    (hremark : ∀ f ∈ fs, KeepsComment (g.actions.map functionName) fs f → remark f = f.leadingComment) :
    written responses g (fs.map (remarked remark)) = written responses g fs := by
  have hsame : ∀ f ∈ fs, KeepsComment (g.actions.map functionName) fs f → remarked remark f = f := by
    intro f hf hkeeps
    rw [remarked, hremark f hf hkeeps]
  unfold written
  simp only [carried_eq_helpers, helpers_remarked, previous_remarked, claims_remarked, List.map_map]
  -- the helpers keep their comments; a claimed function keeps its comment unless it is a stub
  congr 1
  · refine List.map_congr_left (fun f hf => ?_) |>.trans (List.map_id _)
    exact hsame f (List.mem_of_mem_filter hf) (.inl hf)
  · refine List.map_congr_left fun ⟨a, old⟩ hclaim => ?_
    obtain ⟨ha, hold⟩ := of_mem_claims hclaim
    cases old with
    | none => rfl
    | some f =>
      show successor responses a (some (remarked remark f)) = successor responses a (some f)
      cases hstub : isStub f with
      | true =>
        have hstub' : isStub (remarked remark f) = true := hstub
        simp [successor, Option.filter, hstub, hstub']
      | false =>
        obtain ⟨hf, -, hname⟩ := of_get?_previous (hold f rfl)
        have hkeeps : KeepsComment (g.actions.map functionName) fs f := by
          refine .inr ⟨hstub, ?_, ?_⟩
          · rw [hname]
            exact List.mem_map_of_mem ha
          · rw [hname]
            exact hold f rfl
        rw [hsame f hf hkeeps]

/-- The leftovers with other comments are the same functions. -/
theorem leftovers_remarked (s : Setting) (responses : Schema.Registry) (g : Group)
    (remark : Function → Option Text) {existing existing' : Option Text}
    (h : (oldFile existing').functions = (oldFile existing).functions.map (remarked remark)) :
    (regenerate s responses g existing').leftovers =
      (regenerate s responses g existing).leftovers.map (remarked remark) := by
  unfold regenerate
  simp only [claim_eq, h, previous_remarked, clashing_remarked, unclaimed_remarked, Table.values_map,
    ← List.map_append]
  refine (List.map_mergeSort ?_).symm
  exact fun _ _ _ _ => rfl

/-- The archive has no comments that stand above functions. -/
theorem archive?_remarked (package : Text) (existing : Option Text) (fs : List Function) (stamp : Text) :
    archive? package existing (fs.map (remarked remark)) stamp = archive? package existing fs stamp := by
  have hfilter : (fs.map (remarked remark)).filter (!isStub ·) =
      (fs.filter (!isStub ·)).map (remarked remark) := List.filter_map
  unfold archive?
  rw [hfilter]
  cases fs.filter (!isStub ·) with
  | nil => rfl
  | cons f fs =>
    simp only [List.map_cons, List.flatMap_cons, List.flatMap_map]
    rfl

/-! ## Over a whole file -/

/-- Over every file with a package clause, a comment that stands free stays up to white space at its end,
and so does, as it is, a comment above a function that keeps it, unless it is a banner. Other comments above
the functions that do not keep them would give the same file and the same archive. -/
theorem regenerate_comments (s : Setting) (responses : Schema.Registry) (g : Group)
    {content header : Text} (hheader : (File.parse content).header = some header) :
    let ls := lex content
    let fs := (File.parse content).functions
    let claimed := g.actions.map functionName
    let out := regenerate s responses g (some content)
    (∀ k l, ls[k]? = some l → l.kind = .comment → IsFree ls k → trimEnd l.text <:+: out.content) ∧
      (∀ p ∈ placed ls, KeepsComment claimed fs p.function → ∀ k l, ls[k]? = some l →
        l.kind = .comment → p.IsAbove ls k → l.text ≠ trimEnd driftBanner → l.text <:+: out.content) ∧
      ∀ (remark : Function → Option Text) (content' : Text),
        (∀ f ∈ fs, KeepsComment claimed fs f → remark f = f.leadingComment) →
        (File.parse content').header = some header →
        (File.parse content').declarations = (File.parse content).declarations →
        (File.parse content').functions = fs.map (remarked remark) →
        let out' := regenerate s responses g (some content')
        out'.content = out.content ∧ ∀ backup stamp,
          archive? g.owner.package backup out'.leftovers stamp =
            archive? g.owner.package backup out.leftovers stamp := by
  intro ls fs claimed out
  have hout : out.content = layout header (File.parse content).declarations (written responses g fs) := by
    show (regenerate s responses g (some content)).content = _
    rw [regenerate_content, oldFile_of_header hheader, hheader]
    rfl
  refine ⟨fun k l hl hkind hfree => ?_, fun p hp hkeeps k l hl hkind habove hbanner => ?_,
    fun remark content' hremark hheader' hblocks hfunctions => ?_⟩
  · rw [hout]
    rcases infix_of_isFree hl hkind hfree with ⟨header', hheader', hinfix⟩ | ⟨block, hblock, hinfix⟩
    · obtain rfl : header = header' := Option.some.inj (hheader.symm.trans hheader')
      exact ((trimEnd_isPrefix _).isInfix.trans hinfix).trans header_infix_layout
    · exact hinfix.trans (block_infix_layout hblock)
  · obtain ⟨cs, hcomment, hmem, hreads⟩ := exists_comments_of_isAbove hp hl hkind habove
    obtain ⟨f', hf', comment, hcomment', hinfix⟩ : ∃ f' ∈ written responses g fs,
        ∃ comment, f'.leadingComment = some comment ∧ l.text <:+: comment :=
      hkeeps.exists_written hcomment hreads hmem hkind hbanner
    rw [hout]
    exact hinfix.trans (comment_infix_layout hf' hcomment')
  · refine ⟨?_, fun backup stamp => ?_⟩
    · rw [hout, regenerate_content, oldFile_of_header hheader', hheader', hblocks, hfunctions,
        written_remarked hremark]
      rfl
    · have hold : (oldFile (some content')).functions =
          (oldFile (some content)).functions.map (remarked remark) := by
        rw [oldFile_of_header hheader, oldFile_of_header hheader', hfunctions]
      rw [leftovers_remarked s responses g remark hold, archive?_remarked]

/-- A group whose actions are all gone. -/
private def retired : Group where
  owner := ⟨"shop".toList, "user".toList⟩
  kind := .query
  hasUpload := false
  actions := []

/-- A free comment, one above a helper, and `remark` above an implementation. -/
private def remarksFile (remark : Text) : Text :=
  "package user\n\n// In years.\n\n// Twice as many.\nfunc double(n int) int \x7b\n".toList ++
    "\treturn 2 * n\n\x7d\n\n".toList ++ remark ++
    "\nfunc FindQuery() \x7b\n\treturn &response, nil\n\x7d\n".toList

private def findRemark : Text := "// FindQuery finds users.".toList

private def otherRemark : Text := "// Finds them.".toList

/-- A free comment and one above a helper stay; the one above a retired function does not matter. -/
theorem regenerate_comments_users :
    let out := regenerate default .empty retired (some (remarksFile findRemark))
    "// In years.".toList <:+: out.content ∧ "// Twice as many.".toList <:+: out.content ∧
      (regenerate default .empty retired (some (remarksFile otherRemark))).content =
        out.content := by
  -- the kernel is slow to decode strings, so lists of characters take the place of the texts
  have hfile : (File.parse (remarksFile findRemark)).header = some "package user".toList ∧
      (lex (remarksFile findRemark))[4]? = some ⟨.comment, "// In years.".toList⟩ ∧
      IsFree (lex (remarksFile findRemark)) 4 ∧
      (lex (remarksFile findRemark))[6]? = some ⟨.comment, "// Twice as many.".toList⟩ ∧
      ∃ p ∈ placed (lex (remarksFile findRemark)), p.IsAbove (lex (remarksFile findRemark)) 6 ∧
        p.function ∈ helpers [] (File.parse (remarksFile findRemark)).functions := by
    unfold remarksFile findRemark
    repeat rw [String.toList_ofList]
    decide +kernel
  have hsame : (File.parse (remarksFile otherRemark)).header = some "package user".toList ∧
      (File.parse (remarksFile otherRemark)).declarations =
        (File.parse (remarksFile findRemark)).declarations ∧
      (File.parse (remarksFile otherRemark)).functions =
        (File.parse (remarksFile findRemark)).functions.map (remarked fun f =>
          if f.leadingComment = some findRemark then some otherRemark else f.leadingComment) ∧
      ∀ f ∈ (File.parse (remarksFile findRemark)).functions,
        f ∈ helpers [] (File.parse (remarksFile findRemark)).functions →
          f.leadingComment ≠ some findRemark := by
    unfold remarksFile findRemark otherRemark
    repeat rw [String.toList_ofList]
    decide +kernel
  obtain ⟨hheader, hfree, hisFree, hattached, p, hp, habove, hhelper⟩ := hfile
  obtain ⟨hheader', hblocks, hfunctions, hkept⟩ := hsame
  obtain ⟨hstay, hstay', hnone⟩ := regenerate_comments default .empty retired hheader
  refine ⟨hstay 4 _ hfree rfl hisFree, hstay' p hp (.inl hhelper) 6 _ hattached rfl habove ?_, ?_⟩
  · unfold driftBanner
    simp only [String.toList_append]
    repeat rw [String.toList_ofList]
    decide +kernel
  · refine (hnone _ _ ?_ hheader' hblocks hfunctions).1
    rintro f hf (hf' | ⟨-, hclaimed, -⟩)
    · exact if_neg (hkept f hf hf')
    · exact absurd hclaimed List.not_mem_nil

/-- An implementation with a comment above it. -/
private def remarkedFile : Text :=
  ("package user\n\n// FindQuery finds users.\nfunc FindQuery() \x7b\n" ++
    "\treturn &response, nil\n\x7d\n").toList

/-- The comment above an implementation that no action takes is neither in the new file nor in the
archive. -/
theorem comment_lost_in_archive :
    let ls := lex remarkedFile
    let remark := "// FindQuery finds users.".toList
    let out := regenerate default .empty retired (some remarkedFile)
    (∃ p ∈ placed ls, p.IsAbove ls 4 ∧ ls[4]? = some ⟨.comment, remark⟩) ∧
      occursIn remark out.content = false ∧
      ∃ archive ∈ archive? "user".toList none out.leftovers "07032024_090501".toList,
        occursIn remark archive = false := by
  unfold remarkedFile
  rw [String.toList_append]
  repeat rw [String.toList_ofList]
  decide +kernel

end Scaffold.Service
