import Scaffold.Proofs.Go.Writing
import Scaffold.Proofs.Service.Layout
import Scaffold.Service.Archive

/-!
# Headers that are written anew

A new service file starts with a package clause and a list of imports, a new archive with a build
constraint and a package clause. Both are headers (`isHeaderText_freshClause`,
`isHeaderText_archiveClause`) if the package is called by a name other than `func`, and if no import
holds a quote, a backslash or a newline.
-/

namespace Scaffold.Service

open Text Go Naming

/-! ## Import paths -/

/-- An import path that can be quoted. -/
def IsQuotable (path : Text) : Prop := ∀ c ∈ path, c ≠ '"' ∧ c ≠ '\\' ∧ c ≠ '\n'

instance (path : Text) : Decidable (IsQuotable path) :=
  inferInstanceAs (Decidable (∀ c ∈ path, c ≠ '"' ∧ c ≠ '\\' ∧ c ≠ '\n'))

/-- A quotable path is read up to its quote. -/
private theorem quotedTail_path {path : Text} (h : IsQuotable path) (s : Text) :
    quotedTail '"' (path ++ '"' :: s) = path ++ ['"'] := by
  induction path with
  | nil => rw [List.nil_append, quotedTail_of_ne (by decide)]; rfl
  | cons c path ih =>
    obtain ⟨hquote, hback, hline⟩ := h c (by simp)
    rw [List.cons_append, quotedTail_of_ne hback, if_neg hline, if_neg hquote,
      ih fun d hd => h d (by simp [hd])]
    rfl

/-- The lexemes of a line of imports, from the end of the line before. -/
private def importLexemes (path : Text) : List Lexeme :=
  [⟨.blank, "\n\t".toList⟩, ⟨.literal, '"' :: path ++ ['"']⟩]

/-- The lexemes of the imports spell their lines. -/
private theorem textOf_importLexemes (paths : List Text) :
    textOf (paths.flatMap importLexemes) ++ ['\n'] = '\n' :: paths.flatMap importLine := by
  induction paths with
  | nil => rfl
  | cons path paths ih =>
    have hquote : "\t\"".toList = ['\t', '"'] := by decide
    have hend : "\"\n".toList = ['"', '\n'] := by decide
    have hblank : "\n\t".toList = ['\n', '\t'] := by decide
    rw [List.flatMap_cons, List.flatMap_cons, textOf_append, List.append_assoc, ih, importLexemes,
      importLine, hquote, hend, hblank]
    simp

/-- The imports are read as their lexemes. -/
private theorem reads_importLexemes {paths : List Text} (h : ∀ path ∈ paths, IsQuotable path)
    (s : Text) : Reads (paths.flatMap importLexemes) s := by
  induction paths with
  | nil => trivial
  | cons path paths ih =>
    rw [List.flatMap_cons]
    refine reads_append.2 ⟨⟨?_, ?_, trivial⟩, ih fun p hp => h p (by simp [hp])⟩
    · exact ⟨'\n', ['\t'], rfl, .blank (by decide) (by decide) (by simp [isGap])⟩
    · refine ⟨'"', path ++ ['"'], rfl, .quoted (.inl rfl) ?_⟩
      have htail := quotedTail_path (h path (by simp))
        (textOf (paths.flatMap importLexemes) ++ s)
      simpa using htail

/-- Imports open and close no brackets. -/
private theorem nest_importLexemes (pending : List Char) (paths : List Text) :
    nest pending (paths.flatMap importLexemes) = some pending := by
  induction paths with
  | nil => rfl
  | cons path paths ih =>
    rw [List.flatMap_cons, nest_append]
    cases pending <;> simpa [importLexemes, nest, nestStep, closing?, isClosing] using ih

/-- A header goes on over the imports of its list. -/
private theorem headerLength?_importLexemes (paths : List Text) (seen done : Nat)
    (rest : List Lexeme) :
    headerLength? (.list 0) seen done (paths.flatMap importLexemes ++ rest) =
      headerLength? (.list 0) (seen + (paths.flatMap importLexemes).length) done rest := by
  -- An import is white space and a string, none of which ends the list.
  induction paths generalizing seen with
  | nil => rfl
  | cons path paths ih =>
    rw [List.flatMap_cons, List.append_assoc]
    show headerLength? _ _ _ (_ :: _ :: (paths.flatMap importLexemes ++ rest)) = _
    rw [headerLength?_cons_trivia rfl, headerLength?_cons rfl]
    show headerLength? (.list 0) _ _ _ = _
    rw [if_neg (by decide), ih, List.length_append]
    simp only [importLexemes, List.length_cons, List.length_nil]
    congr 1
    omega

/-- Inside brackets, imports are not on the surface. -/
private theorem surfaceFrom_importLexemes (paths : List Text) (rest : List Lexeme) :
    surfaceFrom 1 (paths.flatMap importLexemes ++ rest) = surfaceFrom 1 rest := by
  induction paths with
  | nil => rfl
  | cons path paths ih =>
    rw [List.flatMap_cons, List.append_assoc]
    exact ih

/-! ## Headers -/

private theorem reads_name {name : Text} (h : IsName name) {s : Text} (hs : s.head? = some '\n') :
    Reads [⟨.word, name⟩] s := by
  refine ⟨endsBefore_name h ?_, trivial⟩
  intro c hc
  rw [textOf_nil, List.nil_append, hs] at hc
  obtain rfl := Option.some.inj hc
  decide

/-- The header of a new service file, without the blank line behind. -/
def freshClause (s : Setting) (g : Group) : Text :=
  "package ".toList ++ g.owner.package ++ "\n\nimport (\n".toList ++
    (freshImports s g.hasUpload).flatMap importLine ++ [')']

/-- A new header is its clause with a blank line. -/
theorem freshHeader_eq (s : Setting) (g : Group) :
    freshHeader s g = freshClause s g ++ blankLine := by
  have hend : ")\n\n".toList = [')'] ++ blankLine := by decide
  exact (congrArg ("package ".toList ++ g.owner.package ++ "\n\nimport (\n".toList ++
    (freshImports s g.hasUpload).flatMap importLine ++ ·) hend).trans (List.append_assoc _ _ _).symm

/-- The header of a new archive, without the blank line behind. -/
def archiveClause (package : Text) : Text := "//go:build ignore\n\npackage ".toList ++ package

theorem archiveHeader_eq (package : Text) :
    archiveHeader package = archiveClause package ++ blankLine := rfl

/-- The space in front of a name. -/
private theorem reads_before_name {t name : Text} (hlast : (lex t).getLast? = some ⟨.blank, " ".toList⟩)
    (hname : IsName name) (s : Text) : Reads (lex t) (name ++ s) := by
  obtain ⟨c, tail, rfl⟩ := List.exists_cons_of_ne_nil hname.ne_nil
  refine reads_lex_of_admits hlast ?_ _
  simp [Lexeme.admits, isGap_of_name hname List.mem_cons_self]

private def archiveLexemes : List Lexeme :=
  [⟨.comment, "//go:build ignore".toList⟩, ⟨.blank, "\n\n".toList⟩, ⟨.word, "package".toList⟩,
    ⟨.blank, " ".toList⟩]

private def packageLexemes : List Lexeme := [⟨.word, "package".toList⟩, ⟨.blank, " ".toList⟩]

/-- A package clause is a header, with a build constraint above it or without one. -/
private theorem isHeaderText_append_name {front : List Lexeme}
    (hfront : front = archiveLexemes ∨ front = packageLexemes) {package : Text}
    (hname : IsName package) (hfunc : package ≠ "func".toList) :
    IsHeaderText (textOf front ++ package) package := by
  refine ⟨front ++ [⟨.word, package⟩], by simp, ⟨fun rest => ?_, ?_, ?_⟩, ⟨?_, ?_⟩, fun s hs => ?_⟩
  · rcases hfront with rfl | rfl <;> rfl
  · refine ⟨⟨.word, "package".toList⟩, ⟨.word, package⟩, [], ?_, rfl, rfl, rfl⟩
    rcases hfront with rfl | rfl <;> rfl
  · exact ⟨front, ⟨.word, package⟩, rfl, rfl⟩
  · rcases hfront with rfl | rfl <;> rfl
  · have hsurface : surface (front ++ [⟨.word, package⟩]) = front ++ [⟨.word, package⟩] := by
      rcases hfront with rfl | rfl <;> rfl
    rw [hsurface]
    intro l hl
    rcases List.mem_append.1 hl with hl | hl
    · have hall : ∀ l ∈ front, l.isWord "func".toList = false := by
        rcases hfront with rfl | rfl <;> decide
      exact hall l hl
    · obtain rfl := List.mem_singleton.1 hl
      simpa [Lexeme.isWord] using hfunc
  · have hlex : lex (textOf front) = front := by
      rcases hfront with rfl | rfl <;> decide
    have hlast : (lex (textOf front)).getLast? = some ⟨.blank, " ".toList⟩ := by
      rcases hfront with rfl | rfl <;> decide
    have hspace := reads_before_name hlast hname s
    rw [hlex] at hspace
    exact reads_append.2 ⟨by simpa using hspace, reads_name hname hs⟩

/-- The clause of an archive is read as a header. -/
theorem isHeaderText_archiveClause {package : Text} (hname : IsName package)
    (hfunc : package ≠ "func".toList) : IsHeaderText (archiveClause package) package := by
  have htext : textOf archiveLexemes = "//go:build ignore\n\npackage ".toList := by decide
  have hheader := isHeaderText_append_name (.inl rfl) hname hfunc
  rw [htext] at hheader
  exact hheader

/-- A package clause alone. -/
def packageClause (package : Text) : Text := "package ".toList ++ package

/-- A package clause is read as a header. -/
theorem isHeaderText_packageClause {package : Text} (hname : IsName package)
    (hfunc : package ≠ "func".toList) : IsHeaderText (packageClause package) package := by
  have htext : textOf packageLexemes = "package ".toList := by decide
  have hheader := isHeaderText_append_name (.inr rfl) hname hfunc
  rw [htext] at hheader
  exact hheader

private def openingLexemes : List Lexeme :=
  [⟨.blank, "\n\n".toList⟩, ⟨.word, "import".toList⟩, ⟨.blank, " ".toList⟩, markOf '(']

private def closingLexemes : List Lexeme := [⟨.blank, ['\n']⟩, markOf ')']

/-- The lexemes of a new header with a list of imports. -/
private def clauseLexemes (package : Text) (paths : List Text) : List Lexeme :=
  packageLexemes ++ ⟨.word, package⟩ :: (openingLexemes ++
    (paths.flatMap importLexemes ++ closingLexemes))

/-- The lexemes of a new clause spell it. -/
private theorem textOf_clauseLexemes (s : Setting) (g : Group) :
    textOf (clauseLexemes g.owner.package (freshImports s g.hasUpload)) = freshClause s g := by
  have hpackage : "package ".toList = textOf packageLexemes := by decide
  have hopening : "\n\nimport (\n".toList = textOf openingLexemes ++ ['\n'] := by decide
  have hclosing : textOf closingLexemes = ['\n'] ++ [')'] := by decide
  have himports := textOf_importLexemes (freshImports s g.hasUpload)
  unfold freshClause clauseLexemes
  rw [hpackage, hopening]
  simp only [textOf_append, textOf_cons, hclosing, List.append_assoc]
  rw [← List.append_assoc _ ['\n'] [')'], himports]
  simp only [List.cons_append, List.nil_append]

/-- A new clause is a header up to its last bracket. -/
private theorem headerLength?_clauseLexemes (package : Text) (paths : List Text)
    (rest : List Lexeme) :
    headerLength? .start 0 0 (clauseLexemes package paths ++ rest) =
      headerLength? .clause (clauseLexemes package paths).length
        (clauseLexemes package paths).length rest := by
  -- the clause and the keyword of the list are seven lexemes, of which three come before the list
  -- is open
  have hstart : headerLength? .start 0 0 (clauseLexemes package paths ++ rest) =
      headerLength? (.list 0) 7 3 (paths.flatMap importLexemes ++ (closingLexemes ++ rest)) := by
    unfold clauseLexemes
    simp only [List.append_assoc, List.cons_append]
    rfl
  have hlength : (clauseLexemes package paths).length =
      7 + (paths.flatMap importLexemes).length + 2 := by
    simp only [clauseLexemes, packageLexemes, openingLexemes, closingLexemes, List.length_append,
      List.length_cons, List.length_nil]
    omega
  rw [hstart, headerLength?_importLexemes, hlength]
  rfl

/-- A new clause is nested and has no `func` outside brackets. -/
private theorem loose_clauseLexemes {package : Text} (hfunc : package ≠ "func".toList)
    (paths : List Text) : Loose (clauseLexemes package paths) := by
  -- the bracket of the list hides the imports, so only what stands before it is on the surface
  have hcut : clauseLexemes package paths = (packageLexemes ++ ⟨.word, package⟩ :: openingLexemes) ++
      (paths.flatMap importLexemes ++ closingLexemes) := by
    unfold clauseLexemes
    simp only [List.append_assoc, List.cons_append]
  have hnest : nest [] (packageLexemes ++ ⟨.word, package⟩ :: openingLexemes) = some [')'] := rfl
  have hsurface : surfaceFrom 0 (packageLexemes ++ ⟨.word, package⟩ :: openingLexemes) =
      packageLexemes ++ ⟨.word, package⟩ :: openingLexemes := rfl
  refine ⟨?_, ?_⟩
  · rw [Nested, hcut, nest_append, hnest, Option.bind_some, nest_append, nest_importLexemes]
    rfl
  · rw [hcut, surface, surfaceFrom_append, hsurface]
    show ∀ l ∈ _ ++ surfaceFrom 1 _, _
    rw [surfaceFrom_importLexemes]
    intro l hl
    have hfixed : ∀ l ∈ packageLexemes ++ openingLexemes, l.isWord "func".toList = false := by decide
    simp only [List.mem_append, List.mem_cons] at hl hfixed
    rcases hl with (hl | rfl | hl) | hl
    · exact hfixed l (.inl hl)
    · simpa [Lexeme.isWord] using hfunc
    · exact hfixed l (.inr hl)
    · exact absurd hl (by decide +revert)

/-- A new clause is read as its lexemes. -/
private theorem reads_clauseLexemes {package : Text} {paths : List Text} (hname : IsName package)
    (hpaths : ∀ path ∈ paths, IsQuotable path) (s : Text) :
    Reads (clauseLexemes package paths) s := by
  have hpackage : lex "package ".toList = packageLexemes := by decide
  have hopening : lex "\n\nimport (".toList = openingLexemes := by decide
  have hspace (rest : Text) := reads_before_name (t := "package ".toList) (by decide) hname rest
  have hopen (c : Char) (rest : Text) : Reads (lex "\n\nimport (".toList) (c :: rest) :=
    reads_lex_of_admits (l := markOf '(') (by decide) rfl rest
  have hclose : Reads closingLexemes s := by
    have hmark : (markOf ')').EndsBefore s :=
      ⟨')', [], rfl, .mark (by decide) (by decide) (by decide) fun h => absurd h (by decide)⟩
    exact ⟨endsBefore_gap (by decide) (by decide) (by simp [markOf, isGap]), hmark, trivial⟩
  have htail : textOf (paths.flatMap importLexemes ++ closingLexemes) ++ s =
      '\n' :: (paths.flatMap importLine ++ ')' :: s) := by
    have hclosing : textOf closingLexemes = ['\n'] ++ [')'] := by decide
    rw [textOf_append, hclosing, ← List.append_assoc, textOf_importLexemes]
    simp only [List.cons_append, List.append_assoc, List.nil_append]
  rw [hpackage] at hspace
  rw [hopening] at hopen
  unfold clauseLexemes
  -- the lexemes in their order: each is read in front of the text of the ones behind it
  refine reads_append.2 ⟨?_, endsBefore_name hname ?_, reads_append.2 ⟨?_,
    reads_append.2 ⟨reads_importLexemes hpaths _, hclose⟩⟩⟩
  · rw [textOf_cons, List.append_assoc]
    exact hspace _
  · intro c hc
    obtain rfl : '\n' = c := Option.some.inj hc
    decide
  · rw [htail]
    exact hopen _ _

/-- A new clause is read as a header. -/
theorem isHeaderText_freshClause {s : Setting} {g : Group} (hname : IsName g.owner.package)
    (hfunc : g.owner.package ≠ "func".toList)
    (himports : ∀ path ∈ freshImports s g.hasUpload, IsQuotable path) :
    IsHeaderText (freshClause s g) g.owner.package := by
  refine ⟨_, textOf_clauseLexemes s g, ⟨headerLength?_clauseLexemes _ _, ?_, ?_⟩,
    loose_clauseLexemes hfunc _, ?_⟩
  · exact ⟨⟨.word, "package".toList⟩, ⟨.word, g.owner.package⟩, _, rfl, rfl, rfl, rfl⟩
  · refine ⟨packageLexemes ++ ⟨.word, g.owner.package⟩ :: (openingLexemes ++
      ((freshImports s g.hasUpload).flatMap importLexemes ++ [⟨.blank, ['\n']⟩])), markOf ')', ?_, rfl⟩
    simp [clauseLexemes, closingLexemes]
  · exact fun t _ => reads_clauseLexemes hname himports t

end Scaffold.Service
