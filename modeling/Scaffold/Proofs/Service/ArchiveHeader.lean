import Scaffold.Proofs.Go.Clauses
import Scaffold.Proofs.Service.Archiving

/-!
# Headers of archives

A new archive begins with a header, and so does what is written over an old one that does not hold the text
`package`. The test is on the whole text, though, and a comment, a literal or a longer word passes it. So the
archive can be left without a package clause, and `archive_header_iff` says when it has one.
-/

namespace Scaffold.Go

/-- Behind the keyword of a function stands a parenthesis or the name of the function. -/
theorem Declaration.Valid.code_lexemes {d : Declaration} (hd : d.Valid) :
    ∃ next rest, code d.lexemes = funcWord :: next :: rest ∧ (next = markOf '(' ∨ next = d.name) := by
  have hkeyword : code d.lexemes = funcWord :: code (d.receiver ++ d.name :: (d.parameters ++ markOf '{' ::
      (d.body ++ [markOf '}']))) := rfl
  rw [hkeyword, code_append, code_cons, word_not_isTrivia hd.name]
  rcases hd.receiver.code with hnil | ⟨rest, hrest⟩
  · rw [hnil]
    exact ⟨_, _, rfl, .inr rfl⟩
  · rw [hrest]
    exact ⟨_, _, rfl, .inl rfl⟩

end Scaffold.Go

namespace Scaffold.Service

open Text Go Naming

variable {package stamp : Text} {leftovers : List Function}

/-! ## What is appended -/

/-- What is written in front of the old archive. -/
def archiveFront (package existing : Text) : Text :=
  if occursIn "package".toList existing then [] else archiveHeader package

/-- A new archive is the old one with what is written in front of it, and a newline if the last line is not
ended. -/
theorem exists_archiveBase (package existing : Text) :
    ∃ gap, archiveBase package existing = archiveFront package existing ++ existing ++ gap ∧
      (gap = [] ∧ (∀ c ∈ existing.getLast?, c = '\n') ∨ gap = ['\n']) := by
  have hbase : archiveBase package existing =
      if (archiveFront package existing ++ existing).getLast? = some '\n' then
        archiveFront package existing ++ existing
      else archiveFront package existing ++ existing ++ ['\n'] := by
    have hfront : archiveFront package existing ++ existing =
        if occursIn "package".toList existing then existing else archiveHeader package ++ existing := by
      rw [archiveFront]
      split_ifs <;> rfl
    rw [hfront]
    rfl
  rw [hbase]
  split_ifs with hlast
  · refine ⟨[], (List.append_nil _).symm, .inl ⟨rfl, fun c hc => ?_⟩⟩
    have hne : existing ≠ [] := by
      rintro rfl
      cases hc
    rw [List.getLast?_append_of_ne_nil _ hne] at hlast
    exact Option.some.inj (hc.symm.trans hlast)
  · exact ⟨['\n'], rfl, .inr rfl⟩

/-- The code of archived functions starts with the keyword of functions, and no import stands behind it. -/
theorem exists_code_archived (hstamp : ∀ c ∈ stamp, isWordChar c) {fs : List Function} (hne : fs ≠ [])
    (hfs : ∀ f ∈ fs, Whole f) :
    ∃ next rest, code (lex (fs.flatMap (archived stamp))) = funcWord :: next :: rest ∧ next ≠ importWord := by
  obtain ⟨f, fs, rfl⟩ := List.exists_cons_of_ne_nil hne
  obtain ⟨d, hd, hreads, hf⟩ := (whole_archivedFunction hstamp (hfs f List.mem_cons_self)).exists_reads
  have hname : d.name.text = archivedName stamp f.name := (congrArg Function.name hf).symm
  have htext : f.renamed (archivedName stamp f.name) = textOf d.lexemes := by
    rw [d.textOf_lexemes, ← hf]
    rfl
  -- behind `func` comes a bracket or the name, which starts with the prefix of archived functions
  obtain ⟨next, rest, hcode, hnext⟩ := hd.code_lexemes
  rw [List.flatMap_cons, archived, htext, List.append_assoc, lex_textOf_append (hreads _), code_append, hcode]
  refine ⟨next, _, rfl, ?_⟩
  rintro rfl
  rcases hnext with hmark | hword
  · cases hmark
  · rw [← hword] at hname
    cases hname

/-! ## The header -/

/-- An archive with a header in front of it has a package clause exactly if its imports are finished. -/
theorem header_archiveHeader_isSome_iff (hname : IsName package) (hfunc : package ≠ "func".toList) (s : Text) :
    (File.parse (archiveHeader package ++ s)).header.isSome ↔ FinishedImports (code (lex s)) := by
  obtain ⟨header, htext, hheader, -, hreads⟩ := isHeaderText_archiveClause hname hfunc
  have hlex : lex (archiveHeader package ++ s) = header ++ lex (blankLine ++ s) := by
    rw [archiveHeader_eq, ← htext, List.append_assoc]
    exact lex_textOf_append (hreads _ rfl)
  have hgap : ∀ c ∈ blankLine, isGap c := by decide
  rw [header_append_isSome_iff hheader hlex, code_lex_gap_append hgap]

/-- A run with functions to archive writes the old archive as it is, with the functions behind it. In front of it
goes a header, but not if `package` occurs anywhere in it. With the new header, the archive has a package clause
exactly if the code behind it has no import that is not finished; without one, exactly if the code of the old
archive, with the functions behind it, starts with a package clause. If the old archive imports nothing, that comes
down to what its code starts with. -/
theorem archive_header_iff (hname : IsName package) (hfunc : package ≠ "func".toList)
    (hstamp : ∀ c ∈ stamp, isWordChar c) (existing : Option Text)
    (hclosed : ∀ l ∈ lex (existing.getD []), l.isClosed)
    (hleftovers : ∀ f ∈ leftovers, ∃ s, f ∈ (File.parse s).functions)
    (himplemented : ∃ f ∈ leftovers, isStub f = false) :
    let old := existing.getD []
    let functions := (leftovers.filter (!isStub ·)).flatMap (archived stamp)
    ∃ archive back, archive? package existing leftovers stamp = some archive ∧
      archive = archiveFront package old ++ old ++ back ∧ (back = functions ∨ back = '\n' :: functions) ∧
      ((File.parse archive).header.isSome ↔
        if occursIn "package".toList old then HasClause (code (lex old) ++ code (lex back))
        else FinishedImports (code (lex old) ++ code (lex back))) ∧
      (importWord ∉ code (lex old) →
        ((File.parse archive).header.isSome ↔ (occursIn "package".toList old →
          ∃ names, code (lex old) = packageWord :: names ∧ ∀ l ∈ names.head?, l.kind = .word))) := by
  intro old functions
  obtain ⟨f, hf, hstub⟩ := himplemented
  have hne : leftovers.filter (!isStub ·) ≠ [] := List.ne_nil_of_mem (List.mem_filter.2 ⟨hf, by simp [hstub]⟩)
  have hwhole : ∀ f ∈ leftovers.filter (!isStub ·), Whole f := by
    intro g hg
    obtain ⟨s, hs⟩ := hleftovers g (List.mem_filter.1 hg).1
    exact whole_of_mem_functions hs
  obtain ⟨next, rest, hfunctions, hnext⟩ := exists_code_archived hstamp hne hwhole
  obtain ⟨gap, hbase, hgap⟩ := exists_archiveBase package old
  have hblank : ∀ c ∈ gap, isGap c := by rcases hgap with ⟨rfl, -⟩ | rfl <;> decide
  -- the code of the archive behind what is written in front of it
  have hback : code (lex (gap ++ functions)) = funcWord :: next :: rest := by
    rw [code_lex_gap_append hblank, hfunctions]
  have hcode : code (lex (old ++ (gap ++ functions))) = code (lex old) ++ code (lex (gap ++ functions)) := by
    apply code_lex_append hclosed
    rcases hgap with ⟨-, hlast⟩ | rfl
    · exact .inl hlast
    · exact .inr rfl
  have harchive : archive? package existing leftovers stamp =
      some (archiveFront package old ++ old ++ (gap ++ functions)) := by
    rw [← List.append_assoc, ← hbase, archive?]
    split
    · next hnil => exact absurd hnil hne
    · rfl
  have hheader : (File.parse (archiveFront package old ++ old ++ (gap ++ functions))).header.isSome ↔
      if occursIn "package".toList old then HasClause (code (lex old) ++ code (lex (gap ++ functions)))
      else FinishedImports (code (lex old) ++ code (lex (gap ++ functions))) := by
    rw [archiveFront]
    split_ifs with hoccurs
    · rw [List.nil_append, header_isSome_iff, hcode]
    · rw [List.append_assoc, header_archiveHeader_isSome_iff hname hfunc, hcode]
  refine ⟨_, gap ++ functions, harchive, rfl, ?_, hheader, fun himport => ?_⟩
  · rcases hgap with ⟨rfl, -⟩ | rfl
    · exact .inl rfl
    · exact .inr rfl
  · rw [hheader, hback]
    split_ifs with hoccurs
    · rw [hasClause_append_iff himport hnext]
      exact ⟨fun h _ => h, fun h => h hoccurs⟩
    · exact ⟨fun _ h => absurd h hoccurs, fun _ => finishedImports_append himport _⟩

/-- A service file whose only function is implemented. -/
private def servedFile : Text :=
  "package user\n\nfunc FindQuery() \x7b\n\treturn &response, nil\n\x7d\n".toList

private def servedStamp : Text := "07032024_090501".toList

/-- An old archive without a clause of its own. -/
private def keptNote : Text := "// Kept by hand.\n".toList

/-- An old archive that holds `package` in a comment only. -/
private def mention : Text := "// see package list\n".toList

/-- An old archive with a note that does not mention a package. -/
theorem archive_header_iff_keptNote :
    ∃ archive ∈ archive? "user".toList (some keptNote) (File.parse servedFile).functions servedStamp,
      (File.parse archive).header.isSome := by
  have hclosed : ∀ l ∈ lex ((some keptNote).getD []), l.isClosed := by
    unfold keptNote
    rw [String.toList_ofList]
    decide +kernel
  have himplemented : ∃ f ∈ (File.parse servedFile).functions, isStub f = false := by
    unfold servedFile
    rw [String.toList_ofList]
    decide +kernel
  have himport : importWord ∉ code (lex keptNote) := by
    unfold keptNote
    rw [String.toList_ofList]
    decide +kernel
  have hoccurs : occursIn "package".toList keptNote = false := by decide +kernel
  obtain ⟨archive, back, harchive, -, -, -, hheader⟩ :=
    archive_header_iff (show IsName "user".toList by decide) (by decide)
      (show ∀ c ∈ servedStamp, isWordChar c by decide +kernel) (some keptNote) hclosed
      (fun f hf => ⟨servedFile, hf⟩) himplemented
  refine ⟨archive, harchive, (hheader himport).2 fun hmention => ?_⟩
  exact absurd (hoccurs.symm.trans hmention) (by decide)

/-- Behind an old archive that only mentions `package` in a comment, no header is written, and the new archive has
no package clause. -/
theorem archive_header_missing :
    IsName "user".toList ∧ "user".toList ≠ "func".toList ∧ (∀ c ∈ servedStamp, isWordChar c) ∧
      (∀ l ∈ lex mention, l.isClosed) ∧ (∃ f ∈ (File.parse servedFile).functions, isStub f = false) ∧
      ∃ archive ∈ archive? "user".toList (some mention) (File.parse servedFile).functions servedStamp,
        (File.parse archive).header = none ∧ (File.parse archive).package = none := by
  unfold servedFile mention servedStamp
  repeat rw [String.toList_ofList]
  decide +kernel

end Scaffold.Service
