import Scaffold.Proofs.Go.Loose
import Scaffold.Service.Regeneration

/-!
# The layout of generated files

Service files and archives are written in one layout: a header, blocks of other declarations, and
functions, with a blank line behind each. `parse_layout` says that such a file is read as the parts that
were written, so that what a run of the generator leaves is what the next run finds.
-/

namespace Scaffold.Service

open Text Go

/-- A blank line below a part of a file. -/
def blankLine : Text := "\n\n".toList

/-- A file of a header, other declarations and functions. -/
def layout (header : Text) (blocks : List Text) (fs : List Function) : Text :=
  header ++ blankLine ++ blocks.flatMap (· ++ blankLine) ++ fs.flatMap verbatim

/-- Each function has its text in the file. -/
theorem text_infix_layout {header : Text} {blocks : List Text} {fs : List Function} {f : Function}
    (h : f ∈ fs) : f.text <:+: layout header blocks fs := by
  have hfunction : f.text <:+: verbatim f :=
    ⟨f.leadingComment.elim [] (· ++ ['\n']), "\n\n".toList, rfl⟩
  have hfunctions : verbatim f <:+: fs.flatMap verbatim :=
    List.infix_of_mem_flatten (List.mem_map_of_mem h)
  exact (hfunction.trans hfunctions).trans (List.suffix_append _ _).isInfix

/-! ## Blank lines -/

/-- The lexeme of a blank line. -/
private def blankLexeme : Lexeme := ⟨.blank, blankLine⟩

/-- A blank line is read as one lexeme in front of anything but a gap. -/
private theorem reads_blankLexeme {s : Text} (hs : ∀ c ∈ s.head?, isGap c = false) :
    Reads [blankLexeme] s :=
  ⟨endsBefore_gap (by decide) (by decide) (by simpa using hs), trivial⟩

/-- No comment is held across a blank line. -/
private theorem leadFrom_blankLexeme (depth : Nat) (lead ls : List Lexeme) :
    leadFrom depth lead (ls ++ [blankLexeme]) = [] := by
  have htight : isTight blankLexeme = false := by decide
  rw [leadFrom_append, leadFrom, leadFrom, carry]
  show (if _ then _ else _) = []
  rw [htight, Bool.not_false, Bool.or_true, if_pos rfl]

private theorem loose_blankLexeme : Loose [blankLexeme] := ⟨rfl, by decide⟩

/-! ## What stands in front of a function -/

/-- A gap that ends with a blank line: nothing of it belongs to what follows. -/
private structure IsSpace (gap : List Lexeme) : Prop where
  loose : Loose gap
  import_head : ∀ l ∈ (code gap).head?, l.isWord "import".toList = false
  lead : leadFrom 0 [] gap = []
  reads : ∀ s : Text, (∀ c ∈ s.head?, isGap c = false) → Reads gap s

private theorem isSpace_blankLexeme : IsSpace [blankLexeme] where
  loose := loose_blankLexeme
  import_head := by simp [code_cons, blankLexeme, Lexeme.isTrivia]
  lead := leadFrom_blankLexeme 0 [] []
  reads _ hs := reads_blankLexeme hs

/-- A gap can be followed by a block with a blank line behind. -/
private theorem IsSpace.append {gap : List Lexeme} (h : IsSpace gap) {block : Text}
    (hblock : IsBlock block) :
    ∃ gap', textOf gap' = textOf gap ++ (block ++ blankLine) ∧ IsSpace gap' := by
  have hhead := hblock.head_not_gap
  have hne := hblock.ne_nil
  obtain ⟨ls, rfl, hls, himport, hreads⟩ := hblock.reads
  -- the gap, the block and the blank line are nested, start with no import and are read one after
  -- the other
  refine ⟨gap ++ (ls ++ [blankLexeme]), by simp [blankLexeme], ?_, ?_, ?_, ?_⟩
  · exact (loose_append h.loose.nested).2 ⟨h.loose,
      (loose_append hls.nested).2 ⟨hls, loose_blankLexeme⟩⟩
  · intro l hl
    rw [code_append, code_append, List.head?_append, List.head?_append] at hl
    cases hgap : (code gap).head? with
    | some first => exact h.import_head l (by simpa [hgap] using hl)
    | none => exact himport l (by simpa [hgap, blankLexeme, code_cons, Lexeme.isTrivia] using hl)
  · rw [← List.append_assoc, leadFrom_blankLexeme]
  · intro s hs
    refine reads_append.2 ⟨h.reads _ ?_, reads_append.2 ⟨hreads _ ?_, reads_blankLexeme hs⟩⟩
    · intro c hc
      refine hhead c ?_
      obtain ⟨d, rest, htext⟩ := List.exists_cons_of_ne_nil hne
      simpa [htext] using hc
    · simp [blankLexeme, blankLine]

/-- Blocks with blank lines behind them are a gap. -/
private theorem IsSpace.exists_append {gap : List Lexeme} (h : IsSpace gap) {blocks : List Text}
    (hblocks : ∀ block ∈ blocks, IsBlock block) :
    ∃ gap', textOf gap' = textOf gap ++ blocks.flatMap (· ++ blankLine) ∧ IsSpace gap' := by
  induction blocks generalizing gap with
  | nil => exact ⟨gap, by simp, h⟩
  | cons block blocks ih =>
    obtain ⟨gap', htext, hgap'⟩ := h.append (hblocks block (by simp))
    obtain ⟨gap'', htext', hgap''⟩ := ih hgap' fun b hb => hblocks b (by simp [hb])
    exact ⟨gap'', by simp [htext', htext], hgap''⟩

/-- The comment of a function, with the line that it ends, is held above the function. -/
private theorem exists_lead {comment : Option Text} (h : ∀ c ∈ comment, IsComment c) :
    ∃ lead, textOf lead = comment.elim [] (· ++ ['\n']) ∧ commentText? lead = comment ∧
      IsLead lead ∧ (∀ c ∈ (textOf lead).head?, isGap c = false) ∧
      ∀ s : Text, s.head? = some 'f' → Reads lead s := by
  -- with a comment, the newline that ends it belongs to what is held above the function
  cases comment with
  | none => exact ⟨[], rfl, rfl, .nil, by simp, fun _ _ => trivial⟩
  | some comment =>
    obtain ⟨ls, rfl, hlead, ⟨l, hlast, hkind⟩, hreads⟩ := h comment rfl
    have hne : ls ≠ [] := by
      rintro rfl
      simp at hlast
    have hhead := hlead.text_head (hreads "\n".toList rfl) hne
    refine ⟨ls ++ [⟨.blank, ['\n']⟩], by simp, by simp [commentText?, hne],
      hlead.concat (.inr ⟨rfl, by decide⟩) fun hnil => absurd hnil hne, ?_, fun s hs => ?_⟩
    · rw [textOf_append, List.head?_append, hhead]
      simp [isGap]
    · exact reads_append_newline hreads (by simp [hs, isGap])

/-! ## Files -/

/-- Blocks with a blank line behind each are blocks with blank lines between, and one at the end. -/
theorem join_append_blankLine {blocks : List Text} (h : blocks ≠ []) :
    join blankLine blocks ++ blankLine = blocks.flatMap (· ++ blankLine) := by
  induction blocks with
  | nil => exact absurd rfl h
  | cons block blocks ih =>
    cases blocks with
    | nil => simp [join]
    | cons next blocks =>
      rw [join] at ih
      rw [join, List.intercalate_cons_cons, List.flatMap_cons, ← ih (List.cons_ne_nil _ _)]
      simp

/-- Two blocks with a blank line between are one block. -/
private theorem isBlock_append {block next : Text} (h : IsBlock block) (h' : IsBlock next) :
    IsBlock (block ++ (blankLine ++ next)) := by
  have hhead := h'.head_not_gap
  have htrim : trim (block ++ (blankLine ++ next)) = block ++ (blankLine ++ next) := by
    rw [trim, trimStart_append_of_ne_nil h.trimStart h.ne_nil, ← List.append_assoc,
      trimEnd_append_of_ne_nil (by rw [h'.trimEnd]; exact h'.ne_nil), h'.trimEnd]
  have hne : block ++ (blankLine ++ next) ≠ [] := by simp [h.ne_nil]
  obtain ⟨c, rest, hnext⟩ := List.exists_cons_of_ne_nil h'.ne_nil
  obtain ⟨ls, rfl, hls, himport, hreads⟩ := h.reads
  obtain ⟨ms, hms, hloose, himport', hreads'⟩ := h'.reads
  refine ⟨⟨ls ++ (blankLexeme :: ms), ?_, ?_, ?_, fun s hs => ?_⟩, htrim, hne⟩
  · simp [hms, blankLexeme]
  · exact (loose_append hls.nested).2 ⟨hls, (loose_append loose_blankLexeme.nested).2
      ⟨loose_blankLexeme, hloose⟩⟩
  · intro l hl
    rw [code_append, List.head?_append] at hl
    cases hcode : (code ls).head? with
    | some first => exact himport l (by simpa [hcode] using hl)
    | none => exact himport' l (by simpa [hcode, blankLexeme, code_cons, Lexeme.isTrivia] using hl)
  · refine reads_append.2 ⟨hreads _ rfl, ?_, hreads' s hs⟩
    refine endsBefore_gap (by decide) (by decide) ?_
    rw [hms, hnext]
    intro d hd
    exact hhead d (by simpa [hnext] using hd)

/-- Blocks with blank lines between are one block. -/
theorem isBlock_join {blocks : List Text} (h : ∀ block ∈ blocks, IsBlock block)
    (hne : blocks ≠ []) : IsBlock (join blankLine blocks) := by
  induction blocks with
  | nil => exact absurd rfl hne
  | cons block blocks ih =>
    have hblock := h block (by simp)
    cases blocks with
    | nil => simpa [join] using hblock
    | cons next blocks =>
      have hrest := ih (fun b hb => h b (by simp [hb])) (List.cons_ne_nil _ _)
      rw [join] at hrest ⊢
      rw [List.intercalate_cons_cons, List.append_assoc]
      exact isBlock_append hblock hrest

/-- The blocks, trimmed, are joined by blank lines. -/
private theorem trim_blocks {blocks : List Text} (h : ∀ block ∈ blocks, IsBlock block) :
    trim (blankLine ++ blocks.flatMap (· ++ blankLine)) = join blankLine blocks := by
  rw [trim, trimStart_append_of_blank (by decide)]
  by_cases hnil : blocks = []
  · subst hnil
    rfl
  · have hjoin := isBlock_join h hnil
    rw [← join_append_blankLine hnil, trimStart_append_of_ne_nil hjoin.trimStart hjoin.ne_nil,
      trimEnd_append_of_blank (by decide), hjoin.trimEnd]

/-- Functions behind a gap are read as they are written. -/
private theorem IsSpace.exists_tiles {gap : List Lexeme} (h : IsSpace gap) {fs : List Function}
    (hfs : ∀ f ∈ fs, Whole f) :
    ∃ ts last, textOf (tiled ts last) = textOf gap ++ fs.flatMap verbatim ∧
      Reads (tiled ts last) [] ∧ Tiling ts last ∧ ts.map Tile.function = fs ∧
      gaps ts last = gap :: fs.map fun _ => [blankLexeme] := by
  -- the gap in front of a function is given, and the next one is the blank line behind it
  induction fs generalizing gap with
  | nil =>
    exact ⟨[], gap, by simp [tiled], h.reads [] (by simp), h.loose.quiet [], rfl, rfl⟩
  | cons f fs ih =>
    obtain ⟨ts, last, htext, hreads, hts, hfunctions, hgaps⟩ :=
      ih isSpace_blankLexeme fun g hg => hfs g (by simp [hg])
    obtain ⟨d, hd, hreadsDecl, hf⟩ := (hfs f (by simp)).exists_reads
    obtain ⟨lead, hleadText, hcomment, hlead, hhead, hreadsLead⟩ :=
      exists_lead (hfs f (by simp)).comment
    have htrivia : ∀ l ∈ lead, l.isTrivia := fun l hl => (hlead.close l hl).isTrivia
    have hdecl : textOf d.lexemes = f.text := by rw [d.textOf_lexemes f.leadingComment, ← hf]
    have hfunc (rest : Text) : (textOf d.lexemes ++ rest).head? = some 'f' := rfl
    refine ⟨⟨gap, lead, d⟩ :: ts, last, ?_, ?_, ⟨⟨hd, ?_, ?_, ?_⟩, hts⟩, ?_, ?_⟩
    · rw [tiled_cons, textOf_append, textOf_append, textOf_append, hleadText, hdecl, htext]
      simp [verbatim, blankLexeme, blankLine]
    · rw [tiled_cons, List.append_assoc, reads_append, reads_append, reads_append, textOf_append]
      refine ⟨h.reads _ ?_, hreadsLead _ ?_, hreadsDecl _, hreads⟩
      · intro c hc
        cases hlead' : textOf lead with
        | nil =>
          obtain rfl : 'f' = c := by simpa [hlead', hfunc] using hc
          decide
        | cons e rest =>
          refine hhead c ?_
          simpa [hlead'] using hc
      · rw [textOf_append, List.append_assoc, hfunc]
    · exact quiet_append.2 ⟨h.loose.quiet _, quiet_of_isTrivia htrivia _ _⟩
    · rw [depthFrom_append, h.loose.nested.depthFrom, depthFrom_of_isTrivia htrivia]
    · rw [leadFrom_append, h.loose.nested.depthFrom, h.lead]
      exact leadFrom_of_isLead hlead
    · rw [List.map_cons, hfunctions, Tile.function, hcomment, ← hf]
    · rw [List.map_cons, ← hgaps]
      rfl

/-- A header with blocks and functions below is read as they are. -/
theorem parse_layout {header package : Text} {blocks : List Text} {fs : List Function}
    (hheader : IsHeaderText header package) (hblocks : ∀ block ∈ blocks, IsBlock block)
    (hfs : ∀ f ∈ fs, Whole f) :
    File.parse (layout header blocks fs) =
      { header := some header, package := some package, functions := fs
        declarations := if blocks = [] then [] else [join blankLine blocks] } := by
  obtain ⟨ls, rfl, hisHeader, hloose, hreadsHeader⟩ := hheader
  obtain ⟨gap, htextGap, hgap⟩ := isSpace_blankLexeme.exists_append hblocks
  obtain ⟨ts, last, htext, hreads, hts, hfunctions, hgaps⟩ := hgap.exists_tiles hfs
  have hspace : ∀ space ∈ gaps ts last, IsSpace space := by
    rw [hgaps]
    intro space hspace
    rcases List.mem_cons.1 hspace with rfl | hspace
    · exact hgap
    · obtain ⟨-, -, rfl⟩ := List.mem_map.1 hspace
      exact isSpace_blankLexeme
  -- what is laid out is a header with tiles behind it, which are read back as they are
  have htidy : TidyTiles ls package ts last :=
    ⟨hisHeader, hloose, hts, fun space h => (hspace space h).loose,
      fun space h => (hspace space h).import_head⟩
  have hlayout : layout (textOf ls) blocks fs = textOf (ls ++ tiled ts last) := by
    rw [textOf_append, htext, htextGap]
    simp [layout, blankLexeme, blankLine]
  have hlex : lex (layout (textOf ls) blocks fs) = ls ++ tiled ts last := by
    rw [hlayout]
    refine lex_textOf (reads_append.2 ⟨hreadsHeader _ ?_, hreads⟩)
    rw [htext, htextGap]
    rfl
  have hblank : trim blankLexeme.text = [] := by decide
  have htrim : trim (textOf gap) = join blankLine blocks := by
    rw [htextGap, ← trim_blocks hblocks]
    simp [blankLexeme]
  rw [File.parse, hlex, htidy.ofLexemes, hfunctions, hgaps]
  by_cases hnil : blocks = []
  · subst hnil
    simp [htrim, hblank, join]
  · simp [htrim, hblank, hnil, (isBlock_join hblocks hnil).ne_nil]

/-- Such a file can be taken apart again. -/
theorem tidy_layout {header package : Text} {blocks : List Text} {fs : List Function}
    (hheader : IsHeaderText header package) (hblocks : ∀ block ∈ blocks, IsBlock block)
    (hfs : ∀ f ∈ fs, Whole f ∧ Sturdy (lex f.text)) : Tidy (File.parse (layout header blocks fs)) := by
  rw [parse_layout hheader hblocks fun f hf => (hfs f hf).1]
  refine ⟨⟨header, package, rfl, rfl, hheader⟩, fun block hblock => ?_, hfs⟩
  by_cases hnil : blocks = []
  · simp [hnil] at hblock
  · obtain rfl : block = join blankLine blocks := by simpa [hnil] using hblock
    exact isBlock_join hblocks hnil

end Scaffold.Service
