import Scaffold.Proofs.Go.ByteScan

/-!
# The functions of a scan in their file

A scan of any text says where the functions stand in it. Where the header has no keyword of functions, it ends in
front of the first function and of the comment above it (`exists_behind_header`), so that the file is its header,
and then gaps and functions in turns: nothing of the text is lost, and nothing is in two of them
(`scan_interleaves`). What a scan says of a single function holds as well (`ScannedFunction.StandsIn`): its text
is a signature that opens a body, a body in which braces are balanced, and a closing brace.
-/

namespace Scaffold.Go

open Text

variable {s : Text} {front last : List Lexeme} {ts : List Tile}

/-! ## Parts of a file -/

/-- A part of a file is read as it stands there. -/
theorem lex_textOf_part {before part rest : List Lexeme} (hlex : lex s = before ++ (part ++ rest)) :
    lex (textOf part) = part := by
  have hreads := reads_lex s
  rw [hlex] at hreads
  exact lex_textOf (reads_append.1 (reads_append.1 hreads).2).1.cut

/-! ## Behind the header -/

/-- A list of lexemes without the keyword of functions that starts a file ends in front of the first function, and
in front of the comment above it if it ends with code. -/
theorem exists_behind_header {header rest : List Lexeme} (hts : Tiling ts last)
    (hlex : header ++ rest = tiled ts last) (hfunc : ∀ l ∈ header, l.isWord "func".toList = false)
    (hends : ∀ l ∈ header.getLast?, l.isTrivia = false) :
    ∃ ts' last', tiled ts last = header ++ tiled ts' last' ∧
      scannedTiles 0 ts = scannedTiles (extent header) ts' ∧ placedTiles 0 ts = placedTiles header.length ts' ∧
      ∀ t ∈ ts', t.declaration.Valid := by
  cases ts with
  | nil => exact ⟨[], rest, hlex.symm, rfl, rfl, by simp⟩
  | cons t ts =>
    have hvalid := hts.valid
    rw [tiled_cons] at hlex
    -- no keyword of functions is in the header, so it does not reach into the declaration
    have hfront : ∃ c, t.gap ++ t.lead = header ++ c := by
      rcases List.append_eq_append_iff.1 hlex.symm with ⟨a, ha, hbehind⟩ | ⟨c, hc, -⟩
      · cases a with
        | nil => exact ⟨[], by rw [List.append_nil] at ha ⊢; exact ha.symm⟩
        | cons l a =>
          obtain ⟨rfl, -⟩ := List.cons.inj hbehind
          have hkeyword := hfunc funcWord (by simp [ha])
          cases hkeyword
      · exact ⟨c, hc⟩
    obtain ⟨c, hc⟩ := hfront
    -- it ends with code, so it does not reach into the comment above
    have hgap : ∃ gap, t.gap = header ++ gap := by
      rcases List.append_eq_append_iff.1 hc with ⟨a, ha, hlead⟩ | ⟨gap, hgap, -⟩
      · cases ha' : a.getLast? with
        | none =>
          obtain rfl := List.getLast?_eq_none_iff.1 ha'
          exact ⟨[], by rw [List.append_nil] at ha ⊢; exact ha.symm⟩
        | some l =>
          have hcode := hends l (by rw [ha, List.getLast?_append, ha']; rfl)
          have htrivia := hts.1.isTrivia l (by rw [hlead]; exact List.mem_append_left c (List.mem_of_getLast? ha'))
          rw [hcode] at htrivia
          cases htrivia
      · exact ⟨gap, hgap⟩
    obtain ⟨gap, hgap⟩ := hgap
    obtain ⟨tgap, lead, declaration⟩ := t
    obtain rfl : tgap = header ++ gap := hgap
    refine ⟨⟨gap, lead, declaration⟩ :: ts, last, ?_, ?_, ?_, ?_⟩
    · simp [tiled_cons]
    · simp [scannedTiles, Tile.scanned, Tile.lexemes]
    · simp [placedTiles, Tile.lexemes, Tile.function]
    · simpa using hvalid

/-! ## Functions in their file -/

/-- What a scan says of a function holds in the text and in the file. -/
structure ScannedFunction.StandsIn (f : ScannedFunction) (s : Text) : Prop where
  lt : f.span.start < f.span.stop
  le : f.span.stop ≤ byteSize s
  keyword : "func".toList <+: f.text
  text : f.text = f.signature ++ f.body ++ ['}']
  opens : ['{'] <:+ f.signature
  /-- The braces of the body, outside literals and comments, are balanced. -/
  balanced : rise '{' '}' 0 (lex f.body) = some 0
  name : cut f.text f.nameRange.start f.nameRange.stop = .ok f.name
  /-- The comment, white space and the text fill what the function takes of the file. -/
  span : ∃ blank, (∀ c ∈ blank, isGap c) ∧
    cut s f.span.start f.span.stop = .ok (f.leadingComment.getD [] ++ blank ++ f.text)

/-- The comments above a declaration are its comment with white space behind it. -/
theorem exists_blank_of_lead {lead : List Lexeme} {t : Text} (h : Reads lead t) :
    ∃ blank, (∀ c ∈ blank, isGap c) ∧ textOf lead = (commentText? lead).getD [] ++ blank := by
  have hcomment (comments : List Lexeme) :
      (if comments = [] then none else some (textOf comments)).getD [] = textOf comments := by
    split_ifs with hnil
    · rw [hnil]
      rfl
    · rfl
  rw [commentText?, hcomment]
  cases hlast : lead.getLast? with
  | none => exact ⟨[], by simp, by simp⟩
  | some b =>
    by_cases hblank : b.kind = .blank
    · obtain ⟨comments, rfl⟩ := List.getLast?_eq_some_iff.1 hlast
      obtain ⟨-, hb, -⟩ := reads_append.1 h
      exact ⟨b.text, hb.blank_chars hblank, by simp [hblank]⟩
    · exact ⟨[], by simp, by simp [hblank]⟩

section

variable {t : Tile} {rest : List Lexeme}

/-- The text of a tile without its gap. -/
def Tile.spanText (t : Tile) : Text := textOf (t.lead ++ t.declaration.lexemes)

/-- A function takes of the file the comments above it and its text. -/
theorem Tile.cut_span (hlex : lex s = front ++ (t.lexemes ++ rest)) :
    cut s (t.scanned (extent front)).span.start (t.scanned (extent front)).span.stop = .ok t.spanText := by
  have hlist : lex s = (front ++ t.gap) ++ (t.lead ++ t.declaration.lexemes) ++ rest := by
    simp [hlex, Tile.lexemes]
  have hcut := cut_behind hlist
  have hstop : front ++ t.gap ++ (t.lead ++ t.declaration.lexemes) = front ++ t.lexemes := by
    simp [Tile.lexemes]
  rw [hstop, extent_append, extent_append] at hcut
  exact hcut

/-- The function of a tile stands in the file as it is scanned. -/
theorem Tile.standsIn (ht : t.declaration.Valid) (hlex : lex s = front ++ (t.lexemes ++ rest)) :
    (t.scanned (extent front)).StandsIn s := by
  have hreads := reads_lex s
  have hlist : lex s = (front ++ t.gap) ++ (t.lead ++ (t.declaration.lexemes ++ rest)) := by
    simp [hlex, Tile.lexemes]
  rw [hlist] at hreads
  obtain ⟨hlead, hdeclaration, -⟩ := (reads_append.1 (reads_append.1 hreads).2).imp_right reads_append.1
  have hbody : lex (textOf t.declaration.body) = t.declaration.body :=
    lex_textOf (Declaration.reads_body hdeclaration).cut
  have hkeyword : 4 ≤ extent t.declaration.lexemes := by
    rw [Declaration.lexemes, extent_cons]
    exact Nat.le_add_right 4 _
  have hsize : byteSize s = extent front + extent t.lexemes + extent rest := by
    rw [← extent_lex, hlex, extent_append, extent_append, Nat.add_assoc]
  have hextent : extent t.lexemes = extent t.gap + extent t.lead + extent t.declaration.lexemes := by
    rw [Tile.lexemes, extent_append, extent_append]
  have htext : textOf t.declaration.lexemes =
      textOf (t.declaration.opening ++ [markOf '{']) ++ textOf t.declaration.body ++ ['}'] := by
    rw [Declaration.lexemes_eq]
    simp [markOf]
  refine ⟨?_, ?_, ?_, htext, ?_, ?_, ?_, ?_⟩
  · show extent front + extent t.gap < extent front + extent t.lexemes
    omega
  · show extent front + extent t.lexemes ≤ byteSize s
    omega
  · exact ⟨textOf t.declaration.tail, rfl⟩
  · exact ⟨textOf t.declaration.opening, by simp [Tile.scanned, Declaration.scanned, markOf]⟩
  · show rise '{' '}' 0 (lex (textOf t.declaration.body)) = some 0
    rw [hbody, ht.body]
  · have hcut := cut_append (textOf (funcWord :: t.declaration.receiver)) t.declaration.name.text
      (textOf (t.declaration.parameters ++ markOf '{' :: (t.declaration.body ++ [markOf '}'])))
    have hlist' : textOf (funcWord :: t.declaration.receiver) ++ (t.declaration.name.text ++
        textOf (t.declaration.parameters ++ markOf '{' :: (t.declaration.body ++ [markOf '}']))) =
        textOf t.declaration.lexemes := by
      simp [Declaration.lexemes, Declaration.tail]
    rw [hlist'] at hcut
    exact hcut
  · obtain ⟨blank, hblank, hsplit⟩ := exists_blank_of_lead hlead
    refine ⟨blank, hblank, ?_⟩
    rw [Tile.cut_span hlex, Tile.spanText, textOf_append, hsplit]
    rfl

end

/-- The functions of tiles stand in the file one after the other. -/
theorem standsIn_scannedTiles (hvalid : ∀ t ∈ ts, t.declaration.Valid) (hlex : lex s = front ++ tiled ts last) :
    (∀ f ∈ scannedTiles (extent front) ts, f.StandsIn s ∧ extent front ≤ f.span.start) ∧
      (scannedTiles (extent front) ts).Pairwise (fun f g => f.span.stop ≤ g.span.start) ∧
      List.Forall₂ (fun f t => cut s f.span.start f.span.stop = .ok t) (scannedTiles (extent front) ts)
        (ts.map Tile.spanText) := by
  induction ts generalizing front with
  | nil => exact ⟨by simp [scannedTiles], .nil, .nil⟩
  | cons t ts ih =>
    obtain ⟨ht, hts⟩ := List.forall_mem_cons.1 hvalid
    have hhere : lex s = front ++ (t.lexemes ++ tiled ts last) := by simp [hlex, tiled]
    have hbehind : lex s = (front ++ t.lexemes) ++ tiled ts last := by rw [hhere, List.append_assoc]
    obtain ⟨hall, hpairs, hcuts⟩ := ih hts hbehind
    rw [extent_append] at hall hpairs hcuts
    refine ⟨?_, ?_, ?_⟩
    · intro f hf
      rcases List.mem_cons.1 hf with rfl | hf
      · exact ⟨Tile.standsIn ht hhere, Nat.le_add_right _ _⟩
      · obtain ⟨hstands, hle⟩ := hall f hf
        exact ⟨hstands, by omega⟩
    · apply List.Pairwise.cons _ hpairs
      intro g hg
      exact (hall g hg).2
    · exact .cons (Tile.cut_span hhere) hcuts

/-- The text of tiles is that of their gaps and of what their functions take, in turns. -/
theorem textOf_tiled (ts : List Tile) (last : List Lexeme) :
    textOf (tiled ts last) =
      (List.zipWith (· ++ ·) (ts.map fun t => textOf t.gap) (ts.map Tile.spanText)).flatten ++ textOf last := by
  induction ts with
  | nil => rfl
  | cons t ts ih =>
    rw [tiled_cons, textOf_append, textOf_append, textOf_append, ih]
    simp [Tile.spanText]

/-- The characters of a text that are no white space. -/
def solid (s : Text) : Text := s.filter (!isBlank ·)

theorem solid_append (s t : Text) : solid (s ++ t) = solid s ++ solid t := List.filter_append s t

/-- White space has nothing solid. -/
theorem solid_of_blank {t : Text} (h : ∀ c ∈ t, isBlank c) : solid t = [] := by
  apply List.filter_eq_nil_iff.2
  intro c hc
  simp [h c hc]

/-- Trimming takes white space only. -/
theorem solid_trim (s : Text) : solid (trim s) = solid s := by
  have hstart : s.takeWhile isBlank ++ trimStart s = s := List.takeWhile_append_dropWhile
  have hblank : solid (s.takeWhile isBlank) = [] := solid_of_blank fun c hc => List.mem_takeWhile_imp hc
  obtain ⟨b, hend, hb⟩ := exists_blank_of_trimEnd (trimStart s)
  calc solid (trim s) = solid (trimEnd (trimStart s)) ++ solid b := by
        rw [solid_of_blank hb, List.append_nil]
        rfl
    _ = solid (trimStart s) := by rw [← solid_append, ← hend]
    _ = solid (s.takeWhile isBlank) ++ solid (trimStart s) := by rw [hblank, List.nil_append]
    _ = solid s := by rw [← solid_append, hstart]

/-- Gaps and functions in turns, without white space. -/
theorem solid_zipWith (gaps spans : List Text) :
    solid (List.zipWith (· ++ ·) gaps spans).flatten =
      (List.zipWith (fun gap span => solid (trim gap) ++ solid span) gaps spans).flatten := by
  induction gaps generalizing spans with
  | nil => rfl
  | cons gap gaps ih =>
    cases spans with
    | nil => rfl
    | cons span spans =>
      rw [List.zipWith_cons_cons, List.zipWith_cons_cons, List.flatten_cons, List.flatten_cons, solid_append,
        solid_append, ih, solid_trim]

/-! ## The file -/

/-- The lexemes of the header of a file, or none, and those behind it. -/
theorem exists_header_lexemes
    (hfunc : ∀ header ∈ (File.parse s).header, ∀ l ∈ lex header, l.isWord "func".toList = false) :
    ∃ header rest, lex s = header ++ rest ∧ (File.parse s).header.getD [] = textOf header ∧
      (headerLength? .start 0 0 (lex s)).getD 0 = header.length ∧
      (∀ l ∈ header, l.isWord "func".toList = false) ∧ ∀ l ∈ header.getLast?, l.isTrivia = false := by
  have hparse : (File.parse s).header =
      (headerLength? .start 0 0 (lex s)).map fun n => textOf ((lex s).take n) := rfl
  rw [hparse] at hfunc ⊢
  cases hlength : headerLength? .start 0 0 (lex s) with
  | none => exact ⟨[], lex s, rfl, rfl, rfl, by simp, by simp⟩
  | some n =>
    obtain ⟨header, rest, package, hlex, rfl, hheader⟩ := isHeader_of_headerLength? hlength
    have htake : (lex s).take header.length = header := by rw [hlex, List.take_left]
    have hread : lex (textOf header) = header := lex_textOf_part (show lex s = [] ++ (header ++ rest) from hlex)
    rw [hlength, Option.map_some, htake] at hfunc
    refine ⟨header, rest, hlex, ?_, rfl, ?_, ?_⟩
    · rw [Option.map_some, htake]
      rfl
    · have hnone := hfunc (textOf header) rfl
      rwa [hread] at hnone
    · obtain ⟨front, l, rfl, hl⟩ := hheader.ends
      intro m hm
      rw [List.getLast?_concat] at hm
      obtain rfl := Option.some.inj hm
      exact hl

/-- Whatever text is scanned, if its header has no keyword of functions outside literals and comments: every
function stands in the text as the scan says; the functions come one after the other, behind the header; and the
text is the header, and then gaps and what the functions take of it, in turns. The declarations are the gaps,
trimmed, that are not blank, so that without white space the text is the header, the declarations and the
functions. -/
theorem scan_interleaves (s : Text)
    (hfunc : ∀ header ∈ (File.parse s).header, ∀ l ∈ lex header, l.isWord "func".toList = false) :
    ∃ file, scan s = .ok file ∧ file.header = (File.parse s).header ∧
      (∀ f ∈ file.functions, f.StandsIn s) ∧
      (∀ header ∈ file.header, ∀ f ∈ file.functions, byteSize header ≤ f.span.start) ∧
      (file.functions.Pairwise fun f g => f.span.stop ≤ g.span.start) ∧
      ∃ (gaps spans : List Text) (last : Text), gaps.length = file.functions.length ∧
        List.Forall₂ (fun f span => cut s f.span.start f.span.stop = .ok span) file.functions spans ∧
        file.declarations = ((gaps ++ [last]).map trim).filter (· ≠ []) ∧
        s = file.header.getD [] ++ (List.zipWith (· ++ ·) gaps spans).flatten ++ last ∧
        solid s = solid (file.header.getD []) ++
          (List.zipWith (fun gap span => solid (trim gap) ++ solid span) gaps spans).flatten ++
          solid (trim last) := by
  obtain ⟨ts, last, hlex, hts⟩ := exists_tiles (lex s) (reads_lex s).isShaped
  obtain ⟨header, rest, hcut, hheader, hlength, hnone, hends⟩ := exists_header_lexemes hfunc
  obtain ⟨ts', last', hbehind, hscanned, hplaced, hvalid⟩ :=
    exists_behind_header hts (hcut.symm.trans hlex) hnone hends
  have hlex' : lex s = header ++ tiled ts' last' := hlex.trans hbehind
  obtain ⟨hall, hpairs, hspans⟩ := standsIn_scannedTiles hvalid hlex'
  have hdeclarations : (File.parse s).declarations =
      ((ts'.map (fun t => textOf t.gap) ++ [textOf last']).map trim).filter (· ≠ []) := by
    have hfound : placed (lex s) = placedTiles header.length ts' := by
      rw [placed, hlex, placedFrom_tiled hts, hplaced]
    show declarationTexts (lex s) ((headerLength? .start 0 0 (lex s)).getD 0) (placed (lex s)) = _
    rw [hlength, hfound, declarationTexts, hlex', gapTexts_tiled]
  -- the text behind the header is gaps and functions in turns
  have htext : s = (File.parse s).header.getD [] ++ (List.zipWith (· ++ ·) (ts'.map fun t => textOf t.gap)
      (ts'.map Tile.spanText)).flatten ++ textOf last' := by
    rw [hheader, List.append_assoc, ← textOf_tiled, ← textOf_append, ← hlex', textOf_lex]
  refine ⟨_, scan_eq hlex hts, rfl, ?_, ?_, ?_, ts'.map (fun t => textOf t.gap), ts'.map Tile.spanText,
    textOf last', ?_, ?_, hdeclarations, htext, ?_⟩
  · rw [hscanned]
    exact fun f hf => (hall f hf).1
  · intro text hsome f hf
    rw [hscanned] at hf
    obtain rfl : text = textOf header := by
      rw [← hheader, show (File.parse s).header = some text from hsome]
      rfl
    exact (hall f hf).2
  · rw [hscanned]
    exact hpairs
  · rw [hscanned, hspans.length_eq, List.length_map, List.length_map]
  · rw [hscanned]
    exact hspans
  · conv_lhs => rw [htext]
    rw [solid_append, solid_append, solid_zipWith, solid_trim]

/-- A file with brackets that were never open, a string that is not closed and a keyword without a function. -/
private def malformed : Text :=
  ("// func\npackage user\n\nvar x = )\x7d\n\n// über\nfunc (s *Service) Find(a []int) error \x7b\n" ++
    "\treturn \"\x7b\"\n\x7d\n/* one */ func One() \x7b\x7d\n\nconst s = \"é\nfunc Lost(").toList

/-- A file whose functions are not separated, with the keyword of functions in a comment of its
header. -/
theorem scan_interleaves_malformed :
    (∀ header ∈ (File.parse malformed).header, ∀ l ∈ lex header, l.isWord "func".toList = false) ∧
      (File.parse malformed).functions.map Function.name = ["Find".toList, "One".toList] ∧
      ∃ file, scan malformed = .ok file ∧ file.header = some "// func\npackage user".toList ∧
        ∀ f ∈ file.functions, f.StandsIn malformed := by
  have hheader : (File.parse malformed).header = some "// func\npackage user".toList := by decide +kernel
  have hfunc : ∀ header ∈ (File.parse malformed).header, ∀ l ∈ lex header, l.isWord "func".toList = false := by
    rw [hheader]
    decide +kernel
  refine ⟨hfunc, by decide +kernel, ?_⟩
  obtain ⟨file, hscan, hsame, hstands, -⟩ := scan_interleaves malformed hfunc
  exact ⟨file, hscan, hsame.trans hheader, hstands⟩

end Scaffold.Go
