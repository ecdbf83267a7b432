import Scaffold.Proofs.Go.Loose

/-!
# Plain files

A file is *plain* if the reader of files sees nothing in it that it cannot put elsewhere: literals and
comments are closed, brackets outside functions are nested, the keyword of functions stands outside
functions only inside brackets, and all imports directly follow the package clause. The parts of a plain
file (`Plain.tidy`) are texts that can be written one below the other and are read again as the same
parts: a header, blocks of other declarations, and whole functions.
-/

namespace Scaffold.Go

open Text

/-! ## Outside functions -/

/-- The lexemes from the position `cursor` on that belong to no function. -/
def outsideFrom (ls : List Lexeme) (cursor : Nat) : List Placed → List Lexeme
  | [] => ls.drop cursor
  | p :: ps => slice ls cursor p.start ++ outsideFrom ls (max cursor p.stop) ps

/-- The lexemes that no function of the file takes in. -/
def outside (ls : List Lexeme) : List Lexeme := outsideFrom ls 0 (placed ls)

/-- A source that can be taken apart and put together again. -/
structure Plain (s : Text) : Prop where
  /-- Literals and comments are closed, and all white space between lexemes is white space of Go. -/
  sturdy : Sturdy (lex s)
  /-- All imports directly follow the package clause. -/
  header : ∃ n, headerLength? .start 0 0 (lex s) = some n ∧ Nested ((lex s).take n) ∧
    ∀ l ∈ surface (outsideFrom (lex s) n (placed (lex s))), l.isWord "import".toList = false
  package : (File.parse s).package ≠ some "func".toList
  nested : Nested (outside (lex s))
  func : ∀ l ∈ surface (outside (lex s)), l.isWord "func".toList = false

instance (s : Text) : Decidable (Plain s) :=
  decidable_of_iff
    (Sturdy (lex s) ∧
      (∃ n ∈ headerLength? .start 0 0 (lex s), Nested ((lex s).take n) ∧
        ∀ l ∈ surface (outsideFrom (lex s) n (placed (lex s))), l.isWord "import".toList = false) ∧
      (File.parse s).package ≠ some "func".toList ∧ Nested (outside (lex s)) ∧
      ∀ l ∈ surface (outside (lex s)), l.isWord "func".toList = false)
    ⟨fun ⟨hsturdy, hheader, hpackage, hnested, hfunc⟩ =>
        ⟨hsturdy, hheader, hpackage, hnested, hfunc⟩,
      fun h => ⟨h.sturdy, h.header, h.package, h.nested, h.func⟩⟩

/-- The gaps of tiles are what no function takes in. -/
theorem outsideFrom_tiled (front : List Lexeme) (ts : List Tile) (last : List Lexeme) :
    outsideFrom (front ++ tiled ts last) front.length (placedTiles front.length ts) =
      ts.flatMap Tile.gap ++ last := by
  induction ts generalizing front with
  | nil => simp [placedTiles, outsideFrom, tiled]
  | cons t ts ih =>
    rw [placedTiles, outsideFrom, slice_gap, Nat.max_eq_right (Nat.le_add_right _ _),
      append_tiled_cons, ← List.length_append, ih]
    simp

theorem outsideFrom_zero_tiled (front : List Lexeme) (ts : List Tile) (last : List Lexeme) :
    outsideFrom (front ++ tiled ts last) 0 (placedTiles front.length ts) =
      front ++ (ts.flatMap Tile.gap ++ last) := by
  cases ts with
  | nil => simp [placedTiles, outsideFrom, tiled]
  | cons t ts =>
    have hslice : slice (front ++ tiled (t :: ts) last) 0 (front.length + t.gap.length) =
        front ++ t.gap := by
      rw [slice, tiled_cons, List.drop_zero, List.take_length_add_append, List.append_assoc,
        List.take_left]
    have hstop : max 0 (front.length + t.lexemes.length) = (front ++ t.lexemes).length := by
      rw [Nat.zero_max, List.length_append]
    rw [placedTiles, outsideFrom, hslice, hstop, append_tiled_cons, ← List.length_append,
      outsideFrom_tiled]
    simp

/-- What stands outside functions are the gaps. -/
theorem outside_tiled {ts : List Tile} {last : List Lexeme} (h : Tiling ts last) :
    outside (tiled ts last) = ts.flatMap Tile.gap ++ last := by
  rw [outside, placed, placedFrom_tiled h]
  simpa using outsideFrom_zero_tiled [] ts last

/-! ## The tiles of a plain file -/

/-- A header ends with code, so that it takes nothing of the comments above a declaration. -/
theorem IsHeader.prefix_gap {header gap lead : List Lexeme} {package : Text}
    (h : IsHeader header package) (hlead : ∀ l ∈ lead, l.isTrivia) (hpre : header <+: gap ++ lead) :
    header <+: gap := by
  obtain ⟨mid, hmid⟩ := hpre
  rcases List.append_eq_append_iff.1 hmid with ⟨rest, hgap, -⟩ | ⟨behind, hheader, hbehind⟩
  · exact ⟨rest, hgap.symm⟩
  · obtain ⟨front, l, hends, hl⟩ := h.ends
    rcases List.eq_nil_or_concat behind with rfl | ⟨behind, m, rfl⟩
    · exact ⟨[], by simp [hheader]⟩
    · rw [List.concat_eq_append, ← List.append_assoc, hends] at hheader
      obtain rfl : l = m := List.singleton_inj.1 (List.append_inj_right' hheader rfl)
      have htrivia := hlead l (by simp [hbehind])
      simp [hl] at htrivia

/-- A tile fits without a header in front of its gap. -/
theorem Tile.Fits.of_header {header gap lead rest : List Lexeme} {d : Declaration} {package : Text}
    (h : Tile.Fits ⟨header ++ gap, lead, d⟩ rest) (hheader : IsHeader header package)
    (hdepth : depthFrom 0 header = 0) :
    Quiet 0 header (gap ++ lead ++ (d.lexemes ++ rest)) ∧ Tile.Fits ⟨gap, lead, d⟩ rest := by
  obtain ⟨hvalid, hquiet, hdepthAll, hleadAll⟩ := h
  simp only [List.append_assoc] at hquiet hdepthAll hleadAll
  rw [quiet_append, hdepth] at hquiet
  rw [depthFrom_append, hdepth] at hdepthAll
  rw [leadFrom_append, hdepth, hheader.leadFrom] at hleadAll
  exact ⟨by simpa using hquiet.1, hvalid, hquiet.2, hdepthAll, hleadAll⟩

/-- A file with a header whose brackets are nested is that header and tiles behind it. -/
theorem exists_header_tiles {ls : List Lexeme} {n : Nat} (hls : ∀ l ∈ ls, l.IsShaped)
    (hlength : headerLength? .start 0 0 ls = some n) (hheader : Nested (ls.take n))
    (hname : ∀ l ∈ (code ls)[1]?, l.text ≠ "func".toList) (hnested : Nested (outside ls)) :
    ∃ header ts last package, ls = header ++ tiled ts last ∧ n = header.length ∧
      IsHeader header package ∧ Tiling ts last ∧ Quiet 0 header (tiled ts last) := by
  obtain ⟨header, rest, package, hcut, rfl, hisHeader⟩ := isHeader_of_headerLength? hlength
  obtain ⟨ts, last, rfl, hts⟩ := exists_tiles ls hls
  have hdepth : depthFrom 0 header = 0 := by
    rw [hcut, List.take_left] at hheader
    exact hheader.depthFrom
  cases ts with
  | nil =>
    have hquiet : Quiet 0 (header ++ rest) [] := hcut ▸ hts
    rw [quiet_append, hdepth, List.append_nil] at hquiet
    exact ⟨header, [], rest, package, hcut, rfl, hisHeader, hquiet.2, hquiet.1⟩
  | cons t ts =>
    rw [outside_tiled hts] at hnested
    have hgap : Nested t.gap := (hts.nested_gaps hnested).1 t List.mem_cons_self
    obtain ⟨hfits, hts⟩ := hts
    have hlead : Nested (t.gap ++ t.lead) := hgap.append (nested_of_isTrivia hfits.isTrivia)
    rw [tiled_cons] at hcut hlength hname ⊢
    -- the header cannot reach over the first declaration
    have hle : header.length ≤ (t.gap ++ t.lead).length :=
      headerLength?_le hfits.valid hlead hname hlength
    have hpre : header <+: t.gap ++ t.lead :=
      List.prefix_of_prefix_length_le ⟨rest, hcut.symm⟩ ⟨_, rfl⟩ hle
    obtain ⟨first, lead, d⟩ := t
    obtain ⟨gap, rfl⟩ := hisHeader.prefix_gap hfits.isTrivia hpre
    obtain ⟨hquiet, hfits⟩ := hfits.of_header hisHeader hdepth
    exact ⟨header, ⟨gap, lead, d⟩ :: ts, last, package, by simp [tiled_cons], rfl, hisHeader,
      ⟨hfits, hts⟩, by simpa [tiled_cons] using hquiet⟩

/-- A plain file is a header with tiles behind it. -/
theorem Plain.exists_tiles {s : Text} (h : Plain s) :
    ∃ header package ts last, lex s = header ++ tiled ts last ∧
      TidyTiles header package ts last := by
  obtain ⟨n, hlength, hheader, himport⟩ := h.header
  have hreads : Reads (lex s) [] := reads_lex s
  -- the package is not called `func`, or else the clause could be taken for a function
  have hname : ∀ l ∈ (code (lex s))[1]?, l.text ≠ "func".toList := by
    intro l hl hfunc
    refine h.package ?_
    show (if _ then ((code (lex s)).map Lexeme.text)[1]? else none) = _
    rw [hlength, List.getElem?_map, Option.mem_def.1 hl, Option.map_some, hfunc]
    rfl
  obtain ⟨header, ts, last, package, hlex, rfl, hisHeader, hts, hquiet⟩ :=
    exists_header_tiles hreads.isShaped hlength hheader hname h.nested
  have hnested := h.nested
  have hfunc := h.func
  rw [hlex, List.take_left] at hheader
  have hplaced := placed_tiled hisHeader hquiet hheader.depthFrom hts
  rw [hlex, hplaced, outsideFrom_tiled] at himport
  rw [outside, hlex, hplaced, outsideFrom_zero_tiled] at hnested hfunc
  obtain ⟨hloose, hlooseGaps⟩ := (loose_append hheader).1 ⟨hnested, hfunc⟩
  refine ⟨header, package, ts, last, hlex, hisHeader, hloose, hts, loose_gaps hts hlooseGaps, ?_⟩
  rw [surface_gaps (hts.nested_gaps hlooseGaps.nested).1] at himport
  intro gap hgap l hl
  refine himport l ?_
  simp only [gaps, List.mem_append, List.mem_map, List.mem_singleton] at hgap
  rcases hgap with ⟨t, ht, rfl⟩ | rfl
  · exact List.mem_append_left _ (List.mem_flatMap.2 ⟨t, ht, mem_surface_of_head hl⟩)
  · exact List.mem_append_right _ (mem_surface_of_head hl)

/-- The parts of a plain file can be moved. -/
theorem Plain.tidy {s : Text} (h : Plain s) : Tidy (File.parse s) := by
  obtain ⟨header, package, ts, last, hlex, htidy⟩ := h.exists_tiles
  have hreads : Reads (lex s) [] := reads_lex s
  have hsturdy := h.sturdy
  rw [hlex] at hreads hsturdy
  obtain ⟨hreadsHeader, hreadsTiles⟩ := reads_append.1 hreads
  have hsturdyTiles : Sturdy (tiled ts last) := hsturdy.subset (List.subset_append_right _ _)
  rw [File.parse, hlex, htidy.ofLexemes]
  -- the header, the blocks and the functions are read in front of what follows them there
  refine ⟨⟨textOf header, package, rfl, rfl, header, rfl, htidy.isHeader, htidy.loose, ?_⟩, ?_, ?_⟩
  · obtain ⟨front, l, rfl, hl⟩ := htidy.isHeader.ends
    refine fun s' hs' => hreadsHeader.before_newline (hsturdy l (by simp)).1 ?_ hs'
    intro hkind
    simp [Lexeme.isTrivia, hkind] at hl
  · intro block hblock
    obtain ⟨hmem, hne⟩ := List.mem_filter.1 hblock
    obtain ⟨gap, hgap, rfl⟩ := List.mem_map.1 hmem
    obtain ⟨s', hreadsGap⟩ := reads_gaps hreadsTiles gap hgap
    exact isBlock_trim hreadsGap (hsturdyTiles.subset (gaps_subset hgap))
      (htidy.gap_loose gap hgap) (htidy.gap_import gap hgap) (by simpa using hne)
  · intro f hf
    obtain ⟨t, ht, rfl⟩ := List.mem_map.1 hf
    have hwhole := whole_of_tiling htidy.tiling hreadsTiles t ht
    obtain ⟨s', hreadsDecl⟩ := reads_declaration hreadsTiles ht
    refine ⟨hwhole, ?_⟩
    rw [Tile.function, Declaration.lex_text hreadsDecl]
    exact hsturdyTiles.subset (declaration_subset ht)

end Scaffold.Go
