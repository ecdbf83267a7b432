import Scaffold.Proofs.Go.Header
import Scaffold.Proofs.Go.Whole

/-!
# Loose lexemes

What stands between functions is *loose* if its brackets are nested and it starts no function. A header
with tiles whose gaps are loose is taken apart by the reader of files as it is (`TidyTiles.ofLexemes`),
and what is left of a loose gap without the white space around it is a block that can be moved
(`isBlock_trim`).
-/

namespace Scaffold.Go

open Text

/-! ## Nested brackets and the surface -/

/-- The reader counts as many open brackets as are pending. -/
theorem depthFrom_of_nest {pending pending' : List Char} {ls : List Lexeme}
    (h : nest pending ls = some pending') : depthFrom pending.length ls = pending'.length := by
  induction ls generalizing pending with
  | nil =>
    obtain rfl : pending = pending' := by simpa [nest] using h
    rfl
  | cons l ls ih =>
    obtain ⟨next, hstep, hnest⟩ := Option.bind_eq_some_iff.1 h
    rw [depthFrom, List.foldl_cons, nestStep_length hstep]
    exact ih hnest

/-- Nested brackets end at the depth where they start. -/
theorem Nested.depthFrom {ls : List Lexeme} (h : Nested ls) : depthFrom 0 ls = 0 :=
  depthFrom_of_nest h

/-- Where brackets are nested in all and balanced in front, they are nested in both parts. -/
theorem Nested.of_append {ls ms : List Lexeme} (h : Nested (ls ++ ms)) (hls : Go.depthFrom 0 ls = 0) :
    Nested ls ∧ Nested ms := by
  rw [Nested, nest_append] at h
  obtain ⟨pending, hfront, hrest⟩ := Option.bind_eq_some_iff.1 h
  have hlen : Go.depthFrom 0 ls = pending.length := depthFrom_of_nest hfront
  obtain rfl : pending = [] := List.length_eq_zero_iff.1 (by omega)
  exact ⟨hfront, hrest⟩

/-- The surface of two lists, the second at the depth where the first one ends. -/
theorem surfaceFrom_append (depth : Nat) (ls ms : List Lexeme) :
    surfaceFrom depth (ls ++ ms) = surfaceFrom depth ls ++ surfaceFrom (depthFrom depth ls) ms := by
  induction ls generalizing depth with
  | nil => cases depth <;> rfl
  | cons l ls ih => cases depth <;> simp [surfaceFrom, ih, depthFrom]

/-- Behind nested brackets the surface goes on. -/
theorem Nested.surface_append {ls : List Lexeme} (h : Nested ls) (ms : List Lexeme) :
    surface (ls ++ ms) = surface ls ++ surface ms := by
  rw [surface, surfaceFrom_append, h.depthFrom]
  rfl

/-- Where the keyword does not stand outside brackets, no function is read. -/
theorem quiet_of_surface {depth : Nat} {ls : List Lexeme}
    (h : ∀ l ∈ surfaceFrom depth ls, l.isWord "func".toList = false) (rest : List Lexeme) :
    Quiet depth ls rest := by
  induction ls generalizing depth with
  | nil => trivial
  | cons l ls ih =>
    cases depth with
    | zero =>
      simp only [surfaceFrom, List.mem_cons, forall_eq_or_imp] at h
      refine ⟨fun _ hfunc => ?_, ih h.2⟩
      have hword := h.1
      rw [hfunc] at hword
      exact absurd hword (by decide)
    | succ depth =>
      exact ⟨fun hdepth => absurd hdepth (Nat.succ_ne_zero depth), ih h⟩

/-- Lexemes with nested brackets that start no function. -/
structure Loose (ls : List Lexeme) : Prop where
  nested : Nested ls
  func : ∀ l ∈ surface ls, l.isWord "func".toList = false

/-- No function is read in loose lexemes. -/
theorem Loose.quiet {ls : List Lexeme} (h : Loose ls) (rest : List Lexeme) : Quiet 0 ls rest :=
  quiet_of_surface h.func rest

/-- Two lists are loose together exactly if both are. -/
theorem loose_append {ls ms : List Lexeme} (hls : Nested ls) :
    Loose (ls ++ ms) ↔ Loose ls ∧ Loose ms := by
  constructor
  · intro h
    have hfunc := h.func
    rw [hls.surface_append] at hfunc
    exact ⟨⟨hls, fun l hl => hfunc l (by simp [hl])⟩,
      ⟨(h.nested.of_append hls.depthFrom).2, fun l hl => hfunc l (by simp [hl])⟩⟩
  · rintro ⟨h, h'⟩
    refine ⟨h.nested.append h'.nested, fun l hl => ?_⟩
    rw [hls.surface_append] at hl
    rcases List.mem_append.1 hl with hl | hl
    · exact h.func l hl
    · exact h'.func l hl

/-! ## Gaps -/

/-- The gaps of tiles are nested if all that is outside functions is. -/
theorem Tiling.nested_gaps {ts : List Tile} {last : List Lexeme} (h : Tiling ts last)
    (hnested : Nested (ts.flatMap Tile.gap ++ last)) : (∀ t ∈ ts, Nested t.gap) ∧ Nested last := by
  induction ts with
  | nil => exact ⟨by simp, hnested⟩
  | cons t ts ih =>
    rw [List.flatMap_cons, List.append_assoc] at hnested
    obtain ⟨hgap, hrest⟩ := hnested.of_append h.1.depth_gap
    obtain ⟨hgaps, hlast⟩ := ih h.2 hrest
    exact ⟨by simpa [hgap] using hgaps, hlast⟩

/-- The surface of gaps that are nested is that of each of them. -/
theorem surface_gaps {ts : List Tile} {last : List Lexeme} (hgaps : ∀ t ∈ ts, Nested t.gap) :
    surface (ts.flatMap Tile.gap ++ last) = ts.flatMap (fun t => surface t.gap) ++ surface last := by
  induction ts with
  | nil => rfl
  | cons t ts ih =>
    rw [List.flatMap_cons, List.append_assoc, (hgaps t (by simp)).surface_append,
      ih fun u hu => hgaps u (by simp [hu])]
    simp

/-- The first lexeme of the code stands outside brackets. -/
theorem mem_surface_of_head {ls : List Lexeme} {l : Lexeme} (h : (code ls).head? = some l) :
    l ∈ surface ls := by
  induction ls with
  | nil => simp at h
  | cons m ls ih =>
    rw [surface, surfaceFrom]
    rw [code_cons] at h
    split_ifs at h with hm
    · rw [deeper_of_isTrivia hm]
      exact List.mem_cons_of_mem m (ih h)
    · obtain rfl : m = l := by simpa using h
      exact List.mem_cons_self

/-- The gaps of tiles with the last one. -/
def gaps (ts : List Tile) (last : List Lexeme) : List (List Lexeme) := ts.map Tile.gap ++ [last]

/-- Each gap of a tiling is read. -/
theorem reads_gaps {ts : List Tile} {last : List Lexeme} {s : Text} (h : Reads (tiled ts last) s) :
    ∀ gap ∈ gaps ts last, ∃ s', Reads gap s' := by
  induction ts with
  | nil => exact fun gap hgap => ⟨s, by rwa [List.mem_singleton.1 hgap]⟩
  | cons t ts ih =>
    rw [tiled_cons, reads_append, reads_append, reads_append] at h
    intro gap hgap
    rcases List.mem_cons.1 hgap with rfl | hgap
    · exact ⟨_, h.1.1⟩
    · exact ih h.2.2 gap hgap

/-- Each declaration of a tiling is read. -/
theorem reads_declaration {ts : List Tile} {last : List Lexeme} {s : Text}
    (h : Reads (tiled ts last) s) {t : Tile} (ht : t ∈ ts) :
    ∃ s', Reads t.declaration.lexemes s' := by
  induction ts with
  | nil => simp at ht
  | cons u ts ih =>
    rw [tiled_cons, reads_append, reads_append, reads_append] at h
    rcases List.mem_cons.1 ht with rfl | ht
    · exact ⟨_, h.2.1⟩
    · exact ih h.2.2 ht

/-- The gaps are part of what is tiled. -/
theorem gaps_subset {ts : List Tile} {last gap : List Lexeme} (h : gap ∈ gaps ts last) :
    gap ⊆ tiled ts last := by
  intro l hl
  simp only [gaps, List.mem_append, List.mem_map, List.mem_singleton] at h
  rcases h with ⟨t, ht, rfl⟩ | rfl
  · exact List.mem_append_left _ (List.mem_flatMap.2 ⟨t, ht, by simp [Tile.lexemes, hl]⟩)
  · exact List.mem_append_right _ hl

/-- The declarations are part of what is tiled. -/
theorem declaration_subset {ts : List Tile} {last : List Lexeme} {t : Tile} (h : t ∈ ts) :
    t.declaration.lexemes ⊆ tiled ts last := by
  intro l hl
  exact List.mem_append_left _ (List.mem_flatMap.2 ⟨t, h, by simp [Tile.lexemes, hl]⟩)

theorem Sturdy.subset {ls ms : List Lexeme} (h : Sturdy ls) (hsub : ms ⊆ ls) : Sturdy ms :=
  fun l hl => h l (hsub hl)

/-- The gaps of nested tiles are loose if the keyword does not stand on the surface. -/
theorem loose_gaps {ts : List Tile} {last : List Lexeme} (hts : Tiling ts last)
    (h : Loose (ts.flatMap Tile.gap ++ last)) : ∀ gap ∈ gaps ts last, Loose gap := by
  obtain ⟨hgaps, hlast⟩ := hts.nested_gaps h.nested
  have hfunc := h.func
  rw [surface_gaps hgaps] at hfunc
  intro gap hgap
  simp only [gaps, List.mem_append, List.mem_map, List.mem_singleton] at hgap
  rcases hgap with ⟨t, ht, rfl⟩ | rfl
  · exact ⟨hgaps t ht, fun l hl => hfunc l (List.mem_append_left _ (List.mem_flatMap.2 ⟨t, ht, hl⟩))⟩
  · exact ⟨hlast, fun l hl => hfunc l (List.mem_append_right _ hl)⟩

/-! ## Texts that can be moved -/

/-- A text that is read as a header again if a newline follows it. -/
def IsHeaderText (header package : Text) : Prop :=
  ∃ ls, textOf ls = header ∧ IsHeader ls package ∧ Loose ls ∧
    ∀ s : Text, s.head? = some '\n' → Reads ls s

/-- The text of other declarations, which can be written anywhere behind a header. -/
structure IsBlock (block : Text) : Prop where
  reads : ∃ ls, textOf ls = block ∧ Loose ls ∧
    (∀ l ∈ (code ls).head?, l.isWord "import".toList = false) ∧
    ∀ s : Text, s.head? = some '\n' → Reads ls s
  trimmed : trim block = block
  ne_nil : block ≠ []

/-- A block starts with no gap. -/
theorem IsBlock.head_not_gap {block : Text} (h : IsBlock block) :
    ∀ c ∈ block.head?, isGap c = false := by
  intro c hc
  have hhead := head_trim block
  rw [h.trimmed] at hhead
  by_contra hgap
  have hblank : isBlank c := isBlank_of_isGap (by simpa using hgap)
  rw [hhead c hc] at hblank
  exact Bool.false_ne_true hblank

theorem IsBlock.trimStart {block : Text} (h : IsBlock block) : trimStart block = block := by
  obtain ⟨c, rest, hblock⟩ := List.exists_cons_of_ne_nil h.ne_nil
  have hhead := head_trim block
  rw [h.trimmed, hblock] at hhead
  rw [hblock]
  exact trimStart_cons_of_not_blank (hhead c rfl) rest

theorem IsBlock.trimEnd {block : Text} (h : IsBlock block) : trimEnd block = block := by
  rw [← h.trimmed, trim, trimEnd_trimEnd]

/-- The words outside brackets are among the code. -/
theorem surface_congr {ls ms : List Lexeme} {w : Text} (hcode : code ms = code ls)
    (h : ∀ l ∈ surface ls, l.isWord w = false) : ∀ l ∈ surface ms, l.isWord w = false := by
  intro l hl
  by_contra hword
  have hkind : l.kind = .word := (Lexeme.isWord_iff.1 (by simpa using hword)).1
  have hmem : l ∈ code (surface ms) :=
    List.mem_filter.2 ⟨hl, by simp [word_not_isTrivia hkind]⟩
  have hsurface : code (surface ms) = code (surface ls) := by
    rw [surface, surface, code_surfaceFrom, hcode, code_surfaceFrom]
  rw [hsurface] at hmem
  exact hword (h l (List.mem_filter.1 hmem).1)

/-- What is left of loose lexemes without the white space around them is a block. -/
theorem isBlock_trim {ls : List Lexeme} {s : Text} (hreads : Reads ls s) (hsturdy : Sturdy ls)
    (hloose : Loose ls) (himport : ∀ l ∈ (code ls).head?, l.isWord "import".toList = false)
    (hne : trim (textOf ls) ≠ []) : IsBlock (trim (textOf ls)) := by
  obtain ⟨ms, htext, hcode, -, hread⟩ := exists_trim hreads hsturdy
  refine ⟨⟨ms, htext, ⟨(nested_congr hcode).2 hloose.nested, ?_⟩, ?_, hread⟩, trim_trim _, hne⟩
  · exact surface_congr hcode hloose.func
  · rwa [hcode]

/-- A file whose parts can be written one below the other and read again. -/
structure Tidy (file : File) : Prop where
  header : ∃ header package, file.header = some header ∧ file.package = some package ∧
    IsHeaderText header package
  declarations : ∀ block ∈ file.declarations, IsBlock block
  functions : ∀ f ∈ file.functions, Whole f ∧ Sturdy (lex f.text)

/-- A header and tiles that can be taken apart: brackets are nested in each gap, and none of them starts
a function or an import. -/
structure TidyTiles (header : List Lexeme) (package : Text) (ts : List Tile)
    (last : List Lexeme) : Prop where
  isHeader : IsHeader header package
  loose : Loose header
  tiling : Tiling ts last
  gap_loose : ∀ gap ∈ gaps ts last, Loose gap
  gap_import : ∀ gap ∈ gaps ts last, ∀ l ∈ (code gap).head?, l.isWord "import".toList = false

/-- The reader of a file finds the parts as they are. -/
theorem TidyTiles.ofLexemes {header : List Lexeme} {package : Text} {ts : List Tile}
    {last : List Lexeme} (h : TidyTiles header package ts last) :
    File.ofLexemes (header ++ tiled ts last) =
      { header := some (textOf header), package := some package, functions := ts.map Tile.function
        declarations := ((gaps ts last).map fun gap => trim (textOf gap)).filter (· ≠ []) } := by
  -- the header does not go on behind it: either code of the first gap or `func` follows
  have himport : ∀ l ∈ (code (tiled ts last)).head?, l.isWord "import".toList = false := by
    intro l hl
    cases ts with
    | nil => exact h.gap_import last (by simp [gaps]) l hl
    | cons t ts =>
      have hfits := h.tiling.1
      rw [tiled_cons, code_append, code_append, code_eq_nil_iff.2 hfits.isTrivia,
        List.append_nil] at hl
      cases hgap : code t.gap with
      | nil =>
        have hfunc : code (t.declaration.lexemes ++ tiled ts last) =
            funcWord :: code (t.declaration.tail ++ tiled ts last) := by
          rw [Declaration.lexemes, List.cons_append, code_cons]
          rfl
        obtain rfl : funcWord = l := by simpa [hgap, hfunc] using hl
        rfl
      | cons first more =>
        refine h.gap_import t.gap (by simp [gaps]) l ?_
        simpa [hgap] using hl
  rw [ofLexemes_tiled h.isHeader himport (h.loose.quiet _) h.loose.nested.depthFrom h.tiling]
  simp [gaps, Function.comp_def]

end Scaffold.Go
