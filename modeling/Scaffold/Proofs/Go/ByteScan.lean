import Mathlib.Data.List.Forall2
import Mathlib.Order.MinMax
import Scaffold.Proofs.Go.TokenFunctions
import Scaffold.Proofs.Go.TokenHeader
import Scaffold.Proofs.Go.Whole

/-!
# The byte scanner finds the file

The scanner of Go files works on bytes and checks nothing: it takes tokens by their numbers, texts between two
positions and differences of positions as they come. None of them is ever wrong, whatever the text is
(`scan_faultless`). The tokens are those of the lexemes, with the positions where these begin and end, so they tile
the text and never cut a character; and the header, the functions and the texts between them are those that the
reader of lexemes finds (`scan_eq`).
-/

namespace Scaffold.Go

open Text
open Schema (IsAt isBoundary isBoundary_of_isAt)

variable {s : Text}

/-! ## Texts between functions -/

/-- What is taken up to a number is what is taken up to a smaller one and the slice between. -/
theorem take_append_slice (all : List Lexeme) {m n : Nat} (h : m ≤ n) :
    all.take m ++ slice all m n = all.take n := by
  have hcut := List.take_append_drop m (all.take n)
  rwa [List.take_take, Nat.min_eq_left h] at hcut

/-- More lexemes extend further. -/
theorem extent_take_mono (all : List Lexeme) {m n : Nat} (h : m ≤ n) :
    extent (all.take m) ≤ extent (all.take n) := by
  rw [← take_append_slice all h, extent_append]
  exact Nat.le_add_right _ _

/-- The text between two lexemes of a file. -/
theorem cut_take (s : Text) {m n : Nat} (h : m ≤ n) :
    cut s (extent ((lex s).take m)) (extent ((lex s).take n)) = .ok (textOf (slice (lex s) m n)) := by
  have hlex : lex s = (lex s).take m ++ slice (lex s) m n ++ (lex s).drop n := by
    rw [take_append_slice _ h, List.take_append_drop]
  rw [← take_append_slice _ h]
  exact cut_behind hlex

/-- The scanner takes the text between two lexemes, and none if the second is not behind the first. -/
theorem gapBetween_take (s : Text) (m n : Nat) :
    gapBetween s (extent ((lex s).take m)) (extent ((lex s).take n)) = .ok (textOf (slice (lex s) m n)) := by
  by_cases h : m ≤ n
  · rw [gapBetween, if_neg (Nat.not_lt.2 (extent_take_mono _ h)), cut_take s h]
  -- the second place is not behind the first: there is nothing between them
  · have hle : n ≤ m := by omega
    have hnil : slice (lex s) m n = [] := by
      apply List.drop_eq_nil_of_le
      rw [List.length_take]
      omega
    have hnil' : slice (lex s) n n = [] := by
      apply List.drop_eq_nil_of_le
      rw [List.length_take]
      omega
    rw [gapBetween, hnil]
    split_ifs with hlt
    · rfl
    · have heq : extent ((lex s).take m) = extent ((lex s).take n) := by
        have hmono := extent_take_mono (lex s) hle
        omega
      rw [heq, cut_take s (Nat.le_refl n), hnil']

/-- Where a function stands in the bytes of a file, with the comment above it. -/
def Placed.span (all : List Lexeme) (p : Placed) : Span := ⟨extent (all.take p.start), extent (all.take p.stop)⟩

theorem extent_lex (s : Text) : extent (lex s) = byteSize s := by
  rw [extent, textOf_lex]

/-- The scanner takes the texts between functions that the reader takes. -/
theorem gapsBetween_eq (s : Text) (cursor : Nat) (ps : List Placed) :
    gapsBetween s (extent ((lex s).take cursor)) (ps.map (Placed.span (lex s))) =
      .ok (gapTexts (lex s) cursor ps) := by
  induction ps generalizing cursor with
  | nil =>
    have hend : byteSize s = extent ((lex s).take (lex s).length) := by rw [List.take_length, extent_lex]
    have hslice : slice (lex s) cursor (lex s).length = (lex s).drop cursor := by
      rw [slice, List.take_length]
    rw [List.map_nil, gapsBetween, hend, gapBetween_take, hslice]
    rfl
  | cons p ps ih =>
    have hmono : Monotone fun n => extent ((lex s).take n) := fun _ _ h => extent_take_mono (lex s) h
    -- the cursor moves to the end of a function, if it is not behind it already
    have hmax : max (extent ((lex s).take cursor)) (extent ((lex s).take p.stop)) =
        extent ((lex s).take (max cursor p.stop)) := (hmono.map_max).symm
    rw [List.map_cons, gapsBetween]
    simp only [Placed.span, gapBetween_take, hmax, bind, Except.bind, pure, Except.pure]
    rw [ih]
    rfl

/-- The scanner places the functions of tiles where the reader places them. -/
theorem map_span_scannedTiles (front : List Lexeme) (ts : List Tile) (last : List Lexeme) :
    (scannedTiles (extent front) ts).map ScannedFunction.span =
      (placedTiles front.length ts).map (Placed.span (front ++ tiled ts last)) := by
  induction ts generalizing front with
  | nil => rfl
  | cons t ts ih =>
    have hlist : front ++ tiled (t :: ts) last = front ++ t.lexemes ++ tiled ts last := by
      simp [tiled]
    have hstart : (front ++ tiled (t :: ts) last).take (front.length + t.gap.length) = front ++ t.gap := by
      rw [tiled_cons, List.append_assoc t.gap, ← List.append_assoc, ← List.length_append, List.take_left]
    have hstop : (front ++ tiled (t :: ts) last).take (front.length + t.lexemes.length) = front ++ t.lexemes := by
      rw [hlist, ← List.length_append, List.take_left]
    have hrest := ih (front ++ t.lexemes)
    rw [extent_append, List.length_append, ← hlist] at hrest
    rw [scannedTiles, placedTiles, List.map_cons, List.map_cons, hrest, Placed.span, hstart, hstop,
      extent_append, extent_append]
    rfl

/-! ## The file -/

/-- Where there is a header, the second code names the package. -/
theorem exists_package {ls : List Lexeme} {n : Nat} (h : headerLength? .start 0 0 ls = some n) :
    ∃ package, ((code ls).map Lexeme.text)[1]? = some package := by
  obtain ⟨keyword, name, more, hcode, -, -⟩ := names_of_headerLength? h
  rw [hcode]
  exact ⟨name.text, rfl⟩

/-- The scanner goes through without a fault, and it finds the header, the package and the declarations of the
file, and the functions of its tiles. -/
theorem scan_eq {ts : List Tile} {last : List Lexeme} (hlex : lex s = tiled ts last) (h : Tiling ts last) :
    scan s = .ok
      { header := (File.parse s).header, package := (File.parse s).package, functions := scannedTiles 0 ts
        declarations := (File.parse s).declarations } := by
  have hplaced : placed (lex s) = placedTiles 0 ts := by
    rw [placed, hlex]
    exact placedFrom_tiled h 0
  have hfunctions : functionsFrom s (tokensOf 0 (lex s)) none 0 0 = .ok (scannedTiles 0 ts) :=
    functionsFrom_tiled h (show lex s = [] ++ tiled ts last from hlex)
  have hspans : (scannedTiles 0 ts).map ScannedFunction.span = (placed (lex s)).map (Placed.span (lex s)) := by
    rw [hplaced, hlex]
    exact map_span_scannedTiles [] ts last
  rw [scan, tokenize_eq]
  simp only [bind, Except.bind, headerEnd_eq, hfunctions, hspans]
  cases hheader : headerLength? .start 0 0 (lex s) with
  | none =>
    have hgaps := gapsBetween_eq s 0 (placed (lex s))
    rw [List.take_zero, extent_nil] at hgaps
    simp only [Option.bind_none, Option.map_none, Option.elim_none, cutSpan?, hgaps, pure, Except.pure, File.parse,
      File.ofLexemes, hheader]
    rfl
  | some n =>
    obtain ⟨package, hpackage⟩ := exists_package hheader
    have hcut : cut s 0 (extent ((lex s).take n)) = .ok (textOf ((lex s).take n)) := by
      have hcut := cut_take s (Nat.zero_le n)
      rwa [List.take_zero] at hcut
    have hpackage' : (((lex s).filter (!·.isTrivia)).map Lexeme.text)[1]? = some package := hpackage
    simp only [Option.bind_some, hpackage, Option.map_some, Option.elim_some, cutSpan?, hcut, gapsBetween_eq,
      Except.map, pure, Except.pure, File.parse, File.ofLexemes, hheader, hpackage']
    rfl

/-- The scanner and the reader have found the same function, and it can be renamed. -/
structure SameFunction (f : ScannedFunction) (g : Function) : Prop where
  name : f.name = g.name
  leadingComment : f.leadingComment = g.leadingComment
  signature : f.signature = g.signature
  body : f.body = g.body
  text : f.text = g.text
  renamed : ∀ name, f.renamed name = .ok (g.renamed name)

/-- A scanned function is renamed like the one that is read. -/
theorem Declaration.renamed_scanned (d : Declaration) (comment : Option Text) (span : Span) (name : Text) :
    (d.scanned comment span).renamed name = .ok ((d.function comment).renamed name) := by
  have htext : textOf d.lexemes = textOf (funcWord :: d.receiver) ++
      (d.name.text ++ (textOf d.parameters ++ ['{'] ++ textOf d.body ++ ['}'])) := by
    rw [d.textOf_lexemes comment]
    simp [Declaration.function, Function.text, Function.signature]
  have hfront : cut (textOf d.lexemes) 0 (extent (funcWord :: d.receiver)) =
      .ok (textOf (funcWord :: d.receiver)) := by
    have hcut := cut_append [] (textOf (funcWord :: d.receiver))
      (d.name.text ++ (textOf d.parameters ++ ['{'] ++ textOf d.body ++ ['}']))
    rwa [byteSize_nil, Nat.zero_add, List.nil_append, ← htext] at hcut
  have hrest : cut (textOf d.lexemes) (extent (funcWord :: d.receiver) + byteSize d.name.text)
      (byteSize (textOf d.lexemes)) = .ok (textOf d.parameters ++ ['{'] ++ textOf d.body ++ ['}']) := by
    have hcut := cut_append (textOf (funcWord :: d.receiver) ++ d.name.text)
      (textOf d.parameters ++ ['{'] ++ textOf d.body ++ ['}']) []
    rwa [List.append_nil, List.append_assoc, ← htext, ← byteSize_append, List.append_assoc, ← htext,
      byteSize_append] at hcut
  rw [ScannedFunction.renamed]
  simp only [Declaration.scanned, hfront, hrest, bind, Except.bind, pure, Except.pure]
  simp [Declaration.function, Function.renamed]

/-- The function of a tile is scanned as it is read. -/
theorem Tile.sameFunction (t : Tile) (pos : Nat) : SameFunction (t.scanned pos) t.function where
  name := rfl
  leadingComment := rfl
  signature := by
    simp [Tile.scanned, Tile.function, Declaration.scanned, Declaration.function, Function.signature,
      Declaration.opening, markOf]
  body := rfl
  text := t.declaration.textOf_lexemes (commentText? t.lead)
  renamed := t.declaration.renamed_scanned (commentText? t.lead) _

theorem sameFunctions (pos : Nat) (ts : List Tile) :
    List.Forall₂ SameFunction (scannedTiles pos ts) (ts.map Tile.function) := by
  induction ts generalizing pos with
  | nil => exact .nil
  | cons t ts ih => exact .cons (t.sameFunction pos) (ih _)

/-! ## Tokens among the bytes -/

/-- A token is that of a lexeme. -/
theorem exists_of_mem_tokensOf {pos : Nat} {ls : List Lexeme} {t : Token} (h : t ∈ tokensOf pos ls) :
    ∃ front l rest, ls = front ++ l :: rest ∧ t.start = pos + extent front ∧
      t.stop = pos + extent front + byteSize l.text := by
  induction ls generalizing pos with
  | nil => cases h
  | cons l ls ih =>
    rw [tokensOf, List.mem_append, Option.mem_toList] at h
    rcases h with hhead | htail
    · obtain ⟨kind, -, rfl⟩ := Option.map_eq_some_iff.1 hhead
      exact ⟨[], l, ls, rfl, rfl, rfl⟩
    · obtain ⟨front, m, rest, rfl, hstart, hstop⟩ := ih htail
      refine ⟨l :: front, m, rest, rfl, ?_, ?_⟩
      · rw [hstart, extent_cons, Nat.add_assoc]
      · rw [hstop, extent_cons, Nat.add_assoc pos]

/-- Tokens come one after the other. -/
theorem pairwise_tokensOf (pos : Nat) (ls : List Lexeme) :
    (tokensOf pos ls).Pairwise fun t u => t.stop ≤ u.start := by
  induction ls generalizing pos with
  | nil => exact .nil
  | cons l ls ih =>
    rw [tokensOf]
    cases htoken : l.token? pos with
    | none => exact ih _
    | some t =>
      obtain ⟨kind, -, rfl⟩ := Option.map_eq_some_iff.1 htoken
      refine .cons ?_ (ih _)
      intro u hu
      obtain ⟨front, m, rest, -, hstart, -⟩ := exists_of_mem_tokensOf hu
      rw [hstart]
      exact Nat.le_add_right _ _

/-- A byte of white space is none of a token. -/
theorem isGapByte_of_mem {t : Text} (ht : ∀ c ∈ t, isGap c) {b : UInt8} (hb : b ∈ bytesOf t) : isGapByte b := by
  obtain ⟨c, hc, hb⟩ := List.mem_flatMap.1 hb
  have hencode := utf8EncodeChar_of_ascii (isAscii_of_not_isWordChar (isWordChar_of_isGap (ht c hc)))
  rw [hencode, List.mem_singleton] at hb
  rw [hb, isGapByte_eq hencode, ht c hc]

/-- Every byte outside tokens is white space. -/
theorem isGapByte_of_forall {pos j : Nat} {ls : List Lexeme} {b : UInt8} (hreads : Reads ls [])
    (hb : (bytesOf (textOf ls))[j]? = some b)
    (hout : ∀ t ∈ tokensOf pos ls, ¬(t.start ≤ pos + j ∧ pos + j < t.stop)) : isGapByte b := by
  induction ls generalizing pos j with
  | nil => cases hb
  | cons l ls ih =>
    rw [textOf_cons, bytesOf_append] at hb
    -- the byte is in the first lexeme, which is white space or a token, or behind it
    by_cases hj : j < (bytesOf l.text).length
    · rw [List.getElem?_append_left hj] at hb
      cases hkind : tokenKind? l.kind with
      | none =>
        have hblank := tokenKind?_eq_none_iff.1 hkind
        exact isGapByte_of_mem (hreads.1.blank_chars hblank) (List.mem_of_getElem? hb)
      | some kind =>
        rw [tokensOf_cons hkind] at hout
        exact absurd ⟨Nat.le_add_right _ _, Nat.add_lt_add_left hj _⟩ (hout _ List.mem_cons_self)
    · have hle : (bytesOf l.text).length ≤ j := by omega
      rw [List.getElem?_append_right hle] at hb
      refine @ih (pos + byteSize l.text) _ hreads.2 hb ?_
      intro t ht
      have hnot := hout t (by rw [tokensOf]; exact List.mem_append_right _ ht)
      rw [length_bytesOf] at hle ⊢
      have hsum : pos + byteSize l.text + (j - byteSize l.text) = pos + j := by omega
      rwa [hsum]

/-- Between two lexemes no character is cut. -/
theorem isBoundary_extent {front rest : List Lexeme} (hlex : lex s = front ++ rest) :
    isBoundary (bytesOf s) (extent front) := by
  have htext := textOf_lex s
  rw [hlex, textOf_append] at htext
  have hat : IsAt (bytesOf s) (extent front) (bytesOf (textOf rest)) :=
    ⟨bytesOf (textOf front), by rw [← bytesOf_append, htext], rfl⟩
  exact isBoundary_of_isAt hat

/-- Whatever bytes a file has: the scanner of tokens comes to its end, and its tokens are not empty, begin and end
inside the file between two characters, and come one after the other with nothing but white space in front,
between and behind them. So all that is looked up by number is there, all that is cut out lies inside its text
and between two characters, and no distance is negative: the reader comes to its end without a fault, and so
does every renaming of a function that it finds. It finds the same file as the reader of lexemes. -/
theorem scan_faultless (s : Text) :
    (∃ tokens, tokenize s = .ok tokens ∧
      (∀ t ∈ tokens, t.start < t.stop ∧ t.stop ≤ byteSize s ∧ isBoundary (bytesOf s) t.start ∧
        isBoundary (bytesOf s) t.stop) ∧
      (tokens.Pairwise fun t u => t.stop ≤ u.start) ∧
      ∀ i b, (bytesOf s)[i]? = some b → (∀ t ∈ tokens, ¬(t.start ≤ i ∧ i < t.stop)) → isGapByte b) ∧
    ∃ file, scan s = .ok file ∧ file.header = (File.parse s).header ∧ file.package = (File.parse s).package ∧
      file.declarations = (File.parse s).declarations ∧
      List.Forall₂ SameFunction file.functions (File.parse s).functions := by
  constructor
  · refine ⟨tokensOf 0 (lex s), tokenize_eq s, ?_, pairwise_tokensOf 0 (lex s), ?_⟩
    · intro t ht
      obtain ⟨front, l, rest, hlex, hstart, hstop⟩ := exists_of_mem_tokensOf ht
      have hlex' : lex s = (front ++ [l]) ++ rest := by simp [hlex]
      have hreads := reads_lex s
      rw [hlex] at hreads
      obtain ⟨c, tail, htext, -⟩ := (reads_append.1 hreads).2.1
      have hpos : 0 < byteSize l.text := by
        have hchar := byteSize_singleton_pos c
        rw [htext, byteSize_cons]
        omega
      have hsize : byteSize s = extent front + byteSize l.text + extent rest := by
        rw [← extent_lex, hlex', extent_append, ← extent_concat]
      rw [Nat.zero_add] at hstart hstop
      rw [hstart, hstop]
      refine ⟨by omega, by omega, isBoundary_extent hlex, ?_⟩
      rw [extent_concat]
      exact isBoundary_extent hlex'
    · intro i b hb hout
      refine @isGapByte_of_forall 0 i _ _ (reads_lex s) ?_ ?_
      · rw [textOf_lex]
        exact hb
      · simpa using hout
  · obtain ⟨ts, last, hlex, hts, hfunctions⟩ := exists_tiling_parse s
    refine ⟨_, scan_eq hlex hts, rfl, rfl, rfl, ?_⟩
    rw [hfunctions]
    exact sameFunctions 0 ts

end Scaffold.Go
