import Scaffold.Proofs.Go.Tiling

/-!
# Whole functions

A function that was read off a file can be written anywhere else: its text is read as the same
declaration again, whatever follows, and the comment above it is a block of comments that can stand in
front of a newline. `whole_of_mem_functions` says so for the functions of every source, and
`text_infix_of_mem_functions` that their texts stand in it.
-/

namespace Scaffold.Go

open Text

/-! ## Comments above a declaration -/

/-- What may stand between a comment and the declaration that it belongs to. -/
def Lexeme.IsClose (l : Lexeme) : Prop := l.kind = .comment ∨ l.kind = .blank ∧ isTight l

/-- Comments with the white space between and behind them, without a blank line. -/
structure IsLead (lead : List Lexeme) : Prop where
  close : ∀ l ∈ lead, l.IsClose
  head : ∀ l ∈ lead.head?, l.kind = .comment

theorem IsLead.nil : IsLead [] := ⟨by simp, by simp⟩

/-- What is held above the cursor goes on with a lexeme that is close to it. -/
theorem IsLead.concat {lead : List Lexeme} {l : Lexeme} (h : IsLead lead) (hl : l.IsClose)
    (hkind : lead = [] → l.kind = .comment) : IsLead (lead ++ [l]) := by
  refine ⟨fun m hm => ?_, ?_⟩
  · rcases List.mem_append.1 hm with hm | hm
    · exact h.close m hm
    · rwa [List.mem_singleton.1 hm]
  · cases lead with
    | nil => simpa using hkind rfl
    | cons first lead => simpa using h.head

/-- What a step carries can be held above the cursor. -/
theorem IsLead.carry {lead : List Lexeme} (h : IsLead lead) (depth : Nat) (l : Lexeme) :
    IsLead (carry depth lead l) := by
  unfold Go.carry
  split
  · next hkind =>
    split_ifs with hcut
    · exact .nil
    · obtain ⟨hlead, htight⟩ : lead ≠ [] ∧ isTight l := by simpa using hcut
      exact h.concat (.inr ⟨hkind, htight⟩) fun hnil => absurd hnil hlead
  · next hkind =>
    split_ifs
    · exact h.concat (.inl hkind) fun _ => hkind
    · exact .nil
  · exact .nil

/-- What the reader holds as comments above the cursor. -/
theorem IsLead.leadFrom {lead : List Lexeme} (h : IsLead lead) (depth : Nat) (ls : List Lexeme) :
    IsLead (leadFrom depth lead ls) := by
  induction ls generalizing depth lead with
  | nil => exact h
  | cons l ls ih => exact ih (h.carry depth l) _

/-- What is held above the cursor is no code. -/
theorem Lexeme.IsClose.isTrivia {l : Lexeme} (h : l.IsClose) : l.isTrivia := by
  rcases h with hkind | ⟨hkind, -⟩ <;> simp [Lexeme.isTrivia, hkind]

/-- Comments above a declaration are held until it is reached. -/
theorem leadFrom_of_isLead {lead ls : List Lexeme} (h : IsLead (lead ++ ls)) :
    leadFrom 0 lead ls = lead ++ ls := by
  induction ls generalizing lead with
  | nil => simp [leadFrom]
  | cons l ls ih =>
    have hl : l.IsClose := h.close l (by simp)
    have hcarry : carry 0 lead l = lead ++ [l] := by
      rcases hl with hkind | ⟨hkind, htight⟩
      · simp [carry, hkind]
      · have hlead : lead ≠ [] := by
          rintro rfl
          have hhead : l.kind = .comment := h.head l (by simp)
          simp [hkind] at hhead
        simp [carry, hkind, hlead, htight]
    rw [leadFrom, deeper_of_isTrivia hl.isTrivia, hcarry, ih (by simpa using h)]
    simp

theorem depthFrom_of_isTrivia {ls : List Lexeme} (h : ∀ l ∈ ls, l.isTrivia) (depth : Nat) :
    depthFrom depth ls = depth := by
  induction ls with
  | nil => rfl
  | cons l ls ih =>
    rw [depthFrom, List.foldl_cons, deeper_of_isTrivia (h l (by simp))]
    exact ih fun m hm => h m (by simp [hm])

/-- No function is read in trivia. -/
theorem quiet_of_isTrivia {ls : List Lexeme} (h : ∀ l ∈ ls, l.isTrivia) (depth : Nat)
    (rest : List Lexeme) : Quiet depth ls rest := by
  induction ls generalizing depth with
  | nil => trivial
  | cons l ls ih =>
    refine ⟨fun _ hfunc => ?_, ih (fun m hm => h m (by simp [hm])) _⟩
    have htrivia := h l (by simp)
    rw [hfunc] at htrivia
    exact absurd htrivia (by decide)

/-- The text of comments that can be written above a declaration: in front of a newline it is read as
comments without a blank line between. -/
def IsComment (comment : Text) : Prop :=
  ∃ ls, textOf ls = comment ∧ IsLead ls ∧ (∃ l, ls.getLast? = some l ∧ l.kind = .comment) ∧
    ∀ s : Text, s.head? = some '\n' → Reads ls s

/-- A comment starts with a slash. -/
theorem Lexeme.EndsBefore.comment_head {l : Lexeme} {s : Text} (h : l.EndsBefore s)
    (hkind : l.kind = .comment) : l.text.head? = some '/' := by
  obtain ⟨kind, text⟩ := l
  obtain ⟨c, tail, rfl, hshape⟩ := h
  obtain rfl : kind = .comment := hkind
  cases hshape <;> rfl

/-- The first comment starts with a slash. -/
theorem IsLead.text_head {lead : List Lexeme} {s : Text} (h : IsLead lead) (hreads : Reads lead s)
    (hne : lead ≠ []) : (textOf lead).head? = some '/' := by
  obtain ⟨l, rest, rfl⟩ := List.exists_cons_of_ne_nil hne
  have hhead := hreads.1.comment_head (h.head l (by simp))
  rw [textOf_cons, List.head?_append, hhead]
  rfl

/-- No white space stands in front of the first comment. -/
theorem IsLead.trimStart_textOf {lead : List Lexeme} {s : Text} (h : IsLead lead)
    (hreads : Reads lead s) : trimStart (textOf lead) = textOf lead := by
  cases lead with
  | nil => rfl
  | cons l lead =>
    have hhead := h.text_head hreads (List.cons_ne_nil l lead)
    obtain ⟨tail, htail⟩ := List.head?_eq_some_iff.1 hhead
    rw [htail]
    exact trimStart_cons_of_not_blank (by decide) tail

/-- A comment that something follows ends with its mark or with its line. -/
theorem Lexeme.EndsBefore.isClosed_comment {l : Lexeme} {s : Text} (h : l.EndsBefore s)
    (hkind : l.kind = .comment) (hs : s ≠ []) : l.isClosed := by
  obtain ⟨kind, text⟩ := l
  obtain ⟨c, tail, rfl, hshape⟩ := h
  obtain rfl : kind = .comment := hkind
  cases hshape with
  | line => rfl
  | general htail => exact endsWith_iff.2 (suffix_of_through htail hs)

/-- White space is not followed by white space. -/
theorem Lexeme.EndsBefore.head_not_gap {l : Lexeme} {s : Text} (h : l.EndsBefore s)
    (hkind : l.kind = .blank) : ∀ c ∈ s.head?, isGap c = false := by
  obtain ⟨kind, text⟩ := l
  obtain ⟨c, tail, rfl, hshape⟩ := h
  obtain rfl : kind = .blank := hkind
  cases hshape with
  | blank hc htail hs => exact hs

/-- White space is one lexeme. -/
theorem Lexeme.EndsBefore.next_ne_blank {l m : Lexeme} {s s' : Text} (hl : l.EndsBefore (m.text ++ s))
    (hkind : l.kind = .blank) (hm : m.EndsBefore s') : m.kind ≠ .blank := by
  intro hblank
  obtain ⟨c, tail, htext, -⟩ := id hm
  have hgap := hm.blank_chars hblank c (by simp [htext])
  have hnot := hl.head_not_gap hkind c (by simp [htext])
  simp [hgap] at hnot

/-- White space is read up to what is no gap. -/
theorem endsBefore_gap {gap s : Text} (hne : gap ≠ []) (hgap : ∀ c ∈ gap, isGap c)
    (hs : ∀ c ∈ s.head?, isGap c = false) : (Lexeme.mk .blank gap).EndsBefore s := by
  obtain ⟨c, tail, rfl⟩ := List.exists_cons_of_ne_nil hne
  exact ⟨c, tail, rfl, .blank (hgap c (by simp)) (fun d hd => hgap d (by simp [hd])) hs⟩

/-- What is read in front of a newline is read with the newline. -/
theorem reads_append_newline {ls : List Lexeme} {s : Text}
    (h : ∀ s : Text, s.head? = some '\n' → Reads ls s) (hs : ∀ c ∈ s.head?, isGap c = false) :
    Reads (ls ++ [⟨.blank, ['\n']⟩]) s :=
  reads_append.2 ⟨h _ rfl, endsBefore_gap (by decide) (by decide) hs, trivial⟩

/-- Right above white space stands a comment, since two pieces of white space do not stand side by
side. -/
theorem IsLead.comment_above_blank {front : List Lexeme} {m l : Lexeme} {s : Text}
    (h : IsLead (front ++ [m] ++ [l])) (hreads : Reads (front ++ [m] ++ [l]) s)
    (hl : l.kind = .blank) : m.kind = .comment := by
  refine (h.close m (by simp)).resolve_right fun hm => ?_
  obtain ⟨hfront, ⟨hlEnds, -⟩⟩ := reads_append.1 hreads
  obtain ⟨-, ⟨hmEnds, -⟩⟩ := reads_append.1 hfront
  have hmEnds : m.EndsBefore (l.text ++ s) := by simpa using hmEnds
  exact hmEnds.next_ne_blank hm.1 hlEnds hl

theorem IsLead.of_append {front back : List Lexeme} (h : IsLead (front ++ back)) : IsLead front := by
  refine ⟨fun l hl => h.close l (List.mem_append_left back hl), fun l hl => h.head l ?_⟩
  rw [List.head?_append, Option.mem_def.1 hl]
  rfl

/-- The text above a declaration is made of all comments that were held there, and they can be written
above it again. -/
theorem exists_comments_of_lead {lead : List Lexeme} {s comment : Text} (hlead : IsLead lead)
    (hreads : Reads lead s) (hs : s ≠ []) (h : commentText? lead = some comment) :
    ∃ ls, (∀ l ∈ lead, l.kind = .comment → l ∈ ls) ∧ textOf ls = comment ∧ IsLead ls ∧
      (∃ l, ls.getLast? = some l ∧ l.kind = .comment) ∧
      ∀ s : Text, s.head? = some '\n' → Reads ls s := by
  rcases List.eq_nil_or_concat lead with rfl | ⟨front, l, rfl⟩
  · simp [commentText?] at h
  rw [List.concat_eq_append] at hlead hreads h
  obtain ⟨hfront, ⟨hl, -⟩⟩ := reads_append.1 hreads
  by_cases hkind : l.kind = .blank
  · -- the white space below the comments is not part of them
    have htext : front ≠ [] ∧ textOf front = comment := by
      simpa [commentText?, hkind] using h
    obtain ⟨hne, rfl⟩ := htext
    obtain ⟨first, m, rfl⟩ := (List.eq_nil_or_concat front).resolve_left hne
    simp only [List.concat_eq_append] at hlead hreads hfront ⊢
    have hm := hlead.comment_above_blank hreads hkind
    have hends := (reads_append.1 hfront).2.1
    have hclosed := hends.isClosed_comment hm (by simp [hl.text_ne_nil])
    have hall : ∀ n ∈ first ++ [m] ++ [l], n.kind = .comment → n ∈ first ++ [m] := by
      intro n hn hcomment
      refine (List.mem_append.1 hn).resolve_right fun hn => ?_
      rw [List.mem_singleton.1 hn, hkind] at hcomment
      cases hcomment
    exact ⟨first ++ [m], by simpa using hall, rfl, hlead.of_append, ⟨m, by simp, hm⟩,
      fun s' hs' => hfront.before_newline hclosed (by simp [hm]) hs'⟩
  · have hcomment : l.kind = .comment :=
      (hlead.close l (by simp)).resolve_right fun hblank => hkind hblank.1
    have htext : textOf (front ++ [l]) = comment := by
      simpa [commentText?, hkind] using h
    have hclosed := hl.isClosed_comment hcomment hs
    exact ⟨front ++ [l], by simp_all, htext, hlead, ⟨l, by simp, hcomment⟩,
      fun s' hs' => hreads.before_newline hclosed (by simp [hcomment]) hs'⟩

/-! ## Functions -/

/-- A function that can be written anywhere: its text is read as its declaration, and the comment above
it can be written above it. -/
structure Whole (f : Function) : Prop where
  declaration : ∃ d : Declaration, d.Valid ∧ lex f.text = d.lexemes ∧
    f = d.function f.leadingComment
  comment : ∀ comment ∈ f.leadingComment, IsComment comment

/-- A declaration ends with its brace, whatever follows. -/
theorem Declaration.reads {d : Declaration} {s : Text} (h : Reads d.lexemes s) (s' : Text) :
    Reads d.lexemes s' := by
  have hlast : d.lexemes = funcWord :: (d.receiver ++ d.name :: (d.parameters ++ markOf '{' ::
      d.body)) ++ [markOf '}'] := by
    simp [Declaration.lexemes, Declaration.tail]
  rw [hlast] at h ⊢
  obtain ⟨hfront, -⟩ := reads_append.1 h
  have hclose : Shape (.mark '}') '}' [] s' :=
    .mark (by decide) (by decide) (by decide) fun hslash => absurd hslash (by decide)
  exact reads_append.2 ⟨hfront.congr (by simp [markOf]), ⟨'}', [], rfl, hclose⟩, trivial⟩

/-- The body is read in front of the brace that closes it. -/
theorem Declaration.reads_body {d : Declaration} {s : Text} (h : Reads d.lexemes s) :
    Reads d.body ('}' :: s) := by
  have hcut : d.lexemes = funcWord :: (d.receiver ++ d.name :: (d.parameters ++ [markOf '{'])) ++
      (d.body ++ [markOf '}']) := by
    simp [Declaration.lexemes, Declaration.tail]
  rw [hcut] at h
  exact (reads_append.1 (reads_append.1 h).2).1

theorem Declaration.mem_lexemes_of_mem_body {d : Declaration} {l : Lexeme} (h : l ∈ d.body) :
    l ∈ d.lexemes := by
  simp [Declaration.lexemes, Declaration.tail, h]

/-- The text of a declared function is lexed as the declaration. -/
theorem Declaration.lex_text {d : Declaration} {s : Text} (h : Reads d.lexemes s)
    (comment : Option Text) : lex (d.function comment).text = d.lexemes := by
  rw [← d.textOf_lexemes comment]
  exact lex_textOf (Declaration.reads h [])

/-- A whole function is a declaration that is read in front of anything. -/
theorem Whole.exists_reads {f : Function} (h : Whole f) :
    ∃ d : Declaration, d.Valid ∧ (∀ s, Reads d.lexemes s) ∧ f = d.function f.leadingComment := by
  obtain ⟨d, hd, hlex, hf⟩ := h.declaration
  refine ⟨d, hd, fun s => ?_, hf⟩
  have hreads := reads_lex f.text
  rw [hlex] at hreads
  exact Declaration.reads hreads s

/-- The lead of a tile can be held above the cursor. -/
theorem Tile.Fits.isLead {t : Tile} {rest : List Lexeme} (h : t.Fits rest) : IsLead t.lead := by
  rw [← h.lead]
  exact IsLead.nil.leadFrom 0 _

theorem Tile.Fits.isTrivia {t : Tile} {rest : List Lexeme} (h : t.Fits rest) :
    ∀ l ∈ t.lead, l.isTrivia :=
  fun l hl => (h.isLead.close l hl).isTrivia

/-- The gap of a tile ends outside brackets. -/
theorem Tile.Fits.depth_gap {t : Tile} {rest : List Lexeme} (h : t.Fits rest) :
    depthFrom 0 t.gap = 0 := by
  have hdepth := h.depth
  rwa [depthFrom_append, depthFrom_of_isTrivia h.isTrivia] at hdepth

/-- The functions of tiles are whole. -/
theorem whole_of_tiling {ts : List Tile} {last : List Lexeme} {s : Text} (h : Tiling ts last)
    (hreads : Reads (tiled ts last) s) : ∀ t ∈ ts, Whole t.function := by
  induction ts with
  | nil => simp
  | cons t ts ih =>
    obtain ⟨hfits, hts⟩ := h
    rw [tiled_cons, reads_append, reads_append, reads_append] at hreads
    obtain ⟨⟨-, hreadsLead⟩, hreadsDecl, hreadsRest⟩ := hreads
    intro u hu
    rcases List.mem_cons.1 hu with rfl | hu
    · refine ⟨⟨u.declaration, hfits.valid, Declaration.lex_text hreadsDecl _, rfl⟩, ?_⟩
      intro comment hcomment
      -- something follows the comment, so it is closed
      have hne : textOf u.declaration.lexemes ++ (textOf (tiled ts last) ++ s) ≠ [] := by
        simp [Declaration.lexemes, funcWord]
      obtain ⟨ls, -, hls⟩ :=
        exists_comments_of_lead hfits.isLead (by simpa using hreadsLead) hne hcomment
      exact ⟨ls, hls⟩
    · exact ih hts hreadsRest u hu

/-- Every source is made of tiles, whose functions are those that are read off it. -/
theorem exists_tiling_parse (s : Text) : ∃ ts last, lex s = tiled ts last ∧ Tiling ts last ∧
    (File.parse s).functions = ts.map Tile.function := by
  obtain ⟨ts, last, hlex, hts⟩ := exists_tiles (lex s) (reads_lex s).isShaped
  refine ⟨ts, last, hlex, hts, ?_⟩
  show (placed (lex s)).map Placed.function = _
  rw [hlex, placed, placedFrom_tiled hts, placedTiles_function]

/-- What is placed in a source is the function of a tile. -/
theorem exists_tile_of_placed {s : Text} {i : Nat} {p : Placed} (h : (placed (lex s))[i]? = some p) :
    ∃ before t after last, lex s = tiled (before ++ t :: after) last ∧
      Tiling (before ++ t :: after) last ∧ before.length = i ∧
      p = ⟨t.function, (before.flatMap Tile.lexemes ++ t.gap).length,
        (before.flatMap Tile.lexemes ++ t.lexemes).length⟩ := by
  obtain ⟨ts, last, hlex, hts, -⟩ := exists_tiling_parse s
  rw [hlex, placed, placedFrom_tiled hts] at h
  obtain ⟨before, t, after, rfl, hlength, rfl⟩ := exists_tile_of_getElem? h
  exact ⟨before, t, after, last, hlex, hts, hlength, by simp⟩

/-- Every function that is read off a source is whole. -/
theorem whole_of_mem_functions {s : Text} {f : Function} (h : f ∈ (File.parse s).functions) :
    Whole f := by
  obtain ⟨ts, last, hlex, hts, hfunctions⟩ := exists_tiling_parse s
  rw [hfunctions] at h
  obtain ⟨t, ht, rfl⟩ := List.mem_map.1 h
  have hreads : Reads (lex s) [] := reads_lex s
  rw [hlex] at hreads
  exact whole_of_tiling hts hreads t ht

/-- A function that is read off a source is that of a tile, whose declaration stands in the source. -/
theorem exists_tile_of_mem_functions {s : Text} {f : Function}
    (h : f ∈ (File.parse s).functions) : ∃ (t : Tile) (front behind : List Lexeme),
      lex s = front ++ (t.declaration.lexemes ++ behind) ∧ t.function = f := by
  obtain ⟨ts, last, hlex, -, hfunctions⟩ := exists_tiling_parse s
  rw [hfunctions] at h
  obtain ⟨t, ht, rfl⟩ := List.mem_map.1 h
  obtain ⟨before, after, rfl⟩ := List.append_of_mem ht
  refine ⟨t, before.flatMap Tile.lexemes ++ (t.gap ++ t.lead), tiled after last, ?_, rfl⟩
  rw [hlex, tiled_append_cons, Tile.lexemes]
  simp

/-- The text of every function that is read off a source stands in it. -/
theorem text_infix_of_mem_functions {s : Text} {f : Function} (h : f ∈ (File.parse s).functions) :
    f.text <:+: s := by
  obtain ⟨t, front, behind, hlex, rfl⟩ := exists_tile_of_mem_functions h
  refine ⟨textOf front, textOf behind, ?_⟩
  rw [Tile.function, ← t.declaration.textOf_lexemes, ← textOf_append, ← textOf_append, ← textOf_lex s,
    hlex, List.append_assoc]

end Scaffold.Go
