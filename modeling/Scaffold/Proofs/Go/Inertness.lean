import Scaffold.Proofs.Go.Masking
import Scaffold.Proofs.Go.Whole

/-!
# Inert texts

What stands in a literal or a comment inside the body of a function may look like code, and yet the reader
of files takes none of it for code. If another closed literal or comment with the same delimiters takes its
place, the reader finds the same file again, but for this piece of this body (`parse_replaced`): the new
lexeme is read where the old one was (`Lexeme.Replaces.endsBefore`), and what is seen of the others stays as
it is, since the readers see no more than the mask of either.
-/

namespace Scaffold.Go

open Text

/-! ## Replacing a lexeme -/

/-- The mark that a literal or a comment opens with. -/
def Lexeme.delimiter (l : Lexeme) : Text := l.text.take (if l.kind = .comment then 2 else 1)

/-- A literal or comment that is closed, and opens with the same mark as another one. -/
structure Lexeme.Replaces (m l : Lexeme) : Prop where
  kind : m.kind = l.kind
  isText : l.kind = .literal ∨ l.kind = .comment
  single : lex m.text = [m]
  closed : m.isClosed
  delimiter : m.delimiter = l.delimiter

/-- A replacement looks the same. -/
theorem Lexeme.Replaces.mask {m l : Lexeme} (h : m.Replaces l) : m.mask = l.mask :=
  Lexeme.mask_eq_of_kind_eq h.kind (h.kind ▸ h.isText)

/-- A replacement starts with the same character. -/
theorem Lexeme.Replaces.head? {m l : Lexeme} (h : m.Replaces l) : m.text.head? = l.text.head? := by
  have hdelimiter (n : Lexeme) : n.delimiter.head? = n.text.head? := by
    unfold Lexeme.delimiter
    split_ifs <;> cases n.text <;> rfl
  rw [← hdelimiter m, ← hdelimiter l, h.delimiter]

/-- In the place of a line comment, a line comment ends with its line as well; all else ends with its own
mark. -/
theorem Lexeme.Replaces.endsBefore {m l : Lexeme} (h : m.Replaces l) {s : Text} (hl : l.EndsBefore s) :
    m.EndsBefore s := by
  have hm : m.EndsBefore [] := by
    have hreads := reads_lex m.text
    rw [h.single] at hreads
    exact hreads.1
  obtain ⟨hkind, htext, -, hclosed, hdelimiter⟩ := h
  obtain ⟨kind, text⟩ := m
  obtain ⟨c, tail, rfl, hshape⟩ := hm
  obtain rfl : kind = l.kind := hkind
  refine ⟨c, tail, rfl, ?_⟩
  generalize hlkind : l.kind = lkind at hshape htext hclosed hdelimiter
  -- by the shape of the new lexeme; being closed, it does not depend on what follows
  cases hshape with
  | blank | word | mark => simp at htext
  | quoted hq htail =>
    have hquote : closesQuote c tail := by
      rcases hq with rfl | rfl <;> simpa [Lexeme.isClosed] using hclosed
    exact .quoted hq (quotedTail_of_closesQuote htail hquote s)
  | raw htail =>
    have hlast : tail.getLast? = some '`' := by simpa [Lexeme.isClosed] using hclosed
    exact .raw (through_of_suffix htail (List.singleton_suffix_iff_getLast?_eq_some.2 hlast) s)
  | line htail hs =>
    obtain ⟨lkind', ltext⟩ := l
    obtain ⟨d, ltail, rfl, hshape'⟩ := hl
    obtain rfl : lkind' = .comment := hlkind
    cases hshape' with
    | line htail' hs' => exact .line htail hs'
    | general => simp [Lexeme.delimiter] at hdelimiter
  | general htail =>
    exact .general (through_of_suffix htail (endsWith_iff.1 (by simpa [Lexeme.isClosed] using hclosed)) s)

/-- A lexeme can be replaced where the others are read. -/
theorem Reads.replace {front rest : List Lexeme} {m l : Lexeme} {s : Text}
    (h : Reads (front ++ l :: rest) s) (hm : m.Replaces l) : Reads (front ++ m :: rest) s := by
  obtain ⟨hfront, hl, hrest⟩ := reads_append.1 h
  refine reads_append.2 ⟨hfront.congr ?_, hm.endsBefore hl, hrest⟩
  obtain ⟨c, tail, htext, -⟩ := id hl
  simp [List.head?_append, hm.head?]

section

variable {ls : List Lexeme} {k : Nat} {l m : Lexeme}

theorem exists_append_of_getElem? (hl : ls[k]? = some l) :
    ∃ front rest, ls = front ++ l :: rest ∧ front.length = k := by
  obtain ⟨hk, rfl⟩ := List.getElem?_eq_some_iff.1 hl
  refine ⟨ls.take k, ls.drop (k + 1), ?_, List.length_take_of_le hk.le⟩
  rw [← List.drop_eq_getElem_cons hk, List.take_append_drop]

/-- Replacing a lexeme by its number. -/
theorem Reads.set {s : Text} (h : Reads ls s) (hl : ls[k]? = some l) (hm : m.Replaces l) :
    Reads (ls.set k m) s := by
  obtain ⟨front, rest, rfl, rfl⟩ := exists_append_of_getElem? hl
  rw [List.set_append_right _ _ le_rfl, Nat.sub_self, List.set_cons_zero]
  exact h.replace hm

/-- The text with a lexeme replaced. -/
theorem textOf_set (hl : ls[k]? = some l) :
    textOf (ls.set k m) = textOf (ls.take k) ++ m.text ++ textOf (ls.drop (k + 1)) := by
  obtain ⟨front, rest, rfl, rfl⟩ := exists_append_of_getElem? hl
  simp

/-- A list of lexemes with one replaced looks the same. -/
theorem map_mask_set (hl : ls[k]? = some l) (hm : m.mask = l.mask) :
    (ls.set k m).map Lexeme.mask = ls.map Lexeme.mask := by
  obtain ⟨front, rest, rfl, rfl⟩ := exists_append_of_getElem? hl
  simp [hm]

end

/-! ## Tiles -/

/-- A tile with another body. -/
def Tile.withBody (t : Tile) (body : List Lexeme) : Tile :=
  { t with declaration := { t.declaration with body } }

/-- What stands in front of the body of a tile that has other tiles in front. -/
def frontOfBody (before : List Tile) (t : Tile) : List Lexeme :=
  before.flatMap Tile.lexemes ++ (t.gap ++ t.lead ++ t.declaration.opening ++ [markOf '{'])

/-- The lexemes of a tiling, cut around the body of a tile. -/
theorem tiled_body (before : List Tile) (t : Tile) (after : List Tile) (last : List Lexeme) :
    tiled (before ++ t :: after) last =
      frontOfBody before t ++ (t.declaration.body ++ markOf '}' :: tiled after last) := by
  rw [tiled_append_cons, Tile.lexemes, Declaration.lexemes_eq]
  simp [frontOfBody]

/-- A tiling with another body in one of its functions. -/
theorem tiled_withBody (before : List Tile) (t : Tile) (after : List Tile) (last body : List Lexeme) :
    tiled (before ++ t.withBody body :: after) last =
      frontOfBody before t ++ (body ++ markOf '}' :: tiled after last) :=
  tiled_body before (t.withBody body) after last

theorem length_lexemes (t : Tile) :
    t.lexemes.length =
      (t.gap ++ t.lead ++ t.declaration.opening ++ [markOf '{']).length +
        (t.declaration.body.length + 1) := by
  rw [Tile.lexemes, Declaration.lexemes_eq]
  simp only [List.length_append, List.length_cons, List.length_nil]
  omega

/-- Where a function ends: behind its body and the brace that closes it. -/
theorem length_append_lexemes (before : List Tile) (t : Tile) :
    (before.flatMap Tile.lexemes ++ t.lexemes).length =
      (frontOfBody before t).length + (t.declaration.body.length + 1) := by
  rw [List.length_append, length_lexemes, frontOfBody]
  simp only [List.length_append]
  omega

theorem length_placedTiles (seen : Nat) (ts : List Tile) : (placedTiles seen ts).length = ts.length := by
  induction ts generalizing seen with
  | nil => rfl
  | cons t ts ih => simp [placedTiles, ih]

/-- Every function of the tiles starts within them. -/
theorem start_le_of_mem_placedTiles {seen : Nat} {ts : List Tile} {p : Placed}
    (h : p ∈ placedTiles seen ts) : p.start ≤ seen + (ts.flatMap Tile.lexemes).length := by
  induction ts generalizing seen with
  | nil => cases h
  | cons t ts ih =>
    rw [List.flatMap_cons, List.length_append]
    rcases List.mem_cons.1 h with rfl | h
    · simp only [Tile.lexemes, List.length_append]
      omega
    · have hle := ih h
      omega

/-- With a body of the same length, only the function of the tile is another one. -/
theorem placedTiles_withBody (before : List Tile) (t : Tile) (after : List Tile) {body : List Lexeme}
    (hlength : body.length = t.declaration.body.length) :
    placedTiles 0 (before ++ t.withBody body :: after) =
      (placedTiles 0 (before ++ t :: after)).set before.length
        ⟨(t.withBody body).function, (before.flatMap Tile.lexemes ++ t.gap).length,
          (before.flatMap Tile.lexemes ++ t.lexemes).length⟩ := by
  have hlexemes : (t.withBody body).lexemes.length = t.lexemes.length := by
    rw [length_lexemes, length_lexemes, ← hlength]
    rfl
  rw [placedTiles_append, placedTiles_append, placedTiles, placedTiles, hlexemes,
    List.set_append_right _ _ (length_placedTiles 0 before).le, length_placedTiles, Nat.sub_self,
    List.set_cons_zero]
  simp [Tile.withBody]

/-- A body that looks the same makes the same tiling. -/
theorem Tiling.withBody {before : List Tile} {t : Tile} {after : List Tile} {last body : List Lexeme}
    (h : Tiling (before ++ t :: after) last)
    (hmask : t.declaration.body.map Lexeme.mask = body.map Lexeme.mask) :
    Tiling (before ++ t.withBody body :: after) last := by
  have hlexemes : t.declaration.lexemes.map Lexeme.mask =
      (t.withBody body).declaration.lexemes.map Lexeme.mask := by
    rw [Declaration.lexemes_eq, Declaration.lexemes_eq]
    simp only [List.map_append, List.map_cons, hmask]
    rfl
  -- The tile is looked for from the left: the tiles in front of it see a rest that looks the same.
  induction before with
  | nil =>
    obtain ⟨⟨⟨hreceiver, hname, hparameters, hbody⟩, hquiet, hdepth, hlead⟩, hafter⟩ := h
    have hbody' : rise '{' '}' 0 body = some 0 := by
      rw [← rise_map_mask, ← hmask, rise_map_mask, hbody]
    refine ⟨⟨⟨hreceiver, hname, hparameters, hbody'⟩, hquiet.of_mask_eq ?_, hdepth, hlead⟩, hafter⟩
    rw [List.map_append, List.map_append, hlexemes]
  | cons u before ih =>
    rw [List.cons_append] at h ⊢
    obtain ⟨⟨hvalid, hquiet, hdepth, hlead⟩, hrest⟩ := h
    refine ⟨⟨hvalid, hquiet.of_mask_eq ?_, hdepth, hlead⟩, ih hrest⟩
    simp only [tiled_append_cons, Tile.lexemes, List.map_append, hlexemes]
    rfl

/-- Another lexeme in a body that looks the same leaves all functions where they stand. -/
theorem placed_set_tiled {before : List Tile} {t : Tile} {after : List Tile} {last x y : List Lexeme}
    {l m : Lexeme} (hts : Tiling (before ++ t :: after) last) (hbody : t.declaration.body = x ++ l :: y)
    (hm : m.mask = l.mask) :
    placed ((tiled (before ++ t :: after) last).set ((frontOfBody before t).length + x.length) m) =
      (placed (tiled (before ++ t :: after) last)).set before.length
        ⟨(t.withBody (x ++ m :: y)).function, (before.flatMap Tile.lexemes ++ t.gap).length,
          (before.flatMap Tile.lexemes ++ t.lexemes).length⟩ := by
  have hset : (tiled (before ++ t :: after) last).set ((frontOfBody before t).length + x.length) m =
      tiled (before ++ t.withBody (x ++ m :: y) :: after) last := by
    rw [tiled_body, hbody, tiled_withBody]
    simp
  have hmask : t.declaration.body.map Lexeme.mask = (x ++ m :: y).map Lexeme.mask := by
    simp only [hbody, List.map_append, List.map_cons, hm]
  have hlength : (x ++ m :: y).length = t.declaration.body.length := by
    rw [hbody]
    simp
  rw [hset, placed, placed, placedFrom_tiled (hts.withBody hmask), placedFrom_tiled hts,
    placedTiles_withBody before t after hlength]

/-! ## Where a lexeme of a body stands -/

/-- The position `k` is that of the lexeme `l` in the body of a function: `a` stands in front of it in the
body, and `b` behind it, up to the closing brace. -/
structure Placed.Holds (p : Placed) (ls : List Lexeme) (k : Nat) (a : Text) (l : Lexeme) (b : Text) :
    Prop where
  lexeme : ls[k]? = some l
  body : p.function.body = a ++ l.text ++ b
  behind : textOf (slice ls (k + 1) p.stop) = b ++ ['}']

/-- The texts around a lexeme of the body tell where it stands among the lexemes. -/
theorem exists_split_body {front body rest : List Lexeme} {k : Nat} {a b : Text} {l : Lexeme}
    (hl : (front ++ (body ++ markOf '}' :: rest))[k]? = some l) (hne : l.text ≠ [])
    (hbody : textOf body = a ++ l.text ++ b)
    (hbehind : textOf (slice (front ++ (body ++ markOf '}' :: rest)) (k + 1)
      (front.length + (body.length + 1))) = b ++ ['}']) :
    ∃ x y, body = x ++ l :: y ∧ k = front.length + x.length ∧ textOf x = a ∧ textOf y = b := by
  have hslice : slice (front ++ (body ++ markOf '}' :: rest)) (k + 1)
      (front.length + (body.length + 1)) = (front ++ (body ++ [markOf '}'])).drop (k + 1) := by
    rw [slice, List.take_length_add_append, List.take_length_add_append]
    rfl
  rw [hslice] at hbehind
  have hlength := congrArg List.length hbody
  simp only [List.length_append] at hlength
  have hpos : 0 < l.text.length := List.length_pos_iff.2 hne
  -- in front of the body stands too much behind the lexeme, and at the brace too little
  have hfront : front.length ≤ k := by
    by_contra hk
    rw [List.drop_append_of_le_length (by omega), textOf_append, textOf_append, ← List.append_assoc]
      at hbehind
    have hb := congrArg List.length (List.append_cancel_right hbehind)
    rw [List.length_append] at hb
    omega
  obtain ⟨j, rfl⟩ := Nat.exists_eq_add_of_le hfront
  rw [Nat.add_assoc, List.drop_length_add_append] at hbehind
  have hj : j < body.length := by
    by_contra hj
    rw [List.drop_of_length_le (by simp; omega)] at hbehind
    simp at hbehind
  rw [List.getElem?_append_right hfront, Nat.add_sub_cancel_left, List.getElem?_append_left hj] at hl
  obtain ⟨x, y, rfl, rfl⟩ := exists_append_of_getElem? hl
  have hb : textOf y = b := by
    rw [← List.append_cancel_right_eq (textOf y) ['}'], ← hbehind]
    simp [markOf]
  refine ⟨x, y, rfl, rfl, ?_, hb⟩
  rw [textOf_append, textOf_cons, hb, ← List.append_assoc] at hbody
  exact List.append_cancel_right (List.append_cancel_right hbody)

/-! ## Gaps -/

section

variable {ls : List Lexeme} {k : Nat} (m : Lexeme)

/-- A slice in front of the replaced lexeme is the same. -/
theorem slice_set_of_le {stop : Nat} (h : stop ≤ k) (start : Nat) :
    slice (ls.set k m) start stop = slice ls start stop := by
  rw [slice, List.take_set_of_le h, slice]

/-- A slice behind it is the same. -/
theorem slice_set_of_lt {start : Nat} (h : k < start) (stop : Nat) :
    slice (ls.set k m) start stop = slice ls start stop := by
  rw [slice, List.take_set, List.drop_set_of_lt h, slice]

/-- The texts behind it are the same. -/
theorem gapTexts_set_of_lt {cursor : Nat} (h : k < cursor) (ps : List Placed) :
    gapTexts (ls.set k m) cursor ps = gapTexts ls cursor ps := by
  induction ps generalizing cursor with
  | nil => rw [gapTexts, List.drop_set_of_lt h, gapTexts]
  | cons p ps ih => rw [gapTexts, slice_set_of_lt m h, ih (Nat.lt_of_lt_of_le h (Nat.le_max_left _ _)),
      gapTexts]

/-- A lexeme inside a function is in no gap. -/
theorem gapTexts_set {ps : List Placed} {i : Nat} {p p' : Placed} (hp : ps[i]? = some p)
    (hbefore : ∀ q ∈ ps.take i, q.start ≤ k) (hk : p.start ≤ k ∧ k < p.stop)
    (hp' : p'.start = p.start ∧ p'.stop = p.stop) (cursor : Nat) :
    gapTexts (ls.set k m) cursor (ps.set i p') = gapTexts ls cursor ps := by
  induction ps generalizing i cursor with
  | nil => cases hp
  | cons q ps ih =>
    cases i with
    | zero =>
      obtain rfl : q = p := Option.some.inj hp
      rw [List.set_cons_zero, gapTexts, gapTexts, hp'.1, hp'.2, slice_set_of_le m hk.1,
        gapTexts_set_of_lt m (Nat.lt_of_lt_of_le hk.2 (Nat.le_max_right _ _))]
    | succ i =>
      rw [List.take_succ_cons, List.forall_mem_cons] at hbefore
      rw [List.set_cons_succ, gapTexts, gapTexts, slice_set_of_le m hbefore.1, ih hp hbefore.2]

end

/-- What a header names the package stays if what is seen stays. -/
theorem getElem?_one_code_of_mask_eq {ls ls' : List Lexeme} {n : Nat}
    (hmask : ls.map Lexeme.mask = ls'.map Lexeme.mask)
    (hlength : headerLength? .start 0 0 ls = some n) : (code ls')[1]? = (code ls)[1]? := by
  obtain ⟨keyword, name, more, hcode, -, hname⟩ := names_of_headerLength? hlength
  have hmasks : (code ls')[1]?.map Lexeme.mask = some name.mask := by
    rw [← List.getElem?_map, ← code_map_mask, ← hmask, code_map_mask, hcode]
    rfl
  obtain ⟨name', hname', heq⟩ := Option.map_eq_some_iff.1 hmasks
  have hword : name'.kind = .word := by rw [← name'.kind_mask, heq, name.kind_mask, hname]
  rw [Lexeme.mask_of_word hname, Lexeme.mask_of_word hword] at heq
  rw [hname', heq, hcode]
  rfl

/-! ## The whole file -/

/-- A file is read as before, but for one function, if a lexeme inside of it is replaced by one that looks
the same, and all functions stand where they did. -/
theorem ofLexemes_set {ls : List Lexeme} {k i : Nat} {m : Lexeme} {p q : Placed}
    (hmask : (ls.set k m).map Lexeme.mask = ls.map Lexeme.mask)
    (hplaced : placed (ls.set k m) = (placed ls).set i q) (hp : (placed ls)[i]? = some p)
    (hq : q.start = p.start ∧ q.stop = p.stop) (hbefore : ∀ r ∈ (placed ls).take i, r.start ≤ k)
    (hk : p.start ≤ k ∧ k < p.stop) (hheader : ∀ n ∈ headerLength? .start 0 0 ls, n ≤ k) :
    File.ofLexemes (ls.set k m) =
      { File.ofLexemes ls with
        functions := (File.ofLexemes ls).functions.set i q.function } := by
  have hlength : headerLength? .start 0 0 (ls.set k m) = headerLength? .start 0 0 ls := by
    rw [← headerLength?_map_mask, hmask, headerLength?_map_mask]
  have hfunctions : ((placed ls).set i q).map Placed.function =
      ((placed ls).map Placed.function).set i q.function := List.map_set
  simp only [File.ofLexemes, hlength, hplaced, hfunctions, declarationTexts,
    gapTexts_set m hp hbefore hk hq]
  -- the header ends in front of the replaced lexeme, so the package has the same name
  cases hn : headerLength? .start 0 0 ls with
  | none => rfl
  | some n =>
    have hnames : ((code (ls.set k m)).map Lexeme.text)[1]? = ((code ls).map Lexeme.text)[1]? := by
      rw [List.getElem?_map, List.getElem?_map, getElem?_one_code_of_mask_eq hmask.symm hn]
    have htake : (ls.set k m).take n = ls.take n := List.take_set_of_le (hheader n hn)
    rw [Option.map_some, Option.map_some, htake]
    simp only [Option.isSome_some, if_true]
    exact congrArg (fun package => File.mk _ package _ _) hnames

/-- Where a tile has its function, this holds the lexemes of its body, and no others. -/
theorem holds_tile_iff {before after : List Tile} {t : Tile} {last : List Lexeme} {start k : Nat}
    {a b : Text} {l : Lexeme} (hne : l.text ≠ []) :
    Placed.Holds ⟨t.function, start, (before.flatMap Tile.lexemes ++ t.lexemes).length⟩
        (tiled (before ++ t :: after) last) k a l b ↔
      ∃ x y, t.declaration.body = x ++ l :: y ∧ k = (frontOfBody before t).length + x.length ∧
        textOf x = a ∧ textOf y = b := by
  rw [tiled_body, length_append_lexemes]
  refine ⟨fun h => exists_split_body h.lexeme hne h.body h.behind, ?_⟩
  rintro ⟨x, y, hbody, rfl, rfl, rfl⟩
  have hfunction : t.function.body = textOf t.declaration.body := rfl
  refine ⟨?_, by rw [hfunction, hbody]; simp, ?_⟩
  · rw [hbody]
    simp
  · have hstop : (frontOfBody before t).length + (t.declaration.body.length + 1) =
        (frontOfBody before t ++ x ++ [l]).length + (y ++ [markOf '}']).length := by
      rw [hbody]
      simp
      omega
    have hls : frontOfBody before t ++ (t.declaration.body ++ markOf '}' :: tiled after last) =
        (frontOfBody before t ++ x ++ [l]) ++ ((y ++ [markOf '}']) ++ tiled after last) := by
      rw [hbody]
      simp
    rw [hstop, hls, slice, List.take_length_add_append, List.take_left]
    have hk : (frontOfBody before t).length + x.length + 1 = (frontOfBody before t ++ x ++ [l]).length := by
      simp [Nat.add_assoc]
    rw [hk, List.drop_left, textOf_append]
    rfl

/-- A lexeme that a function holds is one of the body of its tile. -/
theorem Placed.Holds.exists_tile {s a b : Text} {i k : Nat} {p : Placed} {l : Lexeme}
    (h : p.Holds (lex s) k a l b) (hp : (placed (lex s))[i]? = some p) :
    ∃ before t after last x y, lex s = tiled (before ++ t :: after) last ∧
      Tiling (before ++ t :: after) last ∧ before.length = i ∧
      p = ⟨t.function, (before.flatMap Tile.lexemes ++ t.gap).length,
        (before.flatMap Tile.lexemes ++ t.lexemes).length⟩ ∧
      t.declaration.body = x ++ l :: y ∧ k = (frontOfBody before t).length + x.length ∧
      textOf x = a ∧ textOf y = b := by
  obtain ⟨before, t, after, last, hlex, hts, hi, rfl⟩ := exists_tile_of_placed hp
  obtain ⟨s', hends⟩ := (reads_lex s).exists_endsBefore l (List.mem_of_getElem? h.lexeme)
  rw [hlex] at h
  obtain ⟨x, y, hbody, hk, ha, hb⟩ := (holds_tile_iff hends.text_ne_nil).1 h
  exact ⟨before, t, after, last, x, y, hlex, hts, hi, rfl, hbody, hk, ha, hb⟩

/-- If in the body of a function behind the header a literal or a comment is replaced by a closed one with
the same delimiters, the file is read as before, but for this piece of this body. -/
theorem parse_replaced {s a b : Text} {i k : Nat} {p : Placed} {l m : Lexeme}
    (hp : (placed (lex s))[i]? = some p)
    (hheader : ∀ n ∈ headerLength? .start 0 0 (lex s), n ≤ p.start)
    (hl : p.Holds (lex s) k a l b) (hm : m.Replaces l) :
    File.parse (textOf ((lex s).take k) ++ m.text ++ textOf ((lex s).drop (k + 1))) =
      { File.parse s with
        functions := (File.parse s).functions.set i { p.function with body := a ++ m.text ++ b } } := by
  obtain ⟨before, t, after, last, x, y, hlex, hts, rfl, rfl, hbody, hk, rfl, rfl⟩ := hl.exists_tile hp
  have hreads : Reads ((lex s).set k m) [] := (reads_lex s).set hl.lexeme hm
  have hplaced := placed_set_tiled hts hbody hm.mask
  rw [← hlex, ← hk] at hplaced
  have hgap : (before.flatMap Tile.lexemes ++ t.gap).length ≤ k := by
    rw [hk, frontOfBody]
    simp only [List.length_append]
    omega
  have hstop : k < (before.flatMap Tile.lexemes ++ t.lexemes).length := by
    rw [length_append_lexemes, hbody, hk, List.length_append, List.length_cons]
    omega
  have hbefore : ∀ r ∈ (placed (lex s)).take before.length, r.start ≤ k := by
    intro r hr
    rw [placed, hlex, placedFrom_tiled hts, placedTiles_append, ← length_placedTiles 0 before,
      List.take_left] at hr
    have hle := start_le_of_mem_placedTiles hr
    rw [List.length_append] at hgap
    omega
  have hfunction : (t.withBody (x ++ m :: y)).function =
      { t.function with body := textOf x ++ m.text ++ textOf y } := by
    have hbody' : textOf (x ++ m :: y) = textOf x ++ m.text ++ textOf y := by simp
    rw [← hbody']
    rfl
  rw [hfunction] at hplaced
  rw [File.parse, ← textOf_set hl.lexeme, lex_textOf hreads,
    ofLexemes_set (map_mask_set hl.lexeme hm.mask) hplaced hp ⟨rfl, rfl⟩ hbefore ⟨hgap, hstop⟩
      fun n hn => (hheader n hn).trans hgap]
  rfl

/-- A file with a string in one of its functions. -/
private def greetingFile (quoted : Text) : Text :=
  "package user\n\n// Greet greets.\nfunc Greet() \x7b\n\tlog(".toList ++ quoted ++
    ")\n\x7d\n\nfunc Leave() \x7b\x7d\n".toList

/-- The first function of the file. -/
private def greet (quoted : Text) : Function where
  leadingComment := some "// Greet greets.".toList
  opening := "func ".toList
  name := "Greet".toList
  parameters := "() \x7b".toList
  body := "\n\tlog(".toList ++ quoted ++ ")\n".toList

private def leave : Function where
  leadingComment := none
  opening := "func ".toList
  name := "Leave".toList
  parameters := "() \x7b".toList
  body := []

private def plainString : Text := "\"hello\"".toList

/-- A string that looks like code. -/
private def trickyString : Text := "\"\x7d func Greet() \x7b // \\\" /*\"".toList

/-- A string that holds a brace and a comment mark instead of a plain one. -/
theorem parse_replaced_greeting :
    File.parse (greetingFile trickyString) =
      { File.parse (greetingFile plainString) with functions := [greet trickyString, leave] } := by
  -- the kernel is slow to decode strings, so lists of characters take the place of the texts
  have hplaced : placed (lex (greetingFile plainString)) = [⟨greet plainString, 4, 20⟩, ⟨leave, 21, 29⟩] ∧
      headerLength? .start 0 0 (lex (greetingFile plainString)) = some 3 := by
    unfold greetingFile greet leave plainString
    repeat rw [String.toList_ofList]
    decide +kernel
  have hpiece : (lex (greetingFile plainString))[16]? = some ⟨.literal, plainString⟩ ∧
      textOf (slice (lex (greetingFile plainString)) 17 20) = ")\n".toList ++ ['}'] ∧
      textOf ((lex (greetingFile plainString)).take 16) ++ trickyString ++
        textOf ((lex (greetingFile plainString)).drop 17) = greetingFile trickyString := by
    unfold greetingFile plainString trickyString
    repeat rw [String.toList_ofList]
    decide +kernel
  have htricky : Lexeme.Replaces ⟨.literal, trickyString⟩ ⟨.literal, plainString⟩ := by
    refine ⟨rfl, .inl rfl, ?_, ?_, ?_⟩
    all_goals
      unfold trickyString
      try unfold plainString
      repeat rw [String.toList_ofList]
      decide +kernel
  obtain ⟨hplaced, hheader⟩ := hplaced
  obtain ⟨hlexeme, hbehind, hnew⟩ := hpiece
  have hparse := parse_replaced (i := 0) (k := 16) (p := ⟨greet plainString, 4, 20⟩)
    (by rw [hplaced]; rfl) (by simp [hheader]) ⟨hlexeme, rfl, hbehind⟩ htricky
  rw [hnew] at hparse
  have hfunctions : (File.parse (greetingFile plainString)).functions = [greet plainString, leave] := by
    rw [File.parse, File.ofLexemes, hplaced]
    rfl
  rwa [hfunctions] at hparse

end Scaffold.Go
