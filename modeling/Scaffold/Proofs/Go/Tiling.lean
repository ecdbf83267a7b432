import Mathlib.Data.Option.Basic
import Scaffold.Proofs.Go.Declaration

/-!
# Files as tiles

The reader of functions goes through a list of lexemes once, with a count of open brackets and the
comments right above the cursor. Here its run is taken apart: every list of lexemes is a list of *tiles*,
each a gap, the comments above a declaration and the declaration, and a last gap (`exists_tiles`), and
the functions found are those of the tiles (`placedFrom_tiled`).
-/

namespace Scaffold.Go

open Text

/-! ## Passing over a gap -/

/-- The number of open brackets behind a list of lexemes, as the reader counts them. -/
def depthFrom (depth : Nat) (ls : List Lexeme) : Nat := ls.foldl deeper depth

/-- The comments right above the cursor, with the white space between, once a lexeme is passed. -/
def carry (depth : Nat) (lead : List Lexeme) (l : Lexeme) : List Lexeme :=
  match l.kind with
  | .blank => if lead = [] || !isTight l then [] else lead ++ [l]
  | .comment => if depth = 0 then lead ++ [l] else []
  | _ => []

/-- Code is no comment above a function. -/
theorem carry_of_code {l : Lexeme} (h : l.isTrivia = false) (depth : Nat) (lead : List Lexeme) :
    carry depth lead l = [] := by
  obtain ⟨kind, text⟩ := l
  cases kind <;> simp_all [Lexeme.isTrivia, carry]

/-- The comments right above the cursor behind a list of lexemes. -/
def leadFrom : (depth : Nat) → (lead : List Lexeme) → List Lexeme → List Lexeme
  | _, lead, [] => lead
  | depth, lead, l :: ls => leadFrom (deeper depth l) (carry depth lead l) ls

/-- No function is read in `ls`, where `depth` brackets are open in front and `rest` follows. -/
def Quiet : (depth : Nat) → (ls rest : List Lexeme) → Prop
  | _, [], _ => True
  | depth, l :: ls, rest =>
    (depth = 0 → l = funcWord → function? [] funcWord (ls ++ rest) = none) ∧
      Quiet (deeper depth l) ls rest

/-- The comments above a function have no part in where it ends. -/
theorem function?_lead (lead lead' : List Lexeme) (func : Lexeme) (ls : List Lexeme) :
    function? lead func ls = (function? lead' func ls).map fun (f, rest) =>
      ({ f with leadingComment := commentText? lead }, rest) := by
  simp only [function?, Option.bind_eq_bind, Option.map_bind, Function.comp_def]
  rfl

/-- Whether a function is read does not depend on the comment above it. -/
theorem function?_eq_none_congr {lead : List Lexeme} {func : Lexeme} {ls : List Lexeme}
    (h : function? lead func ls = none) (lead' : List Lexeme) : function? lead' func ls = none := by
  rw [function?_lead lead' lead, h]
  rfl

/-- The marks that open a group. -/
theorem isSome_closing?_mark (c : Char) :
    (closing? (.mark c)).isSome = (c = '{' || c = '(' || c = '[') := by
  unfold closing?
  split <;> simp_all

theorem isClosing_mark (c : Char) : isClosing (.mark c) = (c = '}' || c = ')' || c = ']') := by
  unfold isClosing
  split <;> simp_all

/-- One step of the reader that finds no function. -/
theorem placedFrom_cons {depth : Nat} {l : Lexeme} {ls : List Lexeme}
    (h : depth = 0 → l = funcWord → function? [] funcWord ls = none) (lead : List Lexeme)
    (seen : Nat) :
    placedFrom 0 depth lead seen (l :: ls) =
      placedFrom 0 (deeper depth l) (carry depth lead l) (seen + 1) ls := by
  obtain ⟨kind, text⟩ := l
  -- only at `func` is a function looked for
  cases kind with
  | blank => simp [placedFrom, deeper, carry, closing?, isClosing]
  | comment => simp [placedFrom, deeper, carry, closing?, isClosing]
  | literal => simp [placedFrom, deeper, carry, closing?, isClosing]
  | mark c =>
    simp only [placedFrom, deeper, carry, isSome_closing?_mark, isClosing_mark]
    split_ifs <;> rfl
  | word =>
    have hnone : (if depth = 0 && text = "func".toList then function? lead ⟨.word, text⟩ ls
        else none) = none := by
      split_ifs with hfunc
      · obtain ⟨hdepth, rfl⟩ : depth = 0 ∧ text = "func".toList := by simpa using hfunc
        exact function?_eq_none_congr (h hdepth rfl) lead
      · rfl
    simp only [placedFrom, hnone, deeper, carry, closing?, isClosing]
    rfl

theorem depthFrom_append (depth : Nat) (ls ms : List Lexeme) :
    depthFrom depth (ls ++ ms) = depthFrom (depthFrom depth ls) ms := List.foldl_append

/-- What is held above the cursor, over two lists. -/
theorem leadFrom_append (depth : Nat) (lead ls ms : List Lexeme) :
    leadFrom depth lead (ls ++ ms) = leadFrom (depthFrom depth ls) (leadFrom depth lead ls) ms := by
  induction ls generalizing depth lead with
  | nil => rfl
  | cons l ls ih => exact ih _ _

/-- Two lists are quiet one after the other. -/
theorem quiet_append {depth : Nat} {ls ms rest : List Lexeme} :
    Quiet depth (ls ++ ms) rest ↔
      Quiet depth ls (ms ++ rest) ∧ Quiet (depthFrom depth ls) ms rest := by
  induction ls generalizing depth with
  | nil => simp [Quiet, depthFrom]
  | cons l ls ih => simp [Quiet, ih, depthFrom, and_assoc]

/-- The reader passes over a gap. -/
theorem placedFrom_append {depth : Nat} {ls rest : List Lexeme} (h : Quiet depth ls rest)
    (lead : List Lexeme) (seen : Nat) :
    placedFrom 0 depth lead seen (ls ++ rest) =
      placedFrom 0 (depthFrom depth ls) (leadFrom depth lead ls) (seen + ls.length) rest := by
  induction ls generalizing depth lead seen with
  | nil => rfl
  | cons l ls ih =>
    rw [List.cons_append, placedFrom_cons h.1, ih h.2, List.length_cons, Nat.add_assoc,
      Nat.add_comm 1]
    rfl

/-- Lexemes that belong to an earlier function are passed over. -/
theorem placedFrom_skip (depth seen : Nat) (ls rest : List Lexeme) :
    placedFrom ls.length depth [] seen (ls ++ rest) =
      placedFrom 0 depth [] (seen + ls.length) rest := by
  induction ls generalizing seen with
  | nil => rfl
  | cons l ls ih =>
    rw [List.cons_append, List.length_cons, placedFrom, ih, Nat.add_assoc, Nat.add_comm 1]

/-- A valid declaration outside brackets is read as its function. -/
theorem placedFrom_declaration {d : Declaration} (h : d.Valid) (lead : List Lexeme) (seen : Nat)
    (rest : List Lexeme) :
    placedFrom 0 0 lead seen (d.lexemes ++ rest) =
      ⟨d.function (commentText? lead), seen - lead.length, seen + d.lexemes.length⟩ ::
        placedFrom 0 0 [] (seen + d.lexemes.length) rest := by
  have hlen : (d.tail ++ rest).length - rest.length = d.tail.length := by simp
  have hstep : placedFrom 0 0 lead seen (funcWord :: (d.tail ++ rest)) =
      ⟨d.function (commentText? lead), seen - lead.length,
        seen + 1 + ((d.tail ++ rest).length - rest.length)⟩ ::
        placedFrom ((d.tail ++ rest).length - rest.length) 0 [] (seen + 1) (d.tail ++ rest) := by
    rw [placedFrom]
    simp only [show funcWord.kind = .word from rfl, show funcWord.text = "func".toList from rfl,
      decide_true, Bool.and_self, if_true, function?_append h]
  rw [Declaration.lexemes, List.cons_append, hstep, hlen, placedFrom_skip]
  simp [Nat.add_assoc, Nat.add_comm 1]

/-! ## Tiles -/

/-- A declaration with the comments above it and the gap before them. -/
structure Tile where
  gap : List Lexeme
  /-- The comments right above the declaration, with the white space between. -/
  lead : List Lexeme
  declaration : Declaration

namespace Tile

/-- The lexemes of a tile. -/
def lexemes (t : Tile) : List Lexeme := t.gap ++ t.lead ++ t.declaration.lexemes

/-- The function of a tile. -/
def function (t : Tile) : Function := t.declaration.function (commentText? t.lead)

end Tile

/-- The lexemes of tiles, with a last gap behind them. -/
def tiled (ts : List Tile) (last : List Lexeme) : List Lexeme := ts.flatMap Tile.lexemes ++ last

/-- A tiling starts with the gap, the lead and the declaration of its first tile. -/
theorem tiled_cons (t : Tile) (ts : List Tile) (last : List Lexeme) :
    tiled (t :: ts) last = t.gap ++ t.lead ++ (t.declaration.lexemes ++ tiled ts last) := by
  simp [tiled, Tile.lexemes]

theorem append_tiled_cons (front : List Lexeme) (t : Tile) (ts : List Tile) (last : List Lexeme) :
    front ++ tiled (t :: ts) last = (front ++ t.lexemes) ++ tiled ts last := by
  simp [tiled]

theorem tiled_append_cons (before : List Tile) (t : Tile) (after : List Tile) (last : List Lexeme) :
    tiled (before ++ t :: after) last =
      before.flatMap Tile.lexemes ++ (t.lexemes ++ tiled after last) := by
  simp [tiled]

/-- The reader finds a tile as it is, where `rest` follows: its gap holds no function, its declaration
stands outside brackets, and the comments above it are all that are right above it. -/
structure Tile.Fits (t : Tile) (rest : List Lexeme) : Prop where
  valid : t.declaration.Valid
  quiet : Quiet 0 (t.gap ++ t.lead) (t.declaration.lexemes ++ rest)
  depth : depthFrom 0 (t.gap ++ t.lead) = 0
  lead : leadFrom 0 [] (t.gap ++ t.lead) = t.lead

/-- The tiles are those that the reader finds. -/
def Tiling : (ts : List Tile) → (last : List Lexeme) → Prop
  | [], last => Quiet 0 last []
  | t :: ts, last => t.Fits (tiled ts last) ∧ Tiling ts last

/-- Each tile fits in front of the tiles behind it. -/
theorem Tiling.fits {before : List Tile} {t : Tile} {after : List Tile} {last : List Lexeme}
    (h : Tiling (before ++ t :: after) last) : t.Fits (tiled after last) := by
  induction before with
  | nil => exact h.1
  | cons u before ih => exact ih h.2

/-- The declarations of tiles that the reader finds are valid. -/
theorem Tiling.valid {ts : List Tile} {last : List Lexeme} (h : Tiling ts last) :
    ∀ t ∈ ts, t.declaration.Valid := by
  intro t ht
  obtain ⟨before, after, rfl⟩ := List.append_of_mem ht
  exact h.fits.valid

/-- The functions of tiles with their places, where `seen` lexemes stand in front. -/
def placedTiles : (seen : Nat) → List Tile → List Placed
  | _, [] => []
  | seen, t :: ts =>
    ⟨t.function, seen + t.gap.length, seen + t.lexemes.length⟩ ::
      placedTiles (seen + t.lexemes.length) ts

/-- The placed functions are those of the tiles. -/
theorem placedTiles_function (seen : Nat) (ts : List Tile) :
    (placedTiles seen ts).map Placed.function = ts.map Tile.function := by
  induction ts generalizing seen with
  | nil => rfl
  | cons t ts ih => simp [placedTiles, ih]

/-- The functions of two lists of tiles. -/
theorem placedTiles_append (seen : Nat) (ts us : List Tile) :
    placedTiles seen (ts ++ us) =
      placedTiles seen ts ++ placedTiles (seen + (ts.flatMap Tile.lexemes).length) us := by
  induction ts generalizing seen with
  | nil => rfl
  | cons t ts ih => simp [placedTiles, ih, Nat.add_assoc]

/-- A place is that of a tile behind other tiles. -/
theorem exists_tile_of_getElem? {seen i : Nat} {ts : List Tile} {p : Placed}
    (h : (placedTiles seen ts)[i]? = some p) :
    ∃ before t after, ts = before ++ t :: after ∧ before.length = i ∧
      p = ⟨t.function, seen + (before.flatMap Tile.lexemes ++ t.gap).length,
        seen + (before.flatMap Tile.lexemes ++ t.lexemes).length⟩ := by
  induction ts generalizing seen i with
  | nil => cases h
  | cons t ts ih =>
    cases i with
    | zero => exact ⟨[], t, ts, rfl, rfl, (Option.some.inj h).symm⟩
    | succ i =>
      obtain ⟨before, u, after, rfl, rfl, rfl⟩ := ih h
      exact ⟨t :: before, u, after, rfl, rfl, by simp [Nat.add_assoc]⟩

/-- The reader finds the functions of the tiles. -/
theorem placedFrom_tiled {ts : List Tile} {last : List Lexeme} (h : Tiling ts last) (seen : Nat) :
    placedFrom 0 0 [] seen (tiled ts last) = placedTiles seen ts := by
  induction ts generalizing seen with
  | nil =>
    have hpass : placedFrom 0 0 [] seen (last ++ []) = _ := placedFrom_append h [] seen
    rw [List.append_nil] at hpass
    rw [show tiled [] last = last from rfl, hpass]
    cases depthFrom 0 last <;> rfl
  | cons t ts ih =>
    obtain ⟨⟨hvalid, hquiet, hdepth, hlead⟩, hts⟩ := h
    rw [tiled_cons, placedFrom_append hquiet, hdepth, hlead, placedFrom_declaration hvalid, ih hts,
      placedTiles]
    -- the function starts with its lead, which belongs to it
    have hstart : seen + (t.gap ++ t.lead).length - t.lead.length = seen + t.gap.length := by
      rw [List.length_append]; omega
    have hstop : seen + (t.gap ++ t.lead).length + t.declaration.lexemes.length =
        seen + t.lexemes.length := by
      simp only [Tile.lexemes, List.length_append]; omega
    rw [hstart, hstop]
    rfl

/-- The comments above the cursor are the last lexemes that were passed. -/
theorem leadFrom_suffix (depth : Nat) (lead ls : List Lexeme) :
    leadFrom depth lead ls <:+ lead ++ ls := by
  induction ls generalizing depth lead with
  | nil => simp [leadFrom]
  | cons l ls ih =>
    -- a step keeps the lexemes above and adds one, starts anew with it, or drops them all
    have hcarry : carry depth lead l <:+ lead ++ [l] := by
      unfold carry
      split
      · split
        · exact List.nil_suffix
        · exact List.suffix_rfl
      · split
        · exact List.suffix_rfl
        · exact List.nil_suffix
      · exact List.nil_suffix
    obtain ⟨front, hfront⟩ := hcarry
    refine (ih (deeper depth l) (carry depth lead l)).trans ⟨front, ?_⟩
    rw [← List.append_assoc, hfront, List.append_assoc, List.singleton_append]

/-- The first function in a list of lexemes, if there is one. -/
theorem exists_first_declaration (depth : Nat) {ls : List Lexeme} (hls : ∀ l ∈ ls, l.IsShaped) :
    Quiet depth ls [] ∨ ∃ (front : List Lexeme) (d : Declaration) (rest : List Lexeme),
      ls = front ++ (d.lexemes ++ rest) ∧ d.Valid ∧ Quiet depth front (d.lexemes ++ rest) ∧
        depthFrom depth front = 0 := by
  induction ls generalizing depth with
  | nil => exact .inl trivial
  | cons l ls ih =>
    have hls' : ∀ m ∈ ls, m.IsShaped := fun m hm => hls m (by simp [hm])
    by_cases hpass : depth = 0 → l = funcWord → function? [] funcWord ls = none
    · rcases ih (deeper depth l) hls' with hquiet | ⟨front, d, rest, rfl, hd, hquiet, hdepth⟩
      · exact .inl ⟨by simpa using hpass, hquiet⟩
      · exact .inr ⟨l :: front, d, rest, rfl, hd, ⟨hpass, hquiet⟩, hdepth⟩
    · simp only [Classical.not_imp] at hpass
      obtain ⟨rfl, rfl, hsome⟩ := hpass
      obtain ⟨⟨f, rest⟩, hfound⟩ := Option.ne_none_iff_exists'.1 hsome
      obtain ⟨d, hd, rfl, -⟩ := (function?_eq_some_iff hls').1 hfound
      exact .inr ⟨[], d, rest, rfl, hd, trivial, rfl⟩

/-- Every list of lexemes is made of tiles. -/
theorem exists_tiles : (ls : List Lexeme) → (∀ l ∈ ls, l.IsShaped) →
    ∃ ts last, ls = tiled ts last ∧ Tiling ts last
  | ls, hls => by
    rcases exists_first_declaration 0 hls with hquiet | ⟨front, d, rest, hcut, hd, hquiet, hdepth⟩
    · exact ⟨[], ls, rfl, hquiet⟩
    · obtain ⟨ts, last, hrest, hts⟩ := exists_tiles rest fun l hl => hls l (by simp [hcut, hl])
      obtain ⟨gap, hgap⟩ := leadFrom_suffix 0 [] front
      rw [List.nil_append] at hgap
      refine ⟨⟨gap, leadFrom 0 [] front, d⟩ :: ts, last, ?_, ⟨hd, ?_, ?_, ?_⟩, hts⟩
      · rw [tiled_cons, hgap, hcut, hrest]
      · rw [hgap, ← hrest]; exact hquiet
      · rw [hgap]; exact hdepth
      · rw [hgap]
termination_by ls => ls.length
decreasing_by
  simp only [hcut, Declaration.lexemes, List.length_append, List.length_cons]
  omega

end Scaffold.Go
