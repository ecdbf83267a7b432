import Scaffold.Proofs.Go.Whole

/-!
# Comments outside functions

A comment outside the declarations of functions stands free, in which case it is part of the header or of
a declaration (`infix_of_isFree`), or it stands above a function and is attached to it
(`exists_comments_of_isAbove`). All of it stays but white space at its end, which goes where it is the last
thing in front of a function.
-/

namespace Scaffold.Go

open Text

/-- The position `k` is not taken in by a function with the comments above it. -/
def IsFree (ls : List Lexeme) (k : Nat) : Prop :=
  ∀ p ∈ placed ls, ¬(p.start ≤ k ∧ k < p.stop)

instance (ls : List Lexeme) (k : Nat) : Decidable (IsFree ls k) := inferInstanceAs (Decidable (∀ _ ∈ _, _))

/-- The position `k` is among the comments above a function. -/
def Placed.IsAbove (p : Placed) (ls : List Lexeme) (k : Nat) : Prop :=
  p.start ≤ k ∧ ∀ l ∈ slice ls p.start (k + 1), l.isTrivia

instance (p : Placed) (ls : List Lexeme) (k : Nat) : Decidable (p.IsAbove ls k) :=
  inferInstanceAs (Decidable (_ ∧ _))

/-! ## Free comments -/

/-- A lexeme between two numbers is in the slice. -/
theorem mem_slice {ls : List Lexeme} {k start stop : Nat} {l : Lexeme} (hl : ls[k]? = some l)
    (hstart : start ≤ k) (hstop : k < stop) : l ∈ slice ls start stop := by
  refine List.mem_of_getElem? (i := k - start) ?_
  rw [slice, List.getElem?_drop, Nat.add_sub_cancel' hstart, List.getElem?_take_of_lt hstop, hl]

/-- What stands behind the cursor and in no function stands in a gap. -/
theorem exists_gap_of_free {ls : List Lexeme} {k cursor : Nat} {l : Lexeme} (hl : ls[k]? = some l)
    (hcursor : cursor ≤ k) {ps : List Placed} (hfree : ∀ p ∈ ps, ¬(p.start ≤ k ∧ k < p.stop)) :
    ∃ gap, textOf gap ∈ gapTexts ls cursor ps ∧ l ∈ gap := by
  induction ps generalizing cursor with
  | nil =>
    refine ⟨ls.drop cursor, List.mem_singleton_self _, List.mem_of_getElem? (i := k - cursor) ?_⟩
    rw [List.getElem?_drop, Nat.add_sub_cancel' hcursor, hl]
  | cons p ps ih =>
    by_cases hstart : k < p.start
    · exact ⟨_, List.mem_cons_self, mem_slice hl hcursor hstart⟩
    · have hstop : p.stop ≤ k := by
        have hp := hfree p List.mem_cons_self
        omega
      obtain ⟨gap, hgap, hmem⟩ :=
        ih (Nat.max_le.2 ⟨hcursor, hstop⟩) fun q hq => hfree q (List.mem_cons_of_mem p hq)
      exact ⟨gap, List.mem_cons_of_mem _ hgap, hmem⟩

/-- Trimming the text around a comment takes no more from it than white space at its end. -/
theorem infix_trim_of_head {t s : Text} {c : Char} (hhead : t.head? = some c) (hc : isBlank c = false)
    (h : t <:+: s) : trimEnd t <:+: trim s := by
  have hne : trimEnd t ≠ [] := by
    intro hnil
    obtain ⟨rest, rfl⟩ := List.head?_eq_some_iff.1 hhead
    have hblank := trimEnd_eq_nil_iff.1 hnil c List.mem_cons_self
    rw [hc] at hblank
    cases hblank
  have htrim : trim t = trimEnd t := by
    obtain ⟨rest, rfl⟩ := List.head?_eq_some_iff.1 hhead
    rw [trim, trimStart_cons_of_not_blank hc]
  have hlast : isBlank ((trimEnd t).getLast hne) = false := by
    refine getLast_trim t _ ?_
    rw [htrim, List.getLast?_eq_some_getLast hne]
    rfl
  rw [trim, infix_trimEnd_iff (List.getLast?_eq_some_getLast hne) hlast,
    infix_trimStart_iff ((head?_trimEnd hne).trans hhead) hc]
  exact (trimEnd_isPrefix t).isInfix.trans h

/-- A free comment is part of the header or of another declaration. -/
theorem infix_of_isFree {s : Text} {k : Nat} {l : Lexeme} (hl : (lex s)[k]? = some l)
    (hkind : l.kind = .comment) (hfree : IsFree (lex s) k) :
    (∃ header, (File.parse s).header = some header ∧ l.text <:+: header) ∨
      ∃ block ∈ (File.parse s).declarations, trimEnd l.text <:+: block := by
  obtain ⟨s', hends⟩ := (reads_lex s).exists_endsBefore l (List.mem_of_getElem? hl)
  have hhead := hends.comment_head hkind
  have hslash : isBlank '/' = false := by decide
  let cursor := (headerLength? .start 0 0 (lex s)).getD 0
  -- behind the header the comment is in a gap, else it is in the header
  by_cases hcursor : cursor ≤ k
  · obtain ⟨gap, hgap, hmem⟩ := exists_gap_of_free hl hcursor hfree
    have hinfix : trimEnd l.text <:+: trim (textOf gap) :=
      infix_trim_of_head hhead hslash (infix_textOf hmem)
    have hne : trim (textOf gap) ≠ [] := by
      intro hnil
      have hall := trim_eq_nil_iff.1 hnil '/' ((infix_textOf hmem).subset (List.mem_of_head? hhead))
      rw [hslash] at hall
      cases hall
    exact .inr ⟨_, List.mem_filter.2 ⟨List.mem_map_of_mem hgap, by simpa using hne⟩, hinfix⟩
  · left
    cases hlength : headerLength? .start 0 0 (lex s) with
    | none => simp [cursor, hlength] at hcursor
    | some n =>
      have hk : k < n := by simpa [cursor, hlength] using hcursor
      refine ⟨textOf ((lex s).take n), ?_, infix_textOf ?_⟩
      · show Option.map _ _ = _
        rw [hlength]
        rfl
      · exact List.mem_of_getElem? ((List.getElem?_take_of_lt hk).trans hl)

/-! ## Attached comments -/

/-- What stands above a function is in the lead of its tile. -/
theorem Tile.mem_lead {t : Tile} {front rest : List Lexeme} {k : Nat} {l : Lexeme}
    (hl : (front ++ (t.lead ++ (t.declaration.lexemes ++ rest)))[k]? = some l)
    (hk : front.length ≤ k)
    (habove : ∀ m ∈ slice (front ++ (t.lead ++ (t.declaration.lexemes ++ rest))) front.length (k + 1),
      m.isTrivia) : l ∈ t.lead := by
  rw [List.getElem?_append_right hk] at hl
  by_cases hlead : k - front.length < t.lead.length
  · rw [List.getElem?_append_left hlead] at hl
    exact List.mem_of_getElem? hl
  · -- otherwise the keyword stands in front of the position, and it is no comment
    have hword : (front ++ (t.lead ++ (t.declaration.lexemes ++ rest)))[front.length + t.lead.length]? =
        some funcWord := by
      rw [List.getElem?_append_right (Nat.le_add_right _ _), Nat.add_sub_cancel_left,
        List.getElem?_append_right le_rfl, Nat.sub_self]
      rfl
    have hfunc := habove funcWord (mem_slice hword (Nat.le_add_right _ _) (by omega))
    exact absurd hfunc (by decide)

/-- A comment above a function makes a leading comment. -/
theorem exists_commentText?_of_mem {lead : List Lexeme} {l : Lexeme} (hl : l ∈ lead)
    (hkind : l.kind = .comment) : ∃ comment, commentText? lead = some comment := by
  have hne : (if lead.getLast?.any (·.kind = .blank) then lead.dropLast else lead) ≠ [] := by
    split_ifs with hblank
    · obtain rfl | ⟨front, last, rfl⟩ := List.eq_nil_or_concat lead
      · cases hl
      · have hlast : last.kind = .blank := by simpa using hblank
        rcases List.mem_append.1 (List.concat_eq_append ▸ hl) with hl | hl
        · simpa using List.ne_nil_of_mem hl
        · rw [List.mem_singleton.1 hl, hlast] at hkind
          cases hkind
    · exact List.ne_nil_of_mem hl
  exact ⟨_, if_neg hne⟩

/-- A comment above a function is one of those that are attached to it. -/
theorem exists_comments_of_isAbove {s : Text} {p : Placed} (hp : p ∈ placed (lex s)) {k : Nat}
    {l : Lexeme} (hl : (lex s)[k]? = some l) (hkind : l.kind = .comment)
    (habove : p.IsAbove (lex s) k) :
    ∃ ls, p.function.leadingComment = some (textOf ls) ∧ l ∈ ls ∧
      ∀ s' : Text, s'.head? = some '\n' → Reads ls s' := by
  obtain ⟨i, hi⟩ := List.mem_iff_getElem?.1 hp
  -- the function is that of a tile, and the comment is above it in this tile
  obtain ⟨before, t, after, last, hlex, hts, -, rfl⟩ := exists_tile_of_placed hi
  have hcut : lex s = (before.flatMap Tile.lexemes ++ t.gap) ++
      (t.lead ++ (t.declaration.lexemes ++ tiled after last)) := by
    rw [hlex, tiled_append_cons, Tile.lexemes]
    simp only [List.append_assoc]
  have hreads : Reads (lex s) [] := reads_lex s
  obtain ⟨hk, habove⟩ := habove
  rw [hcut] at hl habove hreads
  have hfits : t.Fits (tiled after last) := hts.fits
  have hmem : l ∈ t.lead := Tile.mem_lead hl (by simpa using hk) (by simpa using habove)
  obtain ⟨comment, hcomment⟩ := exists_commentText?_of_mem hmem hkind
  obtain ⟨hreadsLead, -⟩ := reads_append.1 (reads_append.1 hreads).2
  have hne : textOf (t.declaration.lexemes ++ tiled after last) ++ [] ≠ [] := by
    simp [Declaration.lexemes, funcWord]
  obtain ⟨ls, hall, rfl, -, -, hreadsAll⟩ :=
    exists_comments_of_lead hfits.isLead hreadsLead hne hcomment
  exact ⟨ls, hcomment, hall l hmem hkind, hreadsAll⟩

end Scaffold.Go
