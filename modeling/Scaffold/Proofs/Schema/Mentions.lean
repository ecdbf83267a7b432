import Scaffold.Proofs.Schema.Actions
import Scaffold.Proofs.Schema.Annotation
import Scaffold.Proofs.Schema.ArgumentOrder
import Scaffold.Proofs.Schema.Patterns

/-!
# What flat text mentions

Flattening parts no word and puts no two words together, so a word occurs in flat text exactly if it occurs in
the text without documentation and commas (`word_infix_flatten_iff`). The annotation of each argument that is
extracted stands in the flat text as it is read (`exists_annotation`): what directives leave behind lies
outside of it.
-/

namespace Scaffold.Schema

open Text

/-! ## Words -/

section

variable {w s : Text} {c : Char}

/-- What stands for a gap behind a word does not continue the word. -/
theorem endsWord_tighten_gap (hc : isWord c) (s : Text) : EndsWord (tighten (some c) true s) := by
  induction s with
  | nil =>
    rintro d hd
    unfold tighten at hd
    split at hd
    · obtain rfl := Option.some.inj hd
      decide
    · cases hd
  | cons d s ih =>
    by_cases hblank : isBlank d
    · rwa [tighten, if_pos hblank]
    · intro e he
      rw [tighten, if_neg hblank, isSnug_of_isWord hc] at he
      -- without a separator in front of it, a mark comes next
      cases hmark : isMark d || d = '!' || d = ']' with
      | false =>
        obtain rfl : separator = e := by simpa [hmark] using he
        decide
      | true =>
        obtain rfl : d = e := by simpa [hmark] using he
        simp only [isMark, Bool.or_eq_true, decide_eq_true_eq] at hmark
        rcases hmark with (((rfl | rfl) | rfl) | rfl) | rfl <;> decide

/-- Behind a word, flat text goes on as the text does. -/
theorem word_prefix_tighten_iff (hw : ∀ d ∈ w, isWord d) (hc : isWord c) :
    w <+: tighten (some c) false s ↔ w <+: s := by
  induction w generalizing c s with
  | nil => simp
  | cons d w ih =>
    have hd : isWord d := hw d List.mem_cons_self
    cases s with
    | nil => simp [tighten]
    | cons e s =>
      by_cases hblank : isBlank e
      · rw [tighten, if_pos hblank]
        refine iff_of_false (fun h => ?_) fun h => ?_
        · obtain ⟨rest, hrest⟩ := h
          have hends := endsWord_tighten_gap hc s d (by rw [← hrest]; rfl)
          exact Bool.noConfusion (hd.symm.trans hends)
        · obtain rfl := (List.cons_prefix_cons.1 h).1
          exact Bool.noConfusion (hblank.symm.trans (not_isBlank_of_isWord hd))
      · rw [tighten, if_neg hblank, Bool.false_and, if_neg Bool.false_ne_true, List.nil_append,
          List.cons_prefix_cons, List.cons_prefix_cons]
        refine and_congr_right ?_
        rintro rfl
        exact ih (fun x hx => hw x (List.mem_cons_of_mem d hx)) hd

/-- Flat text has the words of the text, and no other ones. -/
theorem word_infix_tighten_iff (hw : ∀ d ∈ w, isWord d) (hne : w ≠ []) (before : Option Char)
    (gap : Bool) : w <:+: tighten before gap s ↔ w <:+: s := by
  obtain ⟨d, w, rfl⟩ := List.exists_cons_of_ne_nil hne
  have hd : isWord d := hw d List.mem_cons_self
  -- a word does not begin with what stands for a gap, nor with white space
  have hgap {e : Char} (he : isWord e = false) (t : Text) : d :: w <:+: e :: t ↔ d :: w <:+: t := by
    rw [List.infix_cons_iff, or_iff_right]
    intro h
    obtain rfl := (List.cons_prefix_cons.1 h).1
    exact Bool.noConfusion (hd.symm.trans he)
  induction s generalizing before gap with
  | nil =>
    rw [tighten]
    split
    · exact hgap (by decide) []
    · rfl
  | cons e s ih =>
    rw [tighten]
    by_cases hblank : isBlank e
    · rw [if_pos hblank]
      exact (ih before true).trans (hgap (isWord_of_isBlank hblank) s).symm
    · have hkept : d :: w <:+: e :: tighten (some e) false s ↔ d :: w <:+: e :: s := by
        rw [List.infix_cons_iff, List.infix_cons_iff, List.cons_prefix_cons, List.cons_prefix_cons]
        refine or_congr (and_congr_right ?_) (ih (some e) false)
        rintro rfl
        exact word_prefix_tighten_iff (fun x hx => hw x (List.mem_cons_of_mem d hx)) hd
      rw [if_neg hblank]
      split
      · exact (hgap (by decide) _).trans hkept
      · exact hkept

/-- The text of a block that names are looked for in: the interior without documentation and commas. -/
def bareText (interior : Text) : Text := (stripDocs interior).filter (· ≠ ',')

/-- Flattening keeps the words of a text, and brings in none. -/
theorem word_infix_flatten_iff (hw : ∀ d ∈ w, isWord d) (hne : w ≠ []) {interior : Text} :
    w <:+: flatten interior ↔ w <:+: bareText interior := by
  rw [flatten_eq_tighten]
  exact word_infix_tighten_iff hw hne none false

end

/-! ## Annotations -/

section

variable {flat raw : Text}

/-- What begins with a character is not found where the character is not. -/
theorem infix_append_iff_of_notMem {c : Char} {u x : Text} (hc : c ∉ x) (y : Text) :
    c :: u <:+: x ++ y ↔ c :: u <:+: y := by
  induction x with
  | nil => rfl
  | cons d x ih =>
    obtain ⟨hd, hx⟩ := not_or.1 (List.mem_cons.not.1 hc)
    rw [List.cons_append, List.infix_cons_iff, ih hx, or_iff_right]
    exact fun h => hd (List.cons_prefix_cons.1 h).1

/-- What directives leave behind begins with their sign. -/
theorem prefix_of_prefix_replaced {ps : List (Piece Text)} (hraw : '@' ∉ raw)
    (h : raw <+: ps.flatMap (Piece.replaced fun name => '@' :: name ++ [separator])) :
    raw <+: ps.flatMap Piece.text := by
  induction ps generalizing raw with
  | nil => exact h
  | cons piece ps ih =>
    cases raw with
    | nil => exact List.nil_prefix
    | cons c raw =>
      obtain ⟨hc, hraw⟩ := not_or.1 (List.mem_cons.not.1 hraw)
      rw [List.flatMap_cons] at h ⊢
      cases piece with
      | loose d =>
        obtain ⟨rfl, hrest⟩ := List.cons_prefix_cons.1 h
        exact List.cons_prefix_cons.2 ⟨rfl, ih hraw hrest⟩
      | found name taken => exact absurd (List.cons_prefix_cons.1 h).1.symm hc

/-- The name of a directive is a word. -/
theorem isWord_of_found_directive {name taken : Text}
    (h : Piece.found name taken ∈ pieces directive flat) : ∀ c ∈ name, isWord c := by
  obtain ⟨_, back, rest, -, hdirective⟩ := exists_of_mem_piecesFrom h
  obtain ⟨behind, -, hdirective⟩ := Option.bind_eq_some_iff.1 hdirective
  obtain ⟨⟨word, more⟩, hword, hdirective⟩ := Option.bind_eq_some_iff.1 hdirective
  obtain ⟨_, -, hname⟩ := Option.bind_eq_some_iff.1 hdirective
  obtain ⟨rfl, -⟩ := Prod.mk.inj (Option.some.inj hname)
  exact (word?_eq_some hword).2

/-- What stands behind a colon when directives have lost their arguments stood there before. -/
theorem infix_of_infix_shorten (hraw : '@' ∉ raw) (h : ':' :: raw <:+: shorten flat) :
    ':' :: raw <:+: flat := by
  have hnames : ∀ name taken, Piece.found name taken ∈ pieces directive flat → ':' ∉ name :=
    fun name taken hfound hcolon => absurd (isWord_of_found_directive hfound ':' hcolon) (by decide)
  rw [shorten, replaceAll_eq] at h
  rw [← flatMap_text_pieces directive flat]
  generalize pieces directive flat = ps at h hnames
  -- what stands for a directive has no colon, so nothing behind a colon begins in it
  induction ps with
  | nil => exact h
  | cons piece ps ih =>
    have hrest := fun h => ih h fun name taken hmem => hnames name taken (List.mem_cons_of_mem piece hmem)
    rw [List.flatMap_cons] at h ⊢
    cases piece with
    | loose d =>
      rcases List.infix_cons_iff.1 h with hstarts | hstands
      · obtain ⟨rfl, hbehind⟩ := List.cons_prefix_cons.1 hstarts
        have htext : raw <+: ps.flatMap Piece.text := prefix_of_prefix_replaced hraw hbehind
        exact (List.cons_prefix_cons.2 ⟨rfl, htext⟩).isInfix
      · exact List.infix_cons (hrest hstands)
    | found name taken =>
      have hname : ':' ∉ '@' :: name ++ [separator] := by
        simpa [separator] using hnames name taken List.mem_cons_self
      exact (hrest ((infix_append_iff_of_notMem hname _).1 h)).trans (List.suffix_append _ _).isInfix

/-- The arguments of a field stand in the text that fields are looked for in. -/
theorem infix_of_mem_fields {field : RawField} (h : field ∈ fields flat) :
    field.arguments <:+: shorten flat := by
  rcases List.mem_append.1 h with h | h
  · obtain ⟨_, back, rest, hback, hfield⟩ := exists_of_mem_findAll h
    obtain ⟨⟨name, behind⟩, hname, hfield⟩ := Option.bind_eq_some_iff.1 hfield
    obtain ⟨⟨inside, more⟩, hgroup, hfield⟩ := Option.bind_eq_some_iff.1 hfield
    obtain ⟨_, -, hfield⟩ := Option.bind_eq_some_iff.1 hfield
    obtain ⟨_, -, hfield⟩ := Option.bind_eq_some_iff.1 hfield
    obtain ⟨rfl, -⟩ := Prod.mk.inj (Option.some.inj hfield)
    have hinside : inside <:+: behind := by
      rw [eq_of_group? hgroup]
      exact ⟨['('], ')' :: more, by simp⟩
    have hbehind : behind <:+ back := ⟨name, (word?_eq_some hname).1.symm⟩
    exact hinside.trans (hbehind.trans hback).isInfix
  · obtain ⟨_, back, rest, -, hfield⟩ := exists_of_mem_findAll h
    obtain ⟨_, -, hfield⟩ := Option.bind_eq_some_iff.1 hfield
    obtain ⟨_, -, hfield⟩ := Option.bind_eq_some_iff.1 hfield
    obtain ⟨_, -, hfield⟩ := Option.bind_eq_some_iff.1 hfield
    obtain ⟨rfl, -⟩ := Prod.mk.inj (Option.some.inj hfield)
    exact List.nil_infix

/-- An argument is read from an annotation. If its type has no sign of a directive in its name, the annotation
stands in the text that was read. -/
theorem exists_annotation {origin : Origin} {as : List Action} (h : actions origin flat = .ok as)
    {a : Action} (ha : a ∈ as) {arg : Argument} (harg : arg ∈ a.args) :
    ∃ raw, arg.toTypeRef = readType raw ∧ ('@' ∉ arg.typeName → raw <:+: flat) := by
  obtain ⟨field, hfield, haction⟩ := exists_of_mem_mapM h ha
  obtain ⟨args, response, hargs, -, rfl⟩ := toAction_eq_ok_iff.1 haction
  obtain ⟨arg', harg', hcheck⟩ := exists_of_mem_mapM hargs harg
  obtain rfl := eq_of_checkArgument hcheck
  obtain ⟨item, hitem, hread⟩ := List.mem_filterMap.1 harg'
  obtain ⟨⟨name, raw⟩, hcut, rfl⟩ := Option.map_eq_some_iff.1 hread
  refine ⟨raw, rfl, fun hname => ?_⟩
  have hraw : '@' ∉ raw := fun hmem => hname (mem_typeName_readType hmem (by decide) (by decide))
  have hstands : ':' :: raw <:+: item := by
    rw [cutAt?_eq_some hcut, List.append_assoc]
    exact (List.suffix_append name _).isInfix
  have hitem' : item <:+: field.arguments := infix_of_mem_parts (mem_items.1 hitem)
  have hshort := (hstands.trans hitem').trans (infix_of_mem_fields hfield)
  exact (List.suffix_cons ':' raw).isInfix.trans (infix_of_infix_shorten hraw hshort)

end

end Scaffold.Schema
