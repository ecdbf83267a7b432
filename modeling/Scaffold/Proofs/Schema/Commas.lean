import Mathlib.Data.List.Permutation
import Scaffold.Proofs.Schema.Respacing
import Scaffold.Proofs.Schema.Separators

/-!
# Commas

Commas are taken out of an interior before white space becomes a separator, so what a comma alone keeps
apart grows together. Followed by a blank, a comma gives the flat text one separator more at most, and none
where white space stood beside the comma (`flat?_comma_blank`). The actions are the same unless that
separator parts two words or cuts an argument in two (`actions_comma_blank`).
-/

namespace Scaffold.Schema

open Text

/-! ## Texts with a blank more -/

/-- Whether white space stands at a place between two characters. -/
def IsSpaced (before after : Option Char) : Prop := before.any isBlank ∨ after.any isBlank

instance (before after : Option Char) : Decidable (IsSpaced before after) :=
  inferInstanceAs (Decidable (_ ∨ _))

/-- Two texts that are the same, or the same but for a blank more behind one comma; white space stands
beside that comma if it is `spaced`. -/
def Loosened (spaced : Prop) (s s' : Text) : Prop :=
  s' = s ∨ ∃ u v, s = u ++ ',' :: v ∧ s' = u ++ ',' :: ' ' :: v ∧
    (spaced → IsSpaced u.getLast? v.head?)

/-- A blank behind a comma shows up in the interior, or the interior is the same. -/
theorem interior?_loosened (u v : Text) :
    Option.Rel (Loosened (IsSpaced u.getLast? v.head?)) (interior? (u ++ ',' :: v))
      (interior? (u ++ ',' :: ' ' :: v)) := by
  unfold interior?
  refine rel_map (blockFrom?_respaced u v (shift_zero _) (shift_zero _) none) ?_
  rintro inside inside' (rfl | ⟨w, ⟨front, rfl⟩, rfl, rfl⟩)
  · exact .inl rfl
  · rcases closeBlock_respaced w v (shift_zero _) 0 with heq | ⟨v', heq, heq', hhead⟩
    · exact .inl heq
    · refine .inr ⟨w, v', heq, heq', ?_⟩
      rintro (hbefore | hafter)
      · left
        rw [List.getLast?_append, List.getLast?_cons, Option.some_or, Option.any_some] at hbefore
        cases hlast : w.getLast? with
        | none =>
          rw [hlast] at hbefore
          exact absurd hbefore (by decide)
        | some c => simpa [hlast] using hbefore
      · right
        cases v with
        | nil => cases hafter
        | cons c v =>
          rw [hhead c rfl hafter]
          exact hafter

/-! ## Without documentation -/

/-- A pattern of documentation: it begins with a quote or the sign of a comment, a match that ends before a
comma ends with a quote, and a blank behind a comma changes no match. -/
structure IsDocPattern (p : Pattern Unit) : Prop where
  forward : p.IsForward
  advances : p.Advances
  starts : ∀ c s, c ≠ '#' → c ≠ '"' → p none (c :: s) = none
  ends : ∀ s rest, p none s = some ((), ',' :: rest) → ['"', ','] ++ rest <:+ s
  respaced : ∀ v s s', Respaced v s s' →
    Option.Rel (fun found found' => Respaced v found.2 found'.2) (p none s) (p none s')

/-- Block strings end in a quote, and a blank behind a comma keeps them. -/
theorem isDocPattern_blockString : IsDocPattern blockString where
  forward := isForward_blockString
  advances s value rest h := by
    obtain ⟨front, rfl⟩ := blockString_eq_some h
    rw [← List.append_assoc]
    exact ⟨List.suffix_append _ rest, by simp [blockQuotes]; omega⟩
  starts c s _ hquote := blockString_eq_none hquote s
  ends s rest h := by
    obtain ⟨front, rfl⟩ := blockString_eq_some h
    exact ⟨blockQuotes ++ front ++ ['"', '"'], by simp [blockQuotes]⟩
  respaced v s s' h := by
    rw [blockString_eq, blockString_eq]
    refine rel_bind (h.after? (by decide)) fun inside inside' hinside => ?_
    exact rel_map (hinside.cutAt? (by decide) (by decide) (by decide)) fun _ _ hrest => hrest

/-- Descriptions end in a quote, and a blank behind a comma keeps them. -/
theorem isDocPattern_description : IsDocPattern description where
  forward := isForward_description
  advances s value rest h := by
    obtain ⟨front, rfl⟩ := description_eq_some h
    refine ⟨⟨'"' :: (front ++ ['"']), by simp⟩, ?_⟩
    simp only [List.length_cons, List.length_append]
    omega
  starts c s _ hquote := description_eq_none hquote s
  ends s rest h := by
    obtain ⟨front, rfl⟩ := description_eq_some h
    exact ⟨'"' :: front, by simp⟩
  respaced v s s' h := by
    rw [description_eq, description_eq]
    refine rel_bind (h.after? (by decide)) fun inside inside' hinside => ?_
    exact rel_map ((hinside.dropWhile fun _ => by decide).after? (by decide)) fun _ _ hrest => hrest

/-- Comments end with their line, and a blank behind a comma keeps them. -/
theorem isDocPattern_lineComment : IsDocPattern lineComment where
  forward := isForward_lineComment
  advances s value rest h := by
    rw [lineComment_eq] at h
    obtain ⟨inside, hinside, heq⟩ := Option.map_eq_some_iff.1 h
    obtain ⟨-, rfl⟩ := Prod.mk.inj heq
    obtain rfl : s = '#' :: inside := after?_eq_some hinside
    have hsuffix := List.dropWhile_suffix (l := inside) (· ≠ '\n')
    exact ⟨hsuffix.trans (List.suffix_cons '#' inside), Nat.lt_succ_of_le hsuffix.length_le⟩
  starts c s hcomment _ := lineComment_eq_none hcomment s
  ends s rest h := by
    rw [lineComment_eq] at h
    obtain ⟨inside, -, heq⟩ := Option.map_eq_some_iff.1 h
    have hline := List.head?_dropWhile_not (· ≠ '\n') inside
    rw [(Prod.mk.inj heq).2] at hline
    exact absurd hline (by simp)
  respaced v s s' h := by
    rw [lineComment_eq, lineComment_eq]
    exact rel_map (h.after? (by decide)) fun inside inside' hinside => hinside.dropWhile fun _ => by decide

/-- A match that ends before a comma ends with a quote. -/
theorem IsDocPattern.getLast?_of_comma {p : Pattern Unit} (hp : IsDocPattern p) {taken v : Text}
    (h : p none (taken ++ ',' :: v) = some ((), ',' :: v)) : taken.getLast? = some '"' := by
  obtain ⟨front, hfront⟩ := hp.ends _ _ h
  have hsplit : (front ++ ['"']) ++ ',' :: v = taken ++ ',' :: v := by simpa using hfront
  rw [← List.append_cancel_right hsplit, List.getLast?_concat]

/-- What a quote stands in front of has no white space in front of it. -/
theorem isSpaced_or_quote {last before after : Option Char} (h : IsSpaced (last.or (some '"')) after) :
    IsSpaced (last.or before) after := by
  cases last with
  | some c => exact h
  | none => exact .inr (h.resolve_left (by decide))

section

variable {p : Pattern Unit} (hp : IsDocPattern p)

include hp

/-- A character that opens no documentation is not taken out. -/
theorem IsDocPattern.eraseAll_cons {c : Char} (hcomment : c ≠ '#') (hquote : c ≠ '"') (s : Text) :
    eraseAll p (c :: s) = c :: eraseAll p s :=
  eraseAll_cons_of_none hp.forward (hp.starts c s hcomment hquote)

/-- Taking out documentation leaves white space in front. -/
theorem IsDocPattern.isSpaced_eraseAll {before : Option Char} {v : Text} (h : IsSpaced before v.head?) :
    IsSpaced before (eraseAll p v).head? := by
  refine h.imp_right fun hafter => ?_
  cases v with
  | nil => cases hafter
  | cons c v =>
    obtain ⟨-, -, hcomment, hquote⟩ := isBlank_brace hafter
    rw [hp.eraseAll_cons hcomment hquote]
    exact hafter

/-- White space beside a comma stands behind the match in front of it. -/
theorem IsDocPattern.isSpaced_of_match {taken w v : Text}
    (h : p none (taken ++ w ++ ',' :: v) = some ((), w ++ ',' :: v)) {before after : Option Char}
    (hspaced : IsSpaced ((taken ++ w).getLast?.or before) after) :
    IsSpaced (w.getLast?.or (some '"')) after := by
  cases w with
  | nil =>
    rw [List.append_nil] at h hspaced
    rw [hp.getLast?_of_comma h] at hspaced
    exact hspaced
  | cons d w =>
    rw [List.getLast?_append, List.getLast?_cons] at hspaced
    rw [List.getLast?_cons]
    exact hspaced

/-- Taking out documentation takes out the comma, or neither the comma nor white space beside it. `before`
is what stands in front of a text whose front has been taken out. -/
theorem eraseAll_respaced (u v : Text) :
    eraseAll p (u ++ ',' :: ' ' :: v) = eraseAll p (u ++ ',' :: v) ∨
      ∃ u' v', eraseAll p (u ++ ',' :: v) = u' ++ ',' :: v' ∧
        eraseAll p (u ++ ',' :: ' ' :: v) = u' ++ ',' :: ' ' :: v' ∧
        ∀ before, IsSpaced (u.getLast?.or before) v.head? →
          IsSpaced (u'.getLast?.or before) v'.head? := by
  -- on the length of what stands in front of the comma: documentation is taken out a match at a time
  induction hlen : u.length using Nat.strong_induction_on generalizing u with
  | h n ih =>
  subst hlen
  cases u with
  | nil =>
    refine .inr ⟨[], eraseAll p v, ?_, ?_, fun before => hp.isSpaced_eraseAll⟩
    · exact hp.eraseAll_cons (by decide) (by decide) v
    · rw [List.nil_append, hp.eraseAll_cons (by decide) (by decide),
        hp.eraseAll_cons (by decide) (by decide)]
      rfl
  | cons c u =>
    have hrest : Respaced v (c :: u ++ ',' :: v) (c :: u ++ ',' :: ' ' :: v) := .before (c :: u)
    have hfound := hp.respaced v _ _ hrest
    cases hleft : p none (c :: u ++ ',' :: v) with
    | none =>
      rw [hleft] at hfound
      have hleft' := eq_none_of_rel hfound
      rw [List.cons_append] at hleft hleft'
      rw [List.cons_append, List.cons_append, eraseAll_cons_of_none hp.forward hleft,
        eraseAll_cons_of_none hp.forward hleft']
      rcases ih u.length (by simp) u rfl with heq | ⟨u', v', heq, heq', hspaced⟩
      · exact .inl (congrArg (c :: ·) heq)
      · refine .inr ⟨c :: u', v', congrArg (c :: ·) heq, congrArg (c :: ·) heq', fun before h => ?_⟩
        rw [getLast?_cons_or] at h ⊢
        exact hspaced _ h
    | some found =>
      obtain ⟨⟨⟩, rest⟩ := found
      rw [hleft] at hfound
      obtain ⟨⟨⟨⟩, rest'⟩, hleft', hrest⟩ := exists_of_rel hfound
      obtain ⟨taken, hsplit, htakes⟩ := hp.advances.exists_takes hleft
      obtain ⟨taken', hsplit', htakes'⟩ := hp.advances.exists_takes hleft'
      have hlength := (hp.advances _ _ _ hleft).2
      dsimp only at hrest
      rw [hsplit, hsplit', eraseAll_append_of_takes hp.forward htakes,
        eraseAll_append_of_takes hp.forward htakes']
      -- the match reaches over the comma, or ends in front of it
      cases hrest with
      | behind => exact .inl rfl
      | before w =>
        have htaken : c :: u = taken ++ w :=
          List.append_cancel_right (hsplit.trans (List.append_assoc taken w _).symm)
        have hshort : w.length < (c :: u).length := by
          simp only [List.length_append, List.length_cons] at hlength ⊢
          omega
        rw [htaken] at hleft ⊢
        rcases ih w.length hshort w rfl with heq | ⟨u', v', heq, heq', hspaced⟩
        · exact .inl heq
        · exact .inr ⟨u', v', heq, heq', fun before h =>
            isSpaced_or_quote (hspaced _ (hp.isSpaced_of_match hleft h))⟩

end

/-- A blank behind a comma stays one when documentation of one kind is taken out. -/
theorem Loosened.eraseAll {p : Pattern Unit} (hp : IsDocPattern p) {spaced : Prop} {s s' : Text}
    (h : Loosened spaced s s') : Loosened spaced (Text.eraseAll p s) (Text.eraseAll p s') := by
  rcases h with rfl | ⟨u, v, rfl, rfl, hplace⟩
  · exact .inl rfl
  · rcases eraseAll_respaced hp u v with heq | ⟨u', v', heq, heq', hkept⟩
    · exact .inl heq
    · have hkept := hkept none
      rw [Option.or_none, Option.or_none] at hkept
      exact .inr ⟨u', v', heq, heq', fun hspaced => hkept (hplace hspaced)⟩

/-- A blank behind a comma stays one when all documentation is taken out. -/
theorem Loosened.stripDocs {spaced : Prop} {s s' : Text} (h : Loosened spaced s s') :
    Loosened spaced (Schema.stripDocs s) (Schema.stripDocs s') :=
  ((h.eraseAll isDocPattern_blockString).eraseAll isDocPattern_description).eraseAll
    isDocPattern_lineComment

/-! ## Flat text -/

/-- White space in front of a text is one separator, unless it is snug. -/
theorem tighten_true {before : Option Char} {y : Text} (h : ∀ c ∈ y.head?, isBlank c = false) :
    tighten before true y =
      (if isSnug before y.head? then [] else [separator]) ++ tighten before false y := by
  cases y with
  | nil => cases hsnug : isSnug before none <;> simp [tighten, hsnug]
  | cons c y =>
    have hc := h c rfl
    cases hsnug : isSnug before (some c) <;> simp [tighten, hc, hsnug]

/-- White space more leaves a flat text as it is, or gives it a separator more. It was not beside other
white space then: `last` is the last character read. -/
theorem tighten_append_blank (x y : Text) (before last : Option Char) :
    tighten before (last.any isBlank) (x ++ ' ' :: y) = tighten before (last.any isBlank) (x ++ y) ∨
      ¬IsSpaced (x.getLast?.or last) y.head? ∧
        ∃ a b, tighten before (last.any isBlank) (x ++ y) = a ++ b ∧
          tighten before (last.any isBlank) (x ++ ' ' :: y) = a ++ separator :: b ∧
          isSnug (a.getLast?.or before) b.head? = false := by
  -- over what stands in front of the blank, which says what the blank finds there
  induction x generalizing before last with
  | nil =>
    have hblank : tighten before (last.any isBlank) (' ' :: y) = tighten before true y := by
      rw [tighten, if_pos (by decide)]
    rw [List.nil_append, List.nil_append, hblank]
    by_cases hspaced : IsSpaced last y.head?
    · left
      rcases hspaced with hlast | hhead
      · rw [hlast]
      · cases y with
        | nil => cases hhead
        | cons c y =>
          have hc : isBlank c := hhead
          rw [tighten, tighten, if_pos hc, if_pos hc]
    · obtain ⟨hlast, hhead⟩ := not_or.1 hspaced
      have hsolid : ∀ c ∈ y.head?, isBlank c = false := by
        intro c hc
        rw [Option.mem_def.1 hc] at hhead
        simpa using hhead
      have hfirst : (tighten before false y).head? = y.head? := by
        cases y with
        | nil => rfl
        | cons c y => simp [tighten, hsolid c rfl]
      rw [tighten_true hsolid, Bool.eq_false_iff.2 hlast]
      cases hsnug : isSnug before y.head? with
      | true => exact .inl rfl
      | false => exact .inr ⟨hspaced, [], _, rfl, rfl, by rw [hfirst]; exact hsnug⟩
  | cons c x ih =>
    rw [getLast?_cons_or, List.cons_append, List.cons_append, tighten, tighten]
    by_cases hblank : isBlank c
    · have htail := ih before (some c)
      rw [Option.any_some, hblank] at htail
      rw [if_pos hblank, if_pos hblank]
      exact htail
    · have htail := ih (some c) (some c)
      rw [Option.any_some, Bool.eq_false_iff.2 hblank] at htail
      rw [if_neg hblank, if_neg hblank]
      generalize (if last.any isBlank && !isSnug before (some c) then [separator] else []) = front
      rcases htail with heq | ⟨hspaced, a, b, heq, heq', hsnug⟩
      · exact .inl (by rw [heq])
      · refine .inr ⟨hspaced, front ++ c :: a, b, by rw [heq]; simp, by rw [heq']; simp, ?_⟩
        rw [List.getLast?_append, Option.or_assoc, getLast?_cons_or]
        exact hsnug

/-- Taking out commas leaves white space. -/
theorem IsSpaced.filter {u v : Text} (h : IsSpaced u.getLast? v.head?) :
    IsSpaced (u.filter (· ≠ ',')).getLast? (v.filter (· ≠ ',')).head? := by
  have hcomma {c : Char} (hc : isBlank c) (s : Text) :
      (c :: s).filter (· ≠ ',') = c :: s.filter (· ≠ ',') := by
    refine List.filter_cons_of_pos (decide_eq_true ?_)
    rintro rfl
    exact absurd hc (by decide)
  rcases h with hbefore | hafter
  · left
    rcases List.eq_nil_or_concat u with rfl | ⟨u, c, rfl⟩
    · cases hbefore
    · rw [List.concat_eq_append] at hbefore ⊢
      rw [List.getLast?_concat] at hbefore
      rw [List.filter_append, hcomma hbefore, List.filter_nil, List.getLast?_concat]
      exact hbefore
  · right
    cases v with
    | nil => cases hafter
    | cons c v =>
      rw [hcomma hafter]
      exact hafter

/-- A blank behind a comma leaves the flat text of an interior as it is, or gives it a separator more at a
place that is not snug and where there was no white space. -/
theorem flatten_loosened {spaced : Prop} {interior interior' : Text}
    (h : Loosened spaced interior interior') :
    flatten interior' = flatten interior ∨
      ¬spaced ∧ ∃ x y, flatten interior = x ++ y ∧ flatten interior' = x ++ separator :: y ∧
        isSnug x.getLast? y.head? = false := by
  rw [flatten_eq_tighten, flatten_eq_tighten]
  rcases h.stripDocs with heq | ⟨u, v, heq, heq', hplace⟩
  · exact .inl (by rw [heq])
  · have hplain : (stripDocs interior).filter (· ≠ ',') = u.filter (· ≠ ',') ++ v.filter (· ≠ ',') := by
      rw [heq, List.filter_append, List.filter_cons_of_neg (by decide)]
    have hplain' : (stripDocs interior').filter (· ≠ ',') =
        u.filter (· ≠ ',') ++ ' ' :: v.filter (· ≠ ',') := by
      rw [heq', List.filter_append, List.filter_cons_of_neg (by decide),
        List.filter_cons_of_pos (by decide)]
    have hkept (hspaced : spaced) :
        IsSpaced (u.filter (· ≠ ',')).getLast? (v.filter (· ≠ ',')).head? :=
      (hplace hspaced).filter
    rw [hplain, hplain']
    rcases tighten_append_blank (u.filter (· ≠ ',')) (v.filter (· ≠ ',')) none none with
      heq | ⟨hapart, x, y, heq, heq', hsnug⟩
    · exact .inl heq
    · rw [Option.or_none] at hapart hsnug
      exact .inr ⟨fun hspaced => hapart (hkept hspaced), x, y, heq, heq', hsnug⟩

/-- The same for the flat text of a schema text. -/
theorem flat?_comma_blank (u v : Text) :
    flat? (u ++ ',' :: ' ' :: v) = flat? (u ++ ',' :: v) ∨
      ¬IsSpaced u.getLast? v.head? ∧ ∃ x y, flat? (u ++ ',' :: v) = some (x ++ y) ∧
        flat? (u ++ ',' :: ' ' :: v) = some (x ++ separator :: y) ∧
        isSnug x.getLast? y.head? = false := by
  have hinterior := interior?_loosened u v
  unfold flat?
  generalize interior? (u ++ ',' :: v) = interior at hinterior ⊢
  generalize interior? (u ++ ',' :: ' ' :: v) = interior' at hinterior ⊢
  cases hinterior with
  | none => exact .inl rfl
  | some h =>
    rcases flatten_loosened h with heq | ⟨hspaced, x, y, heq, heq', hsnug⟩
    · exact .inl (congrArg some heq)
    · exact .inr ⟨hspaced, x, y, congrArg some heq, congrArg some heq', hsnug⟩

/-! ## Actions -/

/-- Whether a comma between two texts is all that parts two tokens whose growing together matters. -/
def IsGlued (u v : Text) : Prop :=
  ∃ x y, flat? (u ++ ',' :: v) = some (x ++ y) ∧
    flat? (u ++ ',' :: ' ' :: v) = some (x ++ separator :: y) ∧ Matters x y

/-- A comma parts as white space does, unless it is all that parts two tokens: beside white space the flat
text is the same with a blank more, and the actions are the same if nothing is glued together. -/
theorem actions_comma_blank (u v : Text) :
    (IsSpaced u.getLast? v.head? → flat? (u ++ ',' :: ' ' :: v) = flat? (u ++ ',' :: v)) ∧
      (¬IsGlued u v → ∀ origin, (flat? (u ++ ',' :: ' ' :: v)).map (actions origin) =
        (flat? (u ++ ',' :: v)).map (actions origin)) := by
  rcases flat?_comma_blank u v with heq | ⟨hspaced, x, y, heq, heq', hsnug⟩
  · exact ⟨fun _ => heq, fun _ _ => by rw [heq]⟩
  · refine ⟨fun h => absurd h hspaced, fun hglued origin => ?_⟩
    have hmatters : ¬Matters x y := fun h => hglued ⟨x, y, heq, heq', h⟩
    rw [heq, heq', Option.map_some, Option.map_some, actions_separator hsnug hmatters]

/-- Two fields without white space between them, up to a comma and behind it. -/
private def firstField : Text := "type Query \x7b\n  a: A!".toList

private def secondField : Text := "b: B!\n\x7d\n".toList

/-- A field with two arguments, up to the comma between them and behind it. -/
private def firstArgument : Text := "type Query \x7b\n  find(a: Int".toList

private def secondArgument : Text := "b: Int): R!\n\x7d\n".toList

/-- Where a separator more stands, if a text is known without it and with it. -/
private theorem exists_take_of_separator {x y t t' : Text} (h : x ++ y = t)
    (h' : x ++ separator :: y = t') :
    ∃ n < t'.length, x = t.take n ∧ y = t.drop n ∧ t' = t.take n ++ separator :: t.drop n := by
  subst h h'
  exact ⟨x.length, by simp, by simp, by simp, by simp⟩

private theorem not_isGlued_fields : ¬IsGlued firstField secondField := by
  have hflat : flat? (firstField ++ ',' :: secondField) = some "#a:A!b:B!#".toList ∧
      flat? (firstField ++ ',' :: ' ' :: secondField) = some "#a:A!#b:B!#".toList := by
    unfold firstField secondField
    repeat rw [String.toList_ofList]
    decide
  have hfields : fields "#a:A!#b:B!#".toList =
      [⟨"a".toList, [], "A!".toList⟩, ⟨"b".toList, [], "B!".toList⟩] := by
    repeat rw [String.toList_ofList]
    decide
  rintro ⟨x, y, hx, hx', hmatters⟩
  rw [hflat.1, Option.some.injEq] at hx
  rw [hflat.2, Option.some.injEq] at hx'
  rcases hmatters with ⟨hmeet, -⟩ | ⟨field, a, b, -, hfield, -⟩
  · obtain ⟨n, hn, rfl, rfl, hsplit⟩ := exists_take_of_separator hx.symm hx'.symm
    obtain rfl : n = 5 := by
      clear hx hx' hmeet
      revert n
      decide
    obtain ⟨c, ⟨⟩, d, -, hc, -⟩ := hmeet
    exact absurd hc (by decide)
  · rw [← hx', hfields] at hfield
    simp at hfield

/-- A comma behind white space between arguments, and one without any between fields. -/
theorem actions_comma_blank_fields :
    flat? (firstArgument ++ [' '] ++ ',' :: ' ' :: secondArgument) =
        flat? (firstArgument ++ [' '] ++ ',' :: secondArgument) ∧
      (flat? (firstField ++ ',' :: ' ' :: secondField)).map (actions default) =
        (flat? (firstField ++ ',' :: secondField)).map (actions default) :=
  ⟨(actions_comma_blank (firstArgument ++ [' ']) secondArgument).1 (by decide),
    (actions_comma_blank firstField secondField).2 not_isGlued_fields default⟩

/-- Two arguments with nothing but a comma between them are one. -/
theorem actions_differ_by_blank :
    (∀ c ∈ firstArgument ++ ',' :: secondArgument, c ≠ '#' ∧ c ≠ '"') ∧
      (flat? (firstArgument ++ ',' :: ' ' :: secondArgument)).map (actions default) ≠
        (flat? (firstArgument ++ ',' :: secondArgument)).map (actions default) := by
  have htexts : (∀ c ∈ firstArgument ++ ',' :: secondArgument, c ≠ '#' ∧ c ≠ '"') ∧
      flat? (firstArgument ++ ',' :: secondArgument) = some "#find(a:Intb:Int):R!#".toList ∧
      flat? (firstArgument ++ ',' :: ' ' :: secondArgument) =
        some "#find(a:Int#b:Int):R!#".toList := by
    unfold firstArgument secondArgument
    repeat rw [String.toList_ofList]
    decide
  have hfields : fields "#find(a:Intb:Int):R!#".toList =
        [⟨"find".toList, "a:Intb:Int".toList, "R!".toList⟩] ∧
      fields "#find(a:Int#b:Int):R!#".toList =
        [⟨"find".toList, "a:Int#b:Int".toList, "R!".toList⟩] := by
    repeat rw [String.toList_ofList]
    decide
  -- without the blank the second argument is part of the type of the first
  have hglued : readArguments default "find".toList "a:Intb:Int".toList =
      .ok [⟨⟨"Intb:Int".toList, false, false, false⟩, "a".toList⟩] := by
    have hitems : items "a:Intb:Int".toList = ["a:Intb:Int".toList] := by cbv
    rw [readArguments, hitems]
    rfl
  have hparted : readArguments default "find".toList "a:Int#b:Int".toList =
      .ok [⟨⟨"Int".toList, false, false, false⟩, "a".toList⟩,
        ⟨⟨"Int".toList, false, false, false⟩, "b".toList⟩] := by
    have hitems : items "a:Int#b:Int".toList = ["a:Int".toList, "b:Int".toList] := by cbv
    rw [readArguments, hitems]
    rfl
  have hresponse : responseName default "find".toList "R!".toList = .ok "R".toList := by decide
  obtain ⟨hdocs, hflat, hflat'⟩ := htexts
  refine ⟨hdocs, ?_⟩
  rw [hflat, hflat', Option.map_some, Option.map_some,
    actions_singleton hfields.1 hglued hresponse,
    actions_singleton hfields.2 hparted hresponse]
  intro heq
  have hlists := Except.ok.inj (Option.some.inj heq)
  revert hlists
  decide

end Scaffold.Schema
