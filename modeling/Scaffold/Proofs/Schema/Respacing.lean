import Scaffold.Proofs.Schema.Documentation
import Scaffold.Proofs.Schema.Headers

/-!
# A blank behind a comma

Two texts that are the same but for a blank more behind one comma are read alike: when as much of both has
been read, what is left is the same, or is again the same but for the blank (`Respaced`). Each reader of
documentation, words and headers keeps that relation. The walks that look for the type block and for its
closing brace count characters, and their counters stay together up to the one blank (`Shift`). So the block
is found in both texts or in neither (`blockFrom?_respaced`), and it closes at the same brace
(`closeBlock_respaced`).
-/

namespace Scaffold

open Text

/-- What two steps that can fail give is related if what they go on from is. -/
theorem rel_bind {α β γ δ : Type} {R : α → β → Prop} {S : γ → δ → Prop} {a : Option α} {b : Option β}
    {f : α → Option γ} {g : β → Option δ} (h : Option.Rel R a b)
    (hstep : ∀ x y, R x y → Option.Rel S (f x) (g y)) : Option.Rel S (a.bind f) (b.bind g) := by
  cases h with
  | none => exact .none
  | some hxy => exact hstep _ _ hxy

theorem eq_none_of_rel {α β : Type} {R : α → β → Prop} {b : Option β} (h : Option.Rel R none b) :
    b = none := by
  cases h
  rfl

theorem exists_of_rel {α β : Type} {R : α → β → Prop} {a : α} {b : Option β}
    (h : Option.Rel R (some a) b) : ∃ b', b = some b' ∧ R a b' := by
  cases h with
  | some hab => exact ⟨_, rfl, hab⟩

/-- Related values are related once they are mapped. -/
theorem rel_map {α β γ δ : Type} {R : α → β → Prop} {S : γ → δ → Prop} {a : Option α} {b : Option β}
    {f : α → γ} {g : β → δ} (h : Option.Rel R a b) (hstep : ∀ x y, R x y → S (f x) (g y)) :
    Option.Rel S (a.map f) (b.map g) := by
  cases h with
  | none => exact .none
  | some hxy => exact .some (hstep _ _ hxy)

namespace Schema

/-! ## A blank behind a comma -/

/-- What is left of two texts, the same but for a blank more behind the comma in front of `v`, when as much
of both has been read. -/
inductive Respaced (v : Text) : Text → Text → Prop where
  | before (w : Text) : Respaced v (w ++ ',' :: v) (w ++ ',' :: ' ' :: v)
  | behind {rest : Text} (h : rest <:+ v) : Respaced v rest rest

namespace Respaced

variable {v s s' : Text}

theorem head? (h : Respaced v s s') : s'.head? = s.head? := by
  cases h with
  | before w => cases w <;> rfl
  | behind => rfl

/-- Whoever passes over a comma passes over the blank, too. -/
theorem dropWhile {p : Char → Bool} (hp : p ',' → p ' ') (h : Respaced v s s') :
    Respaced v (s.dropWhile p) (s'.dropWhile p) := by
  cases h with
  | before w =>
    cases hcomma : p ',' with
    | false =>
      rw [dropWhile_append_cons hcomma, dropWhile_append_cons hcomma]
      exact .before _
    | true =>
      rw [List.dropWhile_append, List.dropWhile_append]
      split
      · rw [List.dropWhile_cons_of_pos hcomma, List.dropWhile_cons_of_pos hcomma,
          List.dropWhile_cons_of_pos (hp hcomma)]
        exact .behind (List.dropWhile_suffix p)
      · exact .before _
  | behind h => exact .behind ((List.dropWhile_suffix p).trans h)

/-- The same text stands at the start of both, if it has no comma. -/
theorem after? {p : Text} (hp : ',' ∉ p) (h : Respaced v s s') :
    Option.Rel (Respaced v) (Text.after? p s) (Text.after? p s') := by
  cases h with
  | before w =>
    rw [after?_append_cons hp, after?_append_cons hp]
    cases Text.after? p w with
    | none => exact .none
    | some rest => exact .some (.before rest)
  | behind h =>
    cases hrest : Text.after? p s with
    | none => exact .none
    | some rest => exact .some (.behind ((after?_eq_some hrest ▸ List.suffix_append p rest).trans h))

/-- What follows the first occurrence of a text without commas and blanks. -/
theorem cutAt? {p : Text} (hne : p ≠ []) (hcomma : ',' ∉ p) (hblank : ' ' ∉ p) (h : Respaced v s s') :
    Option.Rel (Respaced v) ((Text.cutAt? p s).map Prod.snd) ((Text.cutAt? p s').map Prod.snd) := by
  have hrefl {t : Text} (ht : t <:+ v) :
      Option.Rel (Respaced v) ((Text.cutAt? p t).map Prod.snd) ((Text.cutAt? p t).map Prod.snd) := by
    cases hcut : Text.cutAt? p t with
    | none => exact .none
    | some cut =>
      exact .some (.behind ((cutAt?_eq_some hcut ▸ List.suffix_append _ cut.2).trans ht))
  cases h with
  | before w =>
    have hpass : (Text.cutAt? p (' ' :: v)).map Prod.snd = (Text.cutAt? p v).map Prod.snd := by
      rw [cutAt?_cons_of_none (after?_cons_eq_none hne hblank v), Option.map_map]
      rfl
    rw [map_snd_cutAt?_append_cons hne hcomma, map_snd_cutAt?_append_cons hne hcomma, hpass]
    cases Text.cutAt? p w with
    | none => exact hrefl List.suffix_rfl
    | some cut => exact .some (.before cut.2)
  | behind h => exact hrefl h

/-- The name of a word in front of a text may go up to the comma. -/
theorem word? (h : Respaced v s s') :
    Option.Rel (fun found found' => Respaced v found.2 found'.2) (Text.word? s) (Text.word? s') := by
  cases h with
  | before w =>
    rw [word?_append_cons (by decide), word?_append_cons (by decide)]
    cases Text.word? w with
    | none => exact .none
    | some found => exact .some (.before found.2)
  | behind h =>
    cases hword : Text.word? s with
    | none => exact .none
    | some found => exact .some (.behind ((suffix_of_word? hword).1.trans h))

/-- A description ends at the same place in both. -/
theorem descriptionRest (h : Respaced v s s') :
    Respaced v (Schema.descriptionRest s) (Schema.descriptionRest s') := by
  cases h with
  | behind h => exact .behind ((descriptionRest_suffix s).trans h)
  | before w =>
    fun_induction Schema.descriptionRest w with
    | case1 => exact .behind (descriptionRest_suffix v)
    | case2 => exact .behind (descriptionRest_suffix v)
    | case3 c w ih => exact ih
    | case4 w => exact .before w
    | case5 w => exact .before ('\n' :: w)
    | case6 c w hlone hescape hquote hnewline ih =>
      have hbackslash := ne_backslash hlone hescape
      have hquote : c ≠ '"' := fun heq => hquote heq
      have hnewline : c ≠ '\n' := fun heq => hnewline heq
      rw [List.cons_append, List.cons_append, descriptionRest_cons hbackslash hquote hnewline,
        descriptionRest_cons hbackslash hquote hnewline]
      exact ih

/-- Documentation ends at the same place in both. -/
theorem docRest? (h : Respaced v s s') :
    Option.Rel (Respaced v) (Schema.docRest? s) (Schema.docRest? s') := by
  cases h with
  | behind h =>
    cases hrest : Schema.docRest? s with
    | none => exact .none
    | some rest =>
      cases s with
      | nil => cases hrest
      | cons c s => exact .some (.behind (((docRest?_suffix hrest).trans (List.suffix_cons c s)).trans h))
  | before w =>
    cases w with
    | nil =>
      rw [List.nil_append, List.nil_append, docRest?_eq_none (by decide) (by decide),
        docRest?_eq_none (by decide) (by decide)]
      exact .none
    | cons c w =>
      have hrest : Respaced v (w ++ ',' :: v) (w ++ ',' :: ' ' :: v) := .before w
      have hquoted : Respaced v (c :: (w ++ ',' :: v)) (c :: (w ++ ',' :: ' ' :: v)) := .before (c :: w)
      rw [List.cons_append, List.cons_append]
      -- a comment, a quotation or a block string: each ends at a place that a blank does not move
      by_cases hcomment : c = '#'
      · subst hcomment
        exact .some (hrest.dropWhile fun _ => by decide)
      by_cases hquote : c = '"'
      · subst hquote
        have hopening := hquoted.after? (p := blockQuotes) (by decide)
        rw [docRest?_quote_eq, docRest?_quote_eq]
        refine .some ?_
        cases hinside : Text.after? blockQuotes ('"' :: (w ++ ',' :: v)) with
        | none =>
          rw [hinside] at hopening
          rw [eq_none_of_rel hopening]
          exact hrest.descriptionRest
        | some inside =>
          rw [hinside] at hopening
          obtain ⟨inside', hinside', hrest⟩ := exists_of_rel hopening
          have hclosing := hrest.cutAt? (p := blockQuotes) (by decide) (by decide) (by decide)
          rw [hinside']
          dsimp only
          cases hcut : (Text.cutAt? blockQuotes inside).map Prod.snd with
          | none =>
            rw [hcut] at hclosing
            rw [eq_none_of_rel hclosing]
            exact .behind List.nil_suffix
          | some rest =>
            rw [hcut] at hclosing
            obtain ⟨rest', hcut', hrest⟩ := exists_of_rel hclosing
            rw [hcut']
            exact hrest
      · rw [docRest?_eq_none hcomment hquote, docRest?_eq_none hcomment hquote]
        exact .none

/-- A header that has begun goes on in the same way in both. -/
theorem nameAndInside? (h : Respaced v s s') :
    Option.Rel (fun found found' => Respaced v found.2 found'.2) (Schema.nameAndInside? s)
      (Schema.nameAndInside? s') := by
  rw [nameAndInside?_eq, nameAndInside?_eq]
  refine rel_bind (h.dropWhile (by decide)).word? fun found found' hrest => ?_
  exact rel_map ((hrest.dropWhile fun _ => by decide).after? (by decide)) fun _ _ hinside => hinside

/-- A header begins at the same places in both. -/
theorem typeHeader (h : Respaced v s s') (before : Option Char) :
    Option.Rel (fun found found' => Respaced v found.2 found'.2) (Schema.typeHeader before s)
      (Schema.typeHeader before s') := by
  rw [typeHeader_eq, typeHeader_eq]
  split
  · exact .none
  · refine rel_bind (h.after? (by decide)) fun gap gap' hgap => ?_
    rw [hgap.head?]
    split
    · exact hgap.nameAndInside?
    · exact .none

end Respaced

/-! ## Interiors -/

/-- Two counters of characters that belong to a header or to documentation, in front of `n` characters and
the comma: what ends before the comma is as long as it was, and what goes over it is longer by the blank. -/
def Shift (n count count' : Nat) : Prop := (count ≤ n ∧ count' = count) ∨ (n < count ∧ count' = count + 1)

/-- What is left to skip is as long in both, or longer by the blank. -/
theorem Respaced.shift {v rest rest' : Text} (h : Respaced v rest rest') (u : Text) :
    Shift u.length ((u ++ ',' :: v).length - rest.length)
      ((u ++ ',' :: ' ' :: v).length - rest'.length) := by
  unfold Shift
  cases h with
  | before w =>
    simp only [List.length_append, List.length_cons]
    omega
  | behind h =>
    have hle := h.length_le
    simp only [List.length_append, List.length_cons]
    omega

theorem Shift.pred {n count count' : Nat} (h : Shift (n + 1) (count + 1) count') :
    ∃ count'', count' = count'' + 1 ∧ Shift n count count'' := by
  unfold Shift at h
  refine ⟨count' - 1, by omega, ?_⟩
  unfold Shift
  omega

theorem shift_zero (n : Nat) : Shift n 0 0 := .inl ⟨Nat.zero_le n, rfl⟩

/-- Documentation is skipped to the same place in both. -/
theorem Shift.docBehind {v : Text} {doc doc' : Nat} {c : Char} {u : Text}
    (h : Shift (u.length + 1) doc doc') :
    Shift u.length (docBehind doc c (u ++ ',' :: v)) (docBehind doc' c (u ++ ',' :: ' ' :: v)) := by
  cases doc with
  | zero =>
    obtain rfl : doc' = 0 := by
      unfold Shift at h
      omega
    have hrest : Respaced v (c :: (u ++ ',' :: v)) (c :: (u ++ ',' :: ' ' :: v)) := .before (c :: u)
    have hdoc := hrest.docRest?
    unfold Schema.docBehind
    dsimp only
    cases hregion : docRest? (c :: (u ++ ',' :: v)) with
    | none =>
      rw [hregion] at hdoc
      rw [eq_none_of_rel hdoc]
      exact shift_zero _
    | some rest =>
      rw [hregion] at hdoc
      obtain ⟨rest', hregion', hrest⟩ := exists_of_rel hdoc
      rw [hregion']
      exact hrest.shift u
  | succ doc =>
    obtain ⟨rest, rfl, hrest⟩ := h.pred
    exact hrest

/-- What follows the brace of a header in two texts, the same but for a blank behind the comma between `u`
and `v`. -/
def Opened (u v inside inside' : Text) : Prop :=
  inside' = inside ∨
    ∃ w, '{' :: w <:+ u ∧ inside = w ++ ',' :: v ∧ inside' = w ++ ',' :: ' ' :: v

/-- A header opens the same block in both. -/
theorem opened_of_typeHeader {before : Option Char} {u v name inside inside' : Text}
    (hfound : typeHeader before (u ++ ',' :: v) = some (name, inside)) (h : Respaced v inside inside') :
    Opened u v inside inside' := by
  cases h with
  | behind => exact .inl rfl
  | before w =>
    refine .inr ⟨w, ?_, rfl, rfl⟩
    have hsuffix := List.dropWhile_suffix (l := u ++ ',' :: v) (· ≠ '{')
    rw [dropWhile_of_typeHeader hfound, ← List.cons_append] at hsuffix
    exact List.suffix_append_self_iff.1 hsuffix

/-- The same block is opened with more text in front. -/
theorem Opened.cons {c : Char} {u v : Text} {a b : Option Text} (h : Option.Rel (Opened u v) a b) :
    Option.Rel (Opened (c :: u) v) a b := by
  cases h with
  | none => exact .none
  | some hopened =>
    refine .some (hopened.imp_right ?_)
    rintro ⟨w, hw, hinside⟩
    exact ⟨w, hw.trans (List.suffix_cons c u), hinside⟩

/-- The same block is found, or one that goes over the comma. -/
theorem blockFrom?_respaced (u v : Text) {header header' doc doc' : Nat}
    (hheader : Shift u.length header header') (hdoc : Shift u.length doc doc') (before : Option Char) :
    Option.Rel (Opened u v) (blockFrom? header doc before (u ++ ',' :: v))
      (blockFrom? header' doc' before (u ++ ',' :: ' ' :: v)) := by
  induction u generalizing header header' doc doc' before with
  | nil =>
    have hpred {count count' : Nat} (h : Shift 0 count count') : count' - 1 - 1 = count - 1 := by
      unfold Shift at h
      omega
    have hbefore : (some ' ').any isWord = (some ',').any isWord := by decide
    rw [List.nil_append, List.nil_append, blockFrom?_cons (by decide) (by decide) (by decide),
      blockFrom?_cons (by decide) (by decide) (by decide),
      blockFrom?_cons (by decide) (by decide) (by decide), hpred hheader, hpred hdoc,
      blockFrom?_congr hbefore]
    cases blockFrom? (header - 1) (doc - 1) (some ',') v with
    | none => exact .none
    | some inside => exact .some (.inl rfl)
  | cons c u ih =>
    rw [List.cons_append, List.cons_append]
    cases header with
    | succ header =>
      obtain ⟨rest, rfl, hrest⟩ := hheader.pred
      rw [blockFrom?_succ, blockFrom?_succ]
      exact Opened.cons (ih hrest hdoc.docBehind (some c))
    | zero =>
      obtain rfl : header' = 0 := by
        unfold Shift at hheader
        omega
      have hrest : Respaced v (c :: (u ++ ',' :: v)) (c :: (u ++ ',' :: ' ' :: v)) := .before (c :: u)
      have hheaders := hrest.typeHeader before
      cases hfound : typeHeader before (c :: (u ++ ',' :: v)) with
      | none =>
        rw [hfound] at hheaders
        rw [blockFrom?_of_none doc hfound, blockFrom?_of_none doc' (eq_none_of_rel hheaders)]
        exact Opened.cons (ih (shift_zero _) hdoc.docBehind (some c))
      | some found =>
        obtain ⟨name, inside⟩ := found
        rw [hfound] at hheaders
        obtain ⟨⟨name', inside'⟩, hfound', hinside⟩ := exists_of_rel hheaders
        cases doc with
        | zero =>
          obtain rfl : doc' = 0 := by
            unfold Shift at hdoc
            omega
          rw [blockFrom?_of_some hfound, blockFrom?_of_some hfound']
          exact .some (opened_of_typeHeader (u := c :: u) hfound hinside)
        | succ doc =>
          -- the header begins in documentation, and counts no further than to its brace
          obtain ⟨rest, rfl, hrest⟩ := hdoc.pred
          rw [blockFrom?_of_some_succ doc hfound, blockFrom?_of_some_succ rest hfound']
          exact Opened.cons (ih (hinside.shift u) hrest (some c))

/-- How deep the text is behind a character that `doc` characters of documentation follow. -/
theorem closeBlock_cons (doc depth : Nat) (c : Char) (s : Text) :
    closeBlock doc depth (c :: s) =
      (if doc = 0 ∧ c ≠ '#' ∧ c ≠ '"' then Bit.depth? depth (.solid c) else some depth).elim []
        fun depth' => c :: closeBlock (docBehind doc c s) depth' s := by
  -- inside documentation the depth stays
  cases doc with
  | succ doc => rfl
  | zero =>
    by_cases hplain : c ≠ '#' ∧ c ≠ '"'
    · have hnone := docRest?_eq_none hplain.1 hplain.2 s
      rw [closeBlock.eq_def, if_pos ⟨rfl, hplain⟩]
      simp only [docBehind, hnone, Bit.depth?]
      split_ifs with hopen hclose hzero
      · rfl
      · subst hzero
        rfl
      · obtain ⟨depth, rfl⟩ := Nat.exists_eq_succ_of_ne_zero hzero
        rfl
      · rfl
    · have hsome : (docRest? (c :: s)).isSome := by
        rcases not_and_or.1 hplain with hc | hc
        · rw [not_not.1 hc]
          rfl
        · rw [not_not.1 hc]
          exact docRest?_quote s
      obtain ⟨rest, hrest⟩ := Option.isSome_iff_exists.1 hsome
      rw [closeBlock.eq_def, if_neg fun h => hplain h.2]
      simp [docBehind, hrest]

/-- A character that opens and closes nothing is kept. -/
theorem closeBlock_of_plain {c : Char} (hopen : c ≠ '{') (hclose : c ≠ '}') (hcomment : c ≠ '#')
    (hquote : c ≠ '"') (doc depth : Nat) (s : Text) :
    closeBlock doc depth (c :: s) = c :: closeBlock (doc - 1) depth s := by
  rw [closeBlock_cons, docBehind_of_plain hcomment hquote]
  simp [Bit.depth?, hopen, hclose]

/-- The block closes at the same brace, before the comma or behind it. -/
theorem closeBlock_respaced (u v : Text) {doc doc' : Nat} (h : Shift u.length doc doc') (depth : Nat) :
    closeBlock doc' depth (u ++ ',' :: ' ' :: v) = closeBlock doc depth (u ++ ',' :: v) ∨
      ∃ v', closeBlock doc depth (u ++ ',' :: v) = u ++ ',' :: v' ∧
        closeBlock doc' depth (u ++ ',' :: ' ' :: v) = u ++ ',' :: ' ' :: v' ∧
        ∀ c ∈ v.head?, isBlank c → v'.head? = some c := by
  -- `doc` and `doc'` stay in step up to the comma, which may be inside documentation
  induction u generalizing doc doc' depth with
  | nil =>
    have hcount : doc' - 1 - 1 = doc - 1 := by
      unfold Shift at h
      simp only [List.length_nil] at h
      omega
    refine .inr ⟨closeBlock (doc - 1) depth v, ?_, ?_, ?_⟩
    · exact closeBlock_of_plain (by decide) (by decide) (by decide) (by decide) doc depth v
    · rw [List.nil_append, closeBlock_of_plain (by decide) (by decide) (by decide) (by decide),
        closeBlock_of_plain (by decide) (by decide) (by decide) (by decide), hcount]
      rfl
    · intro c hc hblank
      obtain ⟨v, rfl⟩ := List.head?_eq_some_iff.1 hc
      obtain ⟨hopen, hclose, hcomment, hquote⟩ := isBlank_brace hblank
      rw [closeBlock_of_plain hopen hclose hcomment hquote]
      rfl
  | cons c u ih =>
    have hzero : doc' = 0 ↔ doc = 0 := by
      unfold Shift at h
      omega
    rw [List.cons_append, List.cons_append, closeBlock_cons, closeBlock_cons]
    simp only [hzero]
    cases (if doc = 0 ∧ c ≠ '#' ∧ c ≠ '"' then Bit.depth? depth (.solid c) else some depth) with
    | none => exact .inl rfl
    | some depth' =>
      rcases ih h.docBehind depth' with heq | ⟨v', heq, heq', hhead⟩
      · exact .inl (congrArg (c :: ·) heq)
      · exact .inr ⟨v', congrArg (c :: ·) heq, congrArg (c :: ·) heq', hhead⟩

end Schema

end Scaffold
