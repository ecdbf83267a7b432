import Mathlib.Data.List.DropRight
import Scaffold.Proofs.Schema.Arguments
import Scaffold.Proofs.Schema.Calls

/-!
# One separator more

Fields are read from flat text in three passes, and each of them takes a separator more along with a group,
or leaves it where it is (`widened_replaceAll`, `findAll_widened`, `findAll_plainField_widened`). So the
fields are the same, or the separator is in the arguments of one of them (`fields_widened`). The actions
then change only if the separator parts two words, or cuts an argument in two (`actions_separator`).
-/

namespace Scaffold.Schema

open Text

/-! ## A text and the same with a separator more -/

/-- A text and the same text, perhaps with a separator more: inside a group, or at a place that is kept
apart. -/
inductive Widened : Text → Text → Prop where
  | same (t : Text) : Widened t t
  | inGroup (front rest : Text) {a b : Text} (ha : IsPlain a) (hb : IsPlain b) :
      Widened (front ++ '(' :: (a ++ b ++ ')' :: rest))
        (front ++ '(' :: (a ++ separator :: b ++ ')' :: rest))
  | apart {x y : Text} (h : Apart x.getLast? y.head?) (hgroup : ¬InGroup x y) :
      Widened (x ++ y) (x ++ separator :: y)

theorem IsPlain.append {a b : Text} (ha : IsPlain a) (hb : IsPlain b) : IsPlain (a ++ b) :=
  List.forall_mem_append.2 ⟨ha, hb⟩

theorem IsPlain.append_separator {a b : Text} (ha : IsPlain a) (hb : IsPlain b) :
    IsPlain (a ++ separator :: b) :=
  ha.append (List.forall_mem_cons.2 ⟨by decide, hb⟩)

/-- A separator inside a group is a separator more. -/
theorem widened_of_inGroup {x y : Text} (h : InGroup x y) : Widened (x ++ y) (x ++ separator :: y) := by
  obtain ⟨front, a, b, rest, rfl, rfl, ha, hb⟩ := h
  simpa using Widened.inGroup front rest ha hb

/-- A separator between texts that are apart is a separator more. -/
theorem widened_of_apart {x y : Text} (h : Apart x.getLast? y.head?) :
    Widened (x ++ y) (x ++ separator :: y) := by
  by_cases hgroup : InGroup x y
  · exact widened_of_inGroup hgroup
  · exact .apart h hgroup

section

variable {α : Type} {p : Pattern α} {f : α → Text}

/-- What may be put in the place of a match without anything growing together with it. -/
structure IsQuiet (t : Text) : Prop where
  ne_nil : t ≠ []
  head : ∀ d ∈ t.head?, d ≠ '(' ∧ d ≠ ':' ∧ d ≠ '!' ∧ isWord d = false
  last : ∀ c ∈ t.getLast?, c ≠ ':' ∧ c ≠ '@' ∧ isWord c = false

/-- Texts that are apart stay so when calls are replaced by quiet texts. -/
theorem apart_replaceAll (hf : ∀ value, IsQuiet (f value)) {x y : Text} (h : Apart x.getLast? y.head?) :
    Apart (replaceAll p f x).getLast? (replaceAll p f y).head? := by
  have hne (value : α) : f value ≠ [] := (hf value).ne_nil
  rcases getLast?_replaceAll (p := p) hne x with hlast | ⟨value, hlast⟩ <;>
    rcases head?_replaceAll (p := p) hne y with hhead | ⟨value', hhead⟩ <;> rw [hlast, hhead]
  · exact h
  · refine ⟨h.colon, fun d hd => ?_, fun c _ d hd hword => ?_⟩
    · obtain ⟨hopen, hcolon, hmark, -⟩ := (hf value').head d hd
      exact ⟨hopen, hcolon, hmark⟩
    · rw [((hf value').head d hd).2.2.2] at hword
      exact Bool.noConfusion hword
  · refine ⟨fun hcolon => ((hf value).last ':' hcolon).1 rfl, h.mark, fun c hc _ _ _ => ?_⟩
    obtain ⟨-, hat, hword⟩ := (hf value).last c hc
    exact ⟨hword, hat⟩
  · refine ⟨fun hcolon => ((hf value).last ':' hcolon).1 rfl, fun d hd => ?_, fun c hc _ _ _ => ?_⟩
    · obtain ⟨hopen, hcolon, hmark, -⟩ := (hf value').head d hd
      exact ⟨hopen, hcolon, hmark⟩
    · obtain ⟨-, hat, hword⟩ := (hf value).last c hc
      exact ⟨hword, hat⟩

variable {fill : α → Text → α}

/-- Replacing calls leaves a group with its inside, or nothing of it. -/
theorem IsCall.replaceAll_group (hp : IsCall p fill)
    (hfill : ∀ value inside, f (fill value inside) = f value) (front rest : Text) :
    (∃ left right, ∀ inside, IsPlain inside →
      replaceAll p f (front ++ '(' :: (inside ++ ')' :: rest)) =
        left ++ '(' :: (inside ++ ')' :: right)) ∨
    ∃ t, ∀ inside, IsPlain inside → replaceAll p f (front ++ '(' :: (inside ++ ')' :: rest)) = t := by
  rcases hp.takesGroupOnce front rest with ⟨ps, hps⟩ | ⟨ps, value, left, taken, hps⟩
  · refine .inl ⟨ps.flatMap (Piece.replaced f), replaceAll p f rest, fun inside hplain => ?_⟩
    dsimp only at hps
    rw [replaceAll_eq, hps inside hplain, List.flatMap_append, List.flatMap_append,
      flatMap_replaced_map_loose, replaceAll_eq]
    simp
  · refine .inr ⟨ps.flatMap (Piece.replaced f) ++ (f value ++ replaceAll p f left),
      fun inside hplain => ?_⟩
    dsimp only at hps
    rw [replaceAll_eq, hps inside hplain, List.flatMap_append, List.flatMap_cons, Piece.replaced, hfill,
      replaceAll_eq]

/-- Replacing calls keeps the separator, or takes it out with the group that it is in. -/
theorem widened_replaceAll (hp : IsCall p fill) (hf : ∀ value, IsQuiet (f value))
    (hfill : ∀ value inside, f (fill value inside) = f value) {t t' : Text} (h : Widened t t') :
    Widened (replaceAll p f t) (replaceAll p f t') := by
  cases h with
  | same => exact .same _
  | @inGroup front rest a b ha hb =>
    rcases hp.replaceAll_group hfill front rest with ⟨left, right, hgroup⟩ | ⟨t, hgroup⟩ <;>
      rw [hgroup _ (ha.append hb), hgroup _ (ha.append_separator hb)]
    · exact .inGroup left right ha hb
    · exact .same t
  | @apart x y h hgroup =>
    have hseparated := hp.pieces_append h.separator (fun hin => hgroup (inGroup_separator hin))
    have hreplace : replaceAll p f (x ++ y) = replaceAll p f x ++ replaceAll p f y := by
      rw [replaceAll_eq, hp.pieces_append h hgroup, List.flatMap_append, ← replaceAll_eq, ← replaceAll_eq]
    have hreplace' : replaceAll p f (x ++ separator :: y) =
        replaceAll p f x ++ separator :: replaceAll p f y := by
      rw [replaceAll_eq, hseparated, hp.pieces_separator, List.flatMap_append, List.flatMap_cons,
        ← replaceAll_eq, ← replaceAll_eq]
      rfl
    rw [hreplace, hreplace']
    exact widened_of_apart (apart_replaceAll hf h)

/-- Finding calls gives the same values, or the separator is in the inside of one of them. -/
theorem findAll_widened (hp : IsCall p fill) {t t' : Text} (h : Widened t t') :
    findAll p t' = findAll p t ∨ ∃ front rest value a b,
      findAll p t = front ++ fill value (a ++ b) :: rest ∧
        findAll p t' = front ++ fill value (a ++ separator :: b) :: rest := by
  cases h with
  | same => exact .inl rfl
  | @inGroup front rest a b ha hb =>
    rcases hp.takesGroupOnce front rest with ⟨ps, hps⟩ | ⟨ps, value, left, taken, hps⟩ <;>
      dsimp only at hps
    · left
      unfold findAll
      rw [hps _ (ha.append hb), hps _ (ha.append_separator hb), List.filterMap_append,
        List.filterMap_append, List.filterMap_append, List.filterMap_append, filterMap_value?_map_loose,
        filterMap_value?_map_loose]
    · refine .inr ⟨ps.filterMap Piece.value?, findAll p left, value, a, b, ?_, ?_⟩ <;>
        unfold findAll
      · rw [hps _ (ha.append hb), List.filterMap_append]
        rfl
      · rw [hps _ (ha.append_separator hb), List.filterMap_append]
        rfl
  | @apart x y h hgroup =>
    left
    unfold findAll
    rw [hp.pieces_append h hgroup, hp.pieces_append h.separator fun hin => hgroup (inGroup_separator hin),
      hp.pieces_separator, List.filterMap_append, List.filterMap_append]
    rfl

end

/-! ## Groups that are stripped -/

/-- How many groups are open behind a text, where `depth` were before it. -/
def openGroups : (depth : Nat) → Text → Nat
  | depth, [] => depth
  | depth, c :: s => openGroups (if c = '(' then depth + 1 else if c = ')' then depth - 1 else depth) s

/-- Groups are stripped on from the depth that the text in front ends with. -/
theorem stripGroups_append (depth : Nat) (s t : Text) :
    stripGroups depth (s ++ t) = stripGroups depth s ++ stripGroups (openGroups depth s) t := by
  induction s generalizing depth with
  | nil => simp [stripGroups, openGroups]
  | cons c s ih =>
    rw [List.cons_append, stripGroups.eq_def, stripGroups.eq_def depth (c :: s), openGroups]
    dsimp only
    by_cases hopen : c = '('
    · simp only [if_pos hopen, ih]
    · match depth with
      | 0 => by_cases hclose : c = ')' <;> simp [hopen, hclose, ih]
      | 1 => by_cases hclose : c = ')' <;> simp [hopen, hclose, ih]
      | depth + 2 => by_cases hclose : c = ')' <;> simp [hopen, hclose, ih]

/-- Open groups are counted on from those of the text in front. -/
theorem openGroups_append (depth : Nat) (s t : Text) :
    openGroups depth (s ++ t) = openGroups (openGroups depth s) t := by
  induction s generalizing depth with
  | nil => rfl
  | cons c s ih => exact ih _

/-- In a group, what has no parentheses is taken out. -/
theorem stripGroups_append_of_isPlain (depth : Nat) {a : Text} (h : IsPlain a) (s : Text) :
    stripGroups (depth + 1) (a ++ s) = stripGroups (depth + 1) s := by
  induction a with
  | nil => rfl
  | cons c a ih =>
    obtain ⟨⟨hopen, hclose⟩, ha⟩ := List.forall_mem_cons.1 h
    rw [List.cons_append, stripGroups.eq_def]
    cases depth <;> simpa [hopen, hclose] using ih ha

/-- Stripping groups keeps the first character, unless it opens one. -/
theorem head?_stripGroups {y : Text} (h : y.head? ≠ some '(') : (stripGroups 0 y).head? = y.head? := by
  cases y with
  | nil => rfl
  | cons c y =>
    have hc : c ≠ '(' := by simpa using h
    simp [stripGroups, hc]

/-- Behind all groups, the last character is not taken out. -/
theorem getLast?_stripGroups {x : Text} (h : openGroups 0 x = 0) :
    (stripGroups 0 x).getLast? = x.getLast? := by
  rcases List.eq_nil_or_concat x with rfl | ⟨front, c, rfl⟩
  · rfl
  · rw [List.concat_eq_append] at h ⊢
    rw [openGroups_append] at h
    rw [stripGroups_append]
    generalize openGroups 0 front = depth at h ⊢
    have hlast : stripGroups depth [c] = [c] := by
      simp only [openGroups] at h
      split_ifs at h with hopen hclose
      · match depth with
        | 0 | 1 => simp [stripGroups, hclose]
        | depth + 2 => omega
      · simp [stripGroups, h, hopen]
    rw [hlast, List.getLast?_concat, List.getLast?_concat]

/-- When groups are stripped, the same fields without arguments are left. -/
theorem findAll_plainField_widened {t t' : Text} (h : Widened t t') :
    findAll plainField (stripGroups 0 t') = findAll plainField (stripGroups 0 t) := by
  -- a separator in a group is stripped with it; any other keeps the matches on both sides apart
  cases h with
  | same => rfl
  | @inGroup front rest a b ha hb =>
    have hstrip {inside : Text} (hplain : IsPlain inside) :
        stripGroups 0 (front ++ '(' :: (inside ++ ')' :: rest)) =
          stripGroups 0 front ++ stripGroups (openGroups 0 front + 1) (')' :: rest) := by
      rw [stripGroups_append, ← stripGroups_append_of_isPlain _ hplain]
      rfl
    rw [hstrip (ha.append hb), hstrip (ha.append_separator hb)]
  | @apart x y h _ =>
    rw [stripGroups_append, stripGroups_append]
    cases hdepth : openGroups 0 x with
    | succ depth =>
      have hplain : IsPlain [separator] := List.forall_mem_singleton.2 (by decide)
      rw [← List.singleton_append, stripGroups_append_of_isPlain depth hplain]
    | zero =>
      have happart : Apart (stripGroups 0 x).getLast? (stripGroups 0 y).head? := by
        rw [getLast?_stripGroups hdepth, head?_stripGroups fun hopen => (h.mark '(' hopen).1 rfl]
        exact h
      have hpieces {s : Text} (h : Apart (stripGroups 0 x).getLast? s.head?) :
          pieces plainField (stripGroups 0 x ++ s) =
            pieces plainField (stripGroups 0 x) ++ pieces plainField s :=
        pieces_append_of_apart isForward_plainField advances_plainField fun u hne hu =>
          plainField_append_of_apart hne (h.of_suffix hu)
      have hseparator : plainField none (separator :: stripGroups 0 y) = none := by
        rw [plainField_eq, word?_eq_none (endsWord_cons (by decide) _)]
        rfl
      have hstrip : stripGroups 0 (separator :: y) = separator :: stripGroups 0 y := by
        simp [stripGroups, separator]
      unfold findAll
      rw [hstrip, hpieces happart, hpieces (s := separator :: _) happart.separator,
        pieces_cons_of_none isForward_plainField hseparator, List.filterMap_append,
        List.filterMap_append]
      rfl

/-! ## Fields and their arguments -/

/-- A directive without its arguments is quiet. -/
theorem isQuiet_directive (name : Text) : IsQuiet ('@' :: name ++ [separator]) := by
  refine ⟨by simp, ?_, ?_⟩
  · rintro d ⟨⟩
    decide
  · rw [List.getLast?_concat]
    rintro c ⟨⟩
    decide

/-- The parenthesis that takes the place of a field is quiet. -/
theorem isQuiet_field : IsQuiet [')'] := by
  refine ⟨by simp, ?_, ?_⟩ <;>
  · rintro c ⟨⟩
    decide

/-- A separator more leaves all fields as they are, or it is in the arguments of one of them. -/
theorem fields_widened {t t' : Text} (h : Widened t t') :
    fields t' = fields t ∨ ∃ (front rest : List RawField) (field : RawField) (a b : Text),
      fields t = front ++ { field with arguments := a ++ b } :: rest ∧
        fields t' = front ++ { field with arguments := a ++ separator :: b } :: rest := by
  have hshort : Widened (shorten t) (shorten t') :=
    widened_replaceAll isCall_directive isQuiet_directive (fun _ _ => rfl) h
  have hresidue := findAll_plainField_widened
    (widened_replaceAll isCall_fieldWithArguments (fun _ => isQuiet_field) (fun _ _ => rfl) hshort)
  have hfields (flat : Text) : fields flat = findAll fieldWithArguments (shorten flat) ++
      findAll plainField
        (stripGroups 0 (replaceAll fieldWithArguments (fun _ => [')']) (shorten flat))) := rfl
  rw [hfields, hfields, hresidue]
  rcases findAll_widened isCall_fieldWithArguments hshort with
    heq | ⟨front, rest, field, a, b, hfound, hfound'⟩
  · exact .inl (by rw [heq])
  · exact .inr ⟨front, rest ++ _, field, a, b, by rw [hfound, List.append_assoc]; rfl,
      by rw [hfound', List.append_assoc]; rfl⟩

/-- The end of a text, from the last separator on. -/
def itemEnd (s : Text) : Text := s.rtakeWhile (· ≠ separator)

/-- The start of a text, up to the first separator. -/
def itemStart (s : Text) : Text := s.takeWhile (· ≠ separator)

/-- Whether a separator between two texts cuts an argument in two. -/
def CutsArgument (a b : Text) : Prop :=
  itemEnd a ≠ [] ∧ itemStart b ≠ [] ∧ ':' ∈ itemEnd a ++ itemStart b

instance (a b : Text) : Decidable (CutsArgument a b) :=
  inferInstanceAs (Decidable (_ ∧ _ ∧ _))

/-- Text behind items continues the last of them only. -/
private theorem parts_itemEnd (a s : Text) :
    parts separator (a ++ s) =
      parts separator (a.rdropWhile (· ≠ separator)) ++ parts separator (itemEnd a ++ s) := by
  conv_lhs => rw [← List.rdropWhile_append_rtakeWhile (p := (· ≠ separator)) (l := a), List.append_assoc]
  by_cases hnil : a.rdropWhile (· ≠ separator) = []
  · rw [hnil]
    rfl
  · refine parts_append_of_getLast? ?_ _
    have hlast := List.rdropWhile_last_not (· ≠ separator) a hnil
    rw [List.getLast?_eq_some_getLast hnil]
    simpa using hlast

/-- Text in front of items continues the first of them only. -/
private theorem parts_itemStart (s b : Text) :
    parts separator (s ++ b) =
      parts separator (s ++ itemStart b) ++ parts separator (b.dropWhile (· ≠ separator)) := by
  conv_lhs => rw [← List.takeWhile_append_dropWhile (p := (· ≠ separator)) (l := b), ← List.append_assoc]
  refine parts_append_of_parted ?_
  cases hdrop : b.dropWhile (· ≠ separator) with
  | nil => exact .inl rfl
  | cons c rest =>
    have hc := List.head?_dropWhile_not (· ≠ separator) b
    rw [hdrop] at hc
    exact .inr (.inl (congrArg some (by simpa using hc)))

/-- Unless it cuts an argument in two, a separator more does not change the items with a colon. -/
theorem filter_parts_separator {a b : Text} (h : ¬CutsArgument a b) :
    (parts separator (a ++ separator :: b)).filter (':' ∈ ·) =
      (parts separator (a ++ b)).filter (':' ∈ ·) := by
  have hcut : (parts separator (itemEnd a) ++ parts separator (itemStart b)).filter (':' ∈ ·) =
      (parts separator (itemEnd a ++ itemStart b)).filter (':' ∈ ·) := by
    by_cases ha : itemEnd a = []
    · rw [ha]
      rfl
    by_cases hb : itemStart b = []
    · rw [hb, List.append_nil]
      simp [parts, splitOn, splitHead]
    · have hcolon : ':' ∉ itemEnd a ++ itemStart b := fun hmem => h ⟨ha, hb, hmem⟩
      have hnone {s : Text} (hs : ':' ∉ s) : (parts separator s).filter (':' ∈ ·) = [] := by
        refine List.filter_eq_nil_iff.2 fun part hpart hmem => hs ?_
        exact (mem_parts_iff (by decide)).1 ⟨part, hpart, by simpa using hmem⟩
      rw [List.mem_append, not_or] at hcolon
      rw [List.filter_append, hnone hcolon.1, hnone hcolon.2, hnone (by simpa using hcolon)]
      rfl
  have ha := parts_itemEnd a []
  rw [List.append_nil, List.append_nil] at ha
  have hb := parts_itemStart [] b
  rw [List.nil_append, List.nil_append] at hb
  rw [parts_append_separator, ha, hb, parts_itemEnd a b, parts_itemStart (itemEnd a) b]
  simp only [List.filter_append] at hcut ⊢
  rw [List.append_assoc, ← List.append_assoc (List.filter _ (parts separator (itemEnd a))), hcut]

/-- Unless it cuts an argument in two, a separator more between parentheses does not matter. -/
theorem readArguments_separator {a b : Text} (h : ¬CutsArgument a b) (path : Path) (action : Text) :
    readArguments path action (a ++ separator :: b) = readArguments path action (a ++ b) := by
  unfold readArguments items
  rw [filterMap_argument?, filter_mergeSort, filter_parts_separator h, ← filter_mergeSort,
    ← filterMap_argument?]

/-- Two arguments that grew together are cut apart; behind a separator there is nothing to cut. -/
example : CutsArgument "a:Int".toList "b:Int".toList ∧ ¬CutsArgument "a:Int#".toList "b:Int".toList := by
  decide

/-! ## Actions -/

/-- Whether two tokens grow together if they are all that stands at a place: a word with another word, or
with the sign of a directive. -/
def Meet (before after : Option Char) : Prop :=
  ∃ c ∈ before, ∃ d ∈ after, (isWord c ∨ c = '@') ∧ isWord d

/-- Whether a separator between two texts matters: two words stand there, in no group; or it cuts an
argument of a field in two. -/
def Matters (x y : Text) : Prop :=
  (Meet x.getLast? y.head? ∧ ¬InGroup x y) ∨
    ∃ (field : RawField) (a b : Text), { field with arguments := a ++ b } ∈ fields (x ++ y) ∧
      { field with arguments := a ++ separator :: b } ∈ fields (x ++ separator :: y) ∧
      CutsArgument a b

/-- Texts at a place that is not snug are apart, unless a word meets another. -/
theorem apart_of_isSnug {before after : Option Char} (h : isSnug before after = false)
    (hmeet : ¬Meet before after) : Apart before after := by
  obtain ⟨hbefore, hafter⟩ := Bool.or_eq_false_iff.1 h
  refine ⟨?_, ?_, ?_⟩
  · rintro rfl
    exact absurd hbefore (by decide)
  · rintro d hd
    rw [Option.mem_def.1 hd] at hafter
    simp [isMark] at hafter
    tauto
  · intro c hc d hd hword
    by_contra hnot
    refine hmeet ⟨c, hc, d, hd, ?_, hword⟩
    by_contra hneither
    simp only [not_or, Bool.not_eq_true] at hneither
    exact hnot hneither

/-- A separator more changes the actions of a flat text only where it matters. -/
theorem actions_separator {x y : Text} (hsnug : isSnug x.getLast? y.head? = false) (h : ¬Matters x y)
    (origin : Origin) : actions origin (x ++ separator :: y) = actions origin (x ++ y) := by
  obtain ⟨hmeet, hcuts⟩ := not_or.1 h
  have hwidened : Widened (x ++ y) (x ++ separator :: y) := by
    by_cases hgroup : InGroup x y
    · exact widened_of_inGroup hgroup
    · exact widened_of_apart (apart_of_isSnug hsnug fun h => hmeet ⟨h, hgroup⟩)
  unfold actions
  rcases fields_widened hwidened with heq | ⟨front, rest, field, a, b, hfields, hfields'⟩
  · rw [heq]
  · have hargs : ¬CutsArgument a b := fun h =>
      hcuts ⟨field, a, b, by simp [hfields], by simp [hfields'], h⟩
    rw [hfields, hfields']
    refine mapM_eq_of_forall₂ (List.rel_append ?_ (.cons ?_ ?_))
    · exact List.forall₂_same.2 fun _ _ => rfl
    · simp only [RawField.toAction, readArguments_separator hargs]
    · exact List.forall₂_same.2 fun _ _ => rfl

end Scaffold.Schema
