import Scaffold.Proofs.Schema.Patterns

/-!
# Calls in flat text

Directives and fields with arguments are *calls*: a name, a group, and at a field a response
(`isCall_directive`, `isCall_fieldWithArguments`). Scanning for calls stops at two kinds of places. What
stands on both sides of a place that nothing reaches over is scanned apart (`IsCall.pieces_append`); and
the inside of a group is part of one match, or of none (`IsCall.takesGroupOnce`).
-/

namespace Scaffold.Schema

open Text

/-! ## Places in a flat text -/

/-- Whether a text has no parentheses. -/
def IsPlain (s : Text) : Prop := ∀ c ∈ s, c ≠ '(' ∧ c ≠ ')'

/-- The end of a text without parentheses has none. -/
theorem IsPlain.of_suffix {s t : Text} (h : IsPlain t) (hs : s <:+ t) : IsPlain s :=
  fun c hc => h c (hs.mem hc)

/-- Whether the place between two texts is inside a group that holds no other group. -/
def InGroup (x y : Text) : Prop :=
  ∃ front inside inside' rest, x = front ++ '(' :: inside ∧ y = inside' ++ ')' :: rest ∧
    IsPlain inside ∧ IsPlain inside'

/-- A place inside a group stays inside it with more text in front. -/
theorem InGroup.of_suffix {u x y : Text} (hu : u <:+ x) (h : InGroup u y) : InGroup x y := by
  obtain ⟨front, rfl⟩ := hu
  obtain ⟨front', inside, inside', rest, rfl, rfl, hinside, hinside'⟩ := h
  exact ⟨front ++ front', inside, inside', rest, by simp, rfl, hinside, hinside'⟩

/-- Whether neither a word nor the name of a directive goes on from one character to the next, and no
group, type or mark of a type that must not be null does. -/
structure Apart (before after : Option Char) : Prop where
  colon : before ≠ some ':'
  mark : ∀ d ∈ after, d ≠ '(' ∧ d ≠ ':' ∧ d ≠ '!'
  word : ∀ c ∈ before, ∀ d ∈ after, isWord d → isWord c = false ∧ c ≠ '@'

/-- Whether two texts are apart depends on where they meet. -/
theorem Apart.of_suffix {u x y : Text} (hu : u <:+ x) (h : Apart x.getLast? y.head?) :
    Apart u.getLast? y.head? := by
  obtain ⟨front, rfl⟩ := hu
  rw [List.getLast?_append] at h
  cases hlast : u.getLast? with
  | none => exact ⟨nofun, h.mark, nofun⟩
  | some c => simpa [hlast] using h

/-- A separator keeps everything apart. -/
theorem Apart.separator {before after : Option Char} (h : Apart before after) :
    Apart before (some separator) := by
  refine ⟨h.colon, ?_, ?_⟩
  · rintro d ⟨⟩
    decide
  · rintro c - d ⟨⟩ hd
    exact absurd hd (by decide)

/-! ## Words, groups and responses that end before such a place -/

/-- A colon and the response behind it. -/
def answer? (s : Text) : Option (Text × Text) := (after? [':'] s).bind response?

section

variable {s y : Text}

/-- A word ends where the text does, if what follows stands apart. -/
theorem word?_append_of_apart (h : Apart s.getLast? y.head?) (hnil : s = [] → EndsWord y) :
    word? (s ++ y) = (word? s).map fun (w, rest) => (w, rest ++ y) := by
  by_cases hne : s = []
  · rw [hne, List.nil_append, word?_eq_none (hnil hne)]
    rfl
  by_cases hall : ∀ c ∈ s, isWord c
  · have hends : EndsWord y := by
      intro d hd
      by_contra hword
      obtain ⟨c, hc⟩ := Option.ne_none_iff_exists'.1 (mt List.getLast?_eq_none_iff.1 hne)
      have hlast := (h.word c hc d hd (by simpa using hword)).1
      rw [hall c (List.mem_of_getLast? hc)] at hlast
      exact Bool.noConfusion hlast
    have hself := Text.word?_append hne hall (s := []) (by simp)
    rw [List.append_nil] at hself
    rw [Text.word?_append hne hall hends, hself]
    rfl
  · push Not at hall
    obtain ⟨d, hd, hword⟩ := hall
    obtain ⟨front, rest, rfl⟩ := List.append_of_mem hd
    have hword : isWord d = false := by simpa using hword
    rw [List.append_assoc, List.cons_append, word?_append_cons hword, word?_append_cons hword,
      Option.map_map]
    cases word? front <;> simp

/-- A response ends where its word does, unless what follows is its mark. -/
private theorem response?_append_of_word? (hword : word? (s ++ y) =
      (word? s).map fun (w, rest) => (w, rest ++ y)) (hmark : y.head? ≠ some '!') :
    response? (s ++ y) = (response? s).map fun (response, rest) => (response, rest ++ y) := by
  unfold response?
  rw [hword]
  cases word? s with
  | none => rfl
  | some found =>
    obtain ⟨name, rest⟩ := found
    have hsplit : after? ['!'] (rest ++ y) = (after? ['!'] rest).map (· ++ y) :=
      after?_singleton_append fun _ => hmark
    simp only [Option.map_some, Option.bind_eq_bind, Option.bind_some, hsplit]
    cases after? ['!'] rest <;> rfl

/-- A response ends where the text does, if what follows stands apart. -/
theorem response?_append_of_apart (h : Apart s.getLast? y.head?) (hnil : s = [] → EndsWord y) :
    response? (s ++ y) = (response? s).map fun (response, rest) => (response, rest ++ y) :=
  response?_append_of_word? (word?_append_of_apart h hnil) fun hhead => (h.mark '!' hhead).2.2 rfl

/-- A group goes up to the next parenthesis, which has to close it. -/
theorem group?_cons (s : Text) :
    group? ('(' :: s) = (after? [')'] (s.dropWhile fun c => c ≠ '(' && c ≠ ')')).map fun rest =>
      (s.takeWhile fun c => c ≠ '(' && c ≠ ')', rest) := by
  unfold group?
  simp only [after?, if_true, Option.bind_eq_bind, Option.bind_some]
  cases after? [')'] (s.dropWhile fun c => c ≠ '(' && c ≠ ')') <;> rfl

/-- A group ends before a place that is inside no group, or it is none. -/
theorem group?_append_of_not_inGroup (h : ¬InGroup s y) (hhead : s = [] → y.head? ≠ some '(') :
    group? (s ++ y) = (group? s).map fun (inside, rest) => (inside, rest ++ y) := by
  cases s with
  | nil => rw [List.nil_append, group?_eq_none (hhead rfl), group?_eq_none (by simp), Option.map_none]
  | cons c s =>
    by_cases hc : c = '('
    · subst hc
      rw [List.cons_append, group?_cons, group?_cons]
      -- a group that is open at the end of `s` is not closed in `y`, or the place would be inside it
      by_cases hplain : ∀ c ∈ s, (c ≠ '(' && c ≠ ')') = true
      · rw [List.dropWhile_append_of_pos hplain, List.dropWhile_eq_nil_iff.2 hplain]
        have hclose : after? [')'] (y.dropWhile fun c => c ≠ '(' && c ≠ ')') = none := by
          by_contra hsome
          obtain ⟨rest, hrest⟩ := Option.ne_none_iff_exists'.1 hsome
          refine h ⟨[], s, y.takeWhile fun c => c ≠ '(' && c ≠ ')', rest, rfl, ?_, ?_, ?_⟩
          · conv_lhs => rw [← List.takeWhile_append_dropWhile (p := fun c => c ≠ '(' && c ≠ ')') (l := y)]
            rw [after?_eq_some hrest]
            rfl
          · exact fun c hc => by simpa using hplain c hc
          · exact fun c hc => by simpa using List.mem_takeWhile_imp hc
        rw [hclose]
        rfl
      · push Not at hplain
        obtain ⟨d, hd, hstop⟩ := hplain
        obtain ⟨front, rest, rfl⟩ := List.append_of_mem hd
        have hstop : (d ≠ '(' && d ≠ ')') = false := by simpa using hstop
        rw [List.append_assoc, List.cons_append, dropWhile_append_cons hstop, takeWhile_append_cons hstop,
          dropWhile_append_cons hstop, takeWhile_append_cons hstop, ← List.cons_append, ← List.append_assoc,
          after?_singleton_append fun hnil => absurd hnil (by simp)]
        cases after? [')'] ((front.dropWhile fun c => c ≠ '(' && c ≠ ')') ++ d :: rest) <;> rfl
    · rw [group?_eq_none (by simpa using hc), group?_eq_none (by simpa using hc), Option.map_none]

/-- No group begins at a closing parenthesis or in front of it. -/
theorem group?_eq_none_of_isPlain {inside : Text} (h : IsPlain inside) (rest : Text) :
    group? (inside ++ ')' :: rest) = none := by
  refine group?_eq_none fun hhead => ?_
  cases inside with
  | nil => cases hhead
  | cons c inside => exact (h c List.mem_cons_self).1 (Option.some.inj hhead)

/-- A group in front of another one ends before it. -/
theorem group?_append_cons (hne : s ≠ []) (t : Text) :
    group? (s ++ '(' :: t) = (group? s).map fun (inside, rest) => (inside, rest ++ '(' :: t) := by
  refine group?_append_of_not_inGroup ?_ fun hnil => absurd hnil hne
  rintro ⟨front, inside, inside', rest, -, hsplit, -, hplain⟩
  cases inside' with
  | nil => cases hsplit
  | cons c inside' =>
    obtain ⟨rfl, -⟩ := List.cons.inj hsplit
    exact (hplain _ List.mem_cons_self).1 rfl

/-- A response ends in front of a character that is neither of a word nor a mark. -/
theorem response?_append_cons {c : Char} (hword : isWord c = false) (hmark : c ≠ '!') (s t : Text) :
    response? (s ++ c :: t) = (response? s).map fun (response, rest) => (response, rest ++ c :: t) :=
  response?_append_of_word? (word?_append_cons hword s t) fun hhead => hmark (Option.some.inj hhead)

/-- An answer ends where the text does, if what follows stands apart. -/
theorem answer?_append_of_apart (h : Apart s.getLast? y.head?) :
    answer? (s ++ y) = (answer? s).map fun (response, rest) => (response, rest ++ y) := by
  have hcolon : after? [':'] (s ++ y) = (after? [':'] s).map (· ++ y) :=
    after?_singleton_append fun _ hhead => (h.mark ':' hhead).2.1 rfl
  unfold answer?
  rw [hcolon]
  cases hrest : after? [':'] s with
  | none => rfl
  | some rest =>
    obtain rfl : s = ':' :: rest := after?_eq_some hrest
    have hnil : rest = [] → EndsWord y := by
      rintro rfl
      exact absurd rfl h.colon
    exact response?_append_of_apart (h.of_suffix (List.suffix_cons ':' rest)) hnil

/-- An answer ends in front of a character that belongs to none. -/
theorem answer?_append_cons {c : Char} (hword : isWord c = false) (hmark : c ≠ '!') (hcolon : c ≠ ':')
    (s t : Text) :
    answer? (s ++ c :: t) = (answer? s).map fun (response, rest) => (response, rest ++ c :: t) := by
  unfold answer?
  rw [after?_append_cons (by simpa using hcolon)]
  cases after? [':'] s with
  | none => rfl
  | some rest => exact response?_append_cons hword hmark rest t

end

/-! ## Patterns of calls -/

/-- A pattern of names with groups: what it takes ends before a place that is kept apart, and the inside of
a group is part of one value at most. `fill value inside` is a value with the inside of its group. -/
structure IsCall {α : Type} (p : Pattern α) (fill : α → Text → α) : Prop where
  forward : p.IsForward
  advances : p.Advances
  starts : ∀ c s, isWord c = false → c ≠ '@' → p none (c :: s) = none
  plain : ∀ inside rest, IsPlain inside → p none (inside ++ ')' :: rest) = none
  group : ∀ u rest,
    (∀ inside, IsPlain inside → p none (u ++ '(' :: (inside ++ ')' :: rest)) =
      (p none u).map fun (value, left) => (value, left ++ '(' :: (inside ++ ')' :: rest))) ∨
    ∃ value left, left <:+ rest ∧ ∀ inside, IsPlain inside →
      p none (u ++ '(' :: (inside ++ ')' :: rest)) = some (fill value inside, left)
  apart : ∀ u y, u ≠ [] → Apart u.getLast? y.head? → ¬InGroup u y →
    p none (u ++ y) = (p none u).map fun (value, rest) => (value, rest ++ y)

/-- Behind a group stands the end of the text. -/
theorem suffix_of_group? {s inside rest : Text} (h : group? s = some (inside, rest)) : rest <:+ s := by
  obtain ⟨tail, rfl⟩ := List.head?_eq_some_iff.1 (group?_eq_some h)
  rw [group?_cons] at h
  obtain ⟨rest, hrest, heq⟩ := Option.map_eq_some_iff.1 h
  obtain ⟨-, rfl⟩ := Prod.mk.inj heq
  exact (suffix_of_after? hrest).trans ((List.dropWhile_suffix _).trans (List.suffix_cons _ _))

/-- Behind an answer stands the end of the text. -/
theorem suffix_of_answer? {s response rest : Text} (h : answer? s = some (response, rest)) :
    rest <:+ s := by
  obtain ⟨behind, hcolon, h⟩ := Option.bind_eq_some_iff.1 h
  obtain ⟨⟨name, behind'⟩, hword, h⟩ := Option.bind_eq_some_iff.1 h
  have hbehind := (suffix_of_word? hword).1.trans (suffix_of_after? hcolon)
  dsimp only at h
  cases hmark : after? ['!'] behind' with
  | none =>
    rw [hmark] at h
    obtain ⟨-, rfl⟩ := Prod.mk.inj (Option.some.inj h)
    exact hbehind
  | some left =>
    rw [hmark] at h
    obtain ⟨-, rfl⟩ := Prod.mk.inj (Option.some.inj h)
    exact (suffix_of_after? hmark).trans hbehind

/-! ## A name with a group behind it -/

/-- A name and the inside of the group right behind it. -/
def call? (s : Text) : Option ((Text × Text) × Text) :=
  (word? s).bind fun (name, s) => (group? s).map fun (inside, rest) => ((name, inside), rest)

/-- Behind a call stands the end of the text, and a call is not empty. -/
theorem suffix_of_call? {s rest : Text} {found : Text × Text} (h : call? s = some (found, rest)) :
    rest <:+ s ∧ rest.length < s.length := by
  obtain ⟨⟨name, behind⟩, hname, h⟩ := Option.bind_eq_some_iff.1 h
  obtain ⟨⟨inside, rest'⟩, hgroup, heq⟩ := Option.map_eq_some_iff.1 h
  obtain ⟨-, rfl⟩ := Prod.mk.inj heq
  have hword := suffix_of_word? hname
  have hrest := suffix_of_group? hgroup
  exact ⟨hrest.trans hword.1, Nat.lt_of_le_of_lt hrest.length_le hword.2⟩

/-- Without an opening parenthesis there is no call. -/
theorem call?_eq_none_of_isPlain {inside : Text} (h : IsPlain inside) (rest : Text) :
    call? (inside ++ ')' :: rest) = none := by
  unfold call?
  rw [word?_append_cons (by decide)]
  cases hname : word? inside with
  | none => rfl
  | some found =>
    have hbehind := h.of_suffix (suffix_of_word? hname).1
    simp only [Option.map_some, Option.bind_some, group?_eq_none_of_isPlain hbehind, Option.map_none]

/-- A group stands behind a name, or it has nothing to do with the calls in front of it. -/
theorem call?_append_group (u rest : Text) :
    (∀ inside, IsPlain inside → call? (u ++ '(' :: (inside ++ ')' :: rest)) =
      (call? u).map fun (found, left) => (found, left ++ '(' :: (inside ++ ')' :: rest))) ∨
    call? u = none ∧ ∃ name, ∀ inside, IsPlain inside →
      call? (u ++ '(' :: (inside ++ ')' :: rest)) = some ((name, inside), rest) := by
  have hname (inside : Text) := word?_append_cons (c := '(') (by decide) u (inside ++ ')' :: rest)
  simp only [call?, hname]
  cases word? u with
  | none => exact .inl fun _ _ => rfl
  | some found =>
    obtain ⟨name, behind⟩ := found
    simp only [Option.map_some, Option.bind_some]
    by_cases hbehind : behind = []
    · refine .inr ⟨?_, name, fun inside hplain => ?_⟩
      · rw [hbehind, group?_eq_none (by simp), Option.map_none]
      · rw [hbehind, List.nil_append, group?_append hplain, Option.map_some]
    · -- something stands between the name and the group
      refine .inl fun inside _ => ?_
      rw [group?_append_cons hbehind]
      cases group? behind <;> rfl

/-- A call ends where the text does, if what follows stands apart and inside no group. -/
theorem call?_append_of_apart {s y : Text} (h : Apart s.getLast? y.head?) (hnil : s = [] → EndsWord y)
    (hgroup : ¬InGroup s y) :
    call? (s ++ y) = (call? s).map fun (found, rest) => (found, rest ++ y) := by
  unfold call?
  rw [word?_append_of_apart h hnil]
  cases hname : word? s with
  | none => rfl
  | some found =>
    obtain ⟨name, behind⟩ := found
    have hbehind := (suffix_of_word? hname).1
    have hsplit : group? (behind ++ y) = (group? behind).map fun (inside, rest) => (inside, rest ++ y) :=
      group?_append_of_not_inGroup (fun hin => hgroup (hin.of_suffix hbehind))
        fun _ hhead => (h.mark '(' hhead).1 rfl
    simp only [Option.map_some, Option.bind_some, hsplit]
    cases group? behind <;> rfl

/-! ## Directives and fields -/

/-- A directive is a call behind `@`. -/
theorem directive_eq (s : Text) : directive none s =
    (after? ['@'] s).bind fun s => (call? s).map fun (found, rest) => (found.1, rest) := by
  simp only [directive, call?, Option.bind_eq_bind, Option.map_eq_bind, Option.bind_assoc]
  rfl

/-- A field with arguments is a call and its answer. -/
theorem fieldWithArguments_eq (s : Text) : fieldWithArguments none s =
    (call? s).bind fun (found, s) =>
      (answer? s).map fun (response, rest) => (⟨found.1, found.2, response⟩, rest) := by
  simp only [fieldWithArguments, call?, answer?, Option.bind_eq_bind, Option.map_eq_bind,
    Option.bind_assoc]
  rfl

/-- A field without arguments is a name and its answer. -/
theorem plainField_eq (s : Text) : plainField none s =
    (word? s).bind fun (name, s) =>
      (answer? s).map fun (response, rest) => (⟨name, [], response⟩, rest) := by
  simp only [plainField, answer?, Option.bind_eq_bind, Option.map_eq_bind, Option.bind_assoc]
  rfl

/-- The name of a directive does not depend on the inside of its group. -/
theorem isCall_directive : IsCall directive fun name _ => name where
  forward := isForward_directive
  advances s name rest h := by
    rw [directive_eq] at h
    obtain ⟨s', hat, h⟩ := Option.bind_eq_some_iff.1 h
    obtain ⟨⟨found, rest'⟩, hcall, heq⟩ := Option.map_eq_some_iff.1 h
    obtain ⟨-, rfl⟩ := Prod.mk.inj heq
    have hsuffix := suffix_of_after? hat
    have hrest := suffix_of_call? hcall
    exact ⟨hrest.1.trans hsuffix, Nat.lt_of_lt_of_le hrest.2 hsuffix.length_le⟩
  starts c s _ hat := directive_eq_none hat s
  plain inside rest hplain := by
    rw [directive_eq, after?_append_cons (by decide)]
    cases hat : after? ['@'] inside with
    | none => rfl
    | some inside' =>
      have hinside' := hplain.of_suffix (suffix_of_after? hat)
      simp only [Option.map_some, Option.bind_some, call?_eq_none_of_isPlain hinside', Option.map_none]
  group u rest := by
    have hat (inside : Text) := after?_append_cons (c := '(') (p := ['@']) (by decide) u
      (inside ++ ')' :: rest)
    simp only [directive_eq, hat]
    cases after? ['@'] u with
    | none => exact .inl fun _ _ => rfl
    | some u' =>
      simp only [Option.map_some, Option.bind_some]
      rcases call?_append_group u' rest with hpass | ⟨-, name, htakes⟩
      · refine .inl fun inside hplain => ?_
        rw [hpass inside hplain]
        cases call? u' <;> rfl
      · -- the group belongs to the directive
        refine .inr ⟨name, rest, List.suffix_rfl, fun inside hplain => ?_⟩
        rw [htakes inside hplain, Option.map_some]
  apart u y hne h hgroup := by
    rw [directive_eq, directive_eq, after?_singleton_append fun hnil => absurd hnil hne]
    cases hat : after? ['@'] u with
    | none => rfl
    | some u' =>
      obtain rfl : u = '@' :: u' := after?_eq_some hat
      have hnil : u' = [] → EndsWord y := by
        rintro rfl d hd
        by_contra hword
        exact (h.word '@' rfl d hd (by simpa using hword)).2 rfl
      have hsuffix := List.suffix_cons '@' u'
      have hcall := call?_append_of_apart (h.of_suffix hsuffix) hnil fun hin =>
        hgroup (hin.of_suffix hsuffix)
      simp only [Option.map_some, Option.bind_some, hcall]
      cases call? u' <;> rfl

/-- The inside of its group is what the arguments of a field are read from. -/
theorem isCall_fieldWithArguments :
    IsCall fieldWithArguments fun field inside => { field with arguments := inside } where
  forward := isForward_fieldWithArguments
  advances s field rest h := by
    rw [fieldWithArguments_eq] at h
    obtain ⟨⟨found, behind⟩, hcall, h⟩ := Option.bind_eq_some_iff.1 h
    obtain ⟨⟨response, rest'⟩, hanswer, heq⟩ := Option.map_eq_some_iff.1 h
    obtain ⟨-, rfl⟩ := Prod.mk.inj heq
    have hbehind := suffix_of_call? hcall
    have hrest := suffix_of_answer? hanswer
    exact ⟨hrest.trans hbehind.1, Nat.lt_of_le_of_lt hrest.length_le hbehind.2⟩
  starts c s hword _ := by
    rw [fieldWithArguments_eq, call?, word?_eq_none (endsWord_cons hword s)]
    rfl
  plain inside rest hplain := by
    rw [fieldWithArguments_eq, call?_eq_none_of_isPlain hplain, Option.bind_none]
  group u rest := by
    simp only [fieldWithArguments_eq]
    rcases call?_append_group u rest with hpass | ⟨hnone, name, htakes⟩
    · refine .inl fun inside hplain => ?_
      rw [hpass inside hplain]
      cases call? u with
      | none => rfl
      | some found =>
        simp only [Option.map_some, Option.bind_some,
          answer?_append_cons (show isWord '(' = false by decide) (by decide) (by decide)]
        cases answer? found.2 <;> rfl
    · -- the group belongs to the name, and it is taken if a response follows it
      cases hanswer : answer? rest with
      | none =>
        refine .inl fun inside hplain => ?_
        simp only [htakes inside hplain, hnone, Option.bind_some, Option.bind_none, hanswer,
          Option.map_none]
      | some found =>
        obtain ⟨response, left⟩ := found
        refine .inr ⟨⟨name, [], response⟩, left, suffix_of_answer? hanswer, fun inside hplain => ?_⟩
        simp only [htakes inside hplain, Option.bind_some, hanswer, Option.map_some]
  apart u y hne h hgroup := by
    rw [fieldWithArguments_eq, fieldWithArguments_eq,
      call?_append_of_apart h (fun hnil => absurd hnil hne) hgroup]
    cases hcall : call? u with
    | none => rfl
    | some found =>
      have hbehind := (suffix_of_call? hcall).1
      simp only [Option.map_some, Option.bind_some, answer?_append_of_apart (h.of_suffix hbehind)]
      cases answer? found.2 <;> rfl

/-- A field without arguments takes at least its name. -/
theorem advances_plainField : plainField.Advances := by
  intro s field rest h
  rw [plainField_eq] at h
  obtain ⟨⟨name, behind⟩, hname, h⟩ := Option.bind_eq_some_iff.1 h
  obtain ⟨⟨response, rest'⟩, hanswer, heq⟩ := Option.map_eq_some_iff.1 h
  obtain ⟨rfl, rfl⟩ := Prod.mk.inj heq
  have hword := suffix_of_word? hname
  have hrest := suffix_of_answer? hanswer
  exact ⟨hrest.trans hword.1, Nat.lt_of_le_of_lt hrest.length_le hword.2⟩

/-- A field without arguments ends where the text does, if what follows stands apart. -/
theorem plainField_append_of_apart {u y : Text} (hne : u ≠ []) (h : Apart u.getLast? y.head?) :
    plainField none (u ++ y) = (plainField none u).map fun (field, rest) => (field, rest ++ y) := by
  rw [plainField_eq, plainField_eq, word?_append_of_apart h fun hnil => absurd hnil hne]
  cases hname : word? u with
  | none => rfl
  | some found =>
    have hbehind := (suffix_of_word? hname).1
    simp only [Option.map_some, Option.bind_some, answer?_append_of_apart (h.of_suffix hbehind)]
    cases answer? found.2 <;> rfl

/-! ## Scanning for calls -/

/-- A separator inside a group or not, the place in front of it is the same. -/
theorem inGroup_separator {x y : Text} (h : InGroup x (separator :: y)) : InGroup x y := by
  obtain ⟨front, inside, inside', rest, hx, hy, hinside, hinside'⟩ := h
  cases inside' with
  | nil => exact absurd (List.cons.inj hy).1 (by decide)
  | cons c inside' =>
    exact ⟨front, inside, inside', rest, hx, (List.cons.inj hy).2, hinside,
      hinside'.of_suffix (List.suffix_cons c inside')⟩

section

variable {α : Type} {p : Pattern α} {fill : α → Text → α}

/-- Both sides of a place that is kept apart are scanned apart, if it is in no group. -/
theorem IsCall.pieces_append (hp : IsCall p fill) {x y : Text} (h : Apart x.getLast? y.head?)
    (hgroup : ¬InGroup x y) : pieces p (x ++ y) = pieces p x ++ pieces p y :=
  pieces_append_of_apart hp.forward hp.advances fun u hne hu =>
    hp.apart u y hne (h.of_suffix hu) fun hin => hgroup (hin.of_suffix hu)

/-- No call begins at a separator. -/
theorem IsCall.pieces_separator (hp : IsCall p fill) (s : Text) :
    pieces p (separator :: s) = .loose separator :: pieces p s :=
  pieces_cons_of_none hp.forward (hp.starts separator s (by decide) (by decide))

/-- No call begins inside a group. -/
theorem IsCall.refuses (hp : IsCall p fill) {inside : Text} (h : IsPlain inside) (rest : Text) :
    p.Refuses ('(' :: inside ++ [')']) rest := by
  refine ⟨hp.starts '(' _ (by decide) (by decide), ?_⟩
  induction inside with
  | nil => exact ⟨hp.plain [] rest h, trivial⟩
  | cons c inside ih =>
    have hplain := hp.plain (c :: inside) rest h
    rw [List.cons_append] at hplain
    exact ⟨by simpa using hplain, ih (h.of_suffix (List.suffix_cons c inside))⟩

/-- Whether a group passes in a scan, or is part of one match with its inside in the value. The scan goes
over a text with the inside of the group left open. -/
def TakesGroupOnce (p : Pattern α) (fill : α → Text → α) (rest : Text)
    (scan : Text → List (Piece α)) : Prop :=
  (∃ ps, ∀ inside, IsPlain inside →
    scan inside = ps ++ (('(' :: inside ++ [')']).map .loose ++ pieces p rest)) ∨
  ∃ ps value left, ∃ taken : Text → Text, ∀ inside, IsPlain inside →
    scan inside = ps ++ .found (fill value inside) (taken inside) :: pieces p left

/-- A piece in front of the others does not take the group once more. -/
theorem TakesGroupOnce.cons {rest : Text} {scan scan' : Text → List (Piece α)}
    (h : TakesGroupOnce p fill rest scan) (piece : Piece α)
    (heq : ∀ inside, IsPlain inside → scan' inside = piece :: scan inside) :
    TakesGroupOnce p fill rest scan' := by
  rcases h with ⟨ps, hps⟩ | ⟨ps, value, left, taken, hps⟩
  · exact .inl ⟨piece :: ps, fun inside hplain => by rw [heq inside hplain, hps inside hplain]; rfl⟩
  · exact .inr ⟨piece :: ps, value, left, taken, fun inside hplain => by
      rw [heq inside hplain, hps inside hplain]; rfl⟩

/-- A scan takes a group with one call at most, whatever stands inside the group. -/
theorem IsCall.takesGroupOnce (hp : IsCall p fill) (front rest : Text) :
    TakesGroupOnce p fill rest fun inside => pieces p (front ++ '(' :: (inside ++ ')' :: rest)) := by
  -- on the length of what stands in front of the group, which each match makes shorter
  induction hlen : front.length using Nat.strong_induction_on generalizing front with
  | h n ih =>
  subst hlen
  cases front with
  | nil =>
    refine .inl ⟨[], fun inside hplain => ?_⟩
    have hpass := pieces_append_of_refuses hp.forward (hp.refuses hplain rest)
    simpa using hpass
  | cons c front =>
    rcases hp.group (c :: front) rest with hpass | ⟨value, left, ⟨middle, rfl⟩, htakes⟩
    · cases hfound : p none (c :: front) with
      | none =>
        simp only [hfound, Option.map_none, List.cons_append] at hpass
        exact (ih front.length (by simp) front rfl).cons (.loose c) fun inside hplain =>
          pieces_cons_of_none hp.forward (hpass inside hplain)
      | some found =>
        obtain ⟨value, behind⟩ := found
        obtain ⟨taken, hsplit, hne, -⟩ := hp.advances.exists_takes hfound
        refine (ih behind.length (hp.advances _ _ _ hfound).2 behind rfl).cons (.found value taken)
          fun inside hplain => ?_
        have htakes : p.Takes taken (behind ++ '(' :: (inside ++ ')' :: rest)) value := by
          refine ⟨hne, ?_⟩
          rw [← List.append_assoc, ← hsplit, hpass inside hplain, hfound]
          rfl
        rw [hsplit, List.append_assoc, pieces_append_of_takes hp.forward htakes]
    · -- the match reaches over the group
      refine .inr ⟨[], value, left, fun inside => c :: front ++ '(' :: (inside ++ ')' :: middle),
        fun inside hplain => ?_⟩
      have hsplit : c :: front ++ '(' :: (inside ++ ')' :: (middle ++ left)) =
          (c :: front ++ '(' :: (inside ++ ')' :: middle)) ++ left := by simp
      have hfound := htakes inside hplain
      dsimp only
      rw [hsplit] at hfound ⊢
      exact pieces_append_of_takes hp.forward ⟨by simp, hfound⟩

end

end Scaffold.Schema
