import Scaffold.Proofs.Schema.Annotation

/-!
# What the patterns of fields take and refuse

A directive with an argument and both kinds of fields are taken as they are spelled in flat text
(`directive_takes`, `fieldWithArguments_takes`, `plainField_takes`). Each pattern needs its mark behind a
word, so that it refuses wherever the mark is missing (`refuses_of_mark`).
-/

namespace Scaffold.Schema

open Text

/-! ## Words, groups and responses -/

/-- A word that is found stands in front of the rest. -/
theorem word?_eq_some {s w rest : Text} (h : word? s = some (w, rest)) :
    s = w ++ rest ∧ ∀ c ∈ w, isWord c := by
  unfold word? at h
  split at h
  · cases h
  · obtain ⟨rfl, rfl⟩ := Prod.mk.inj (Option.some.inj h)
    exact ⟨List.takeWhile_append_dropWhile.symm, fun c hc => List.mem_takeWhile_imp hc⟩

/-- A text that cannot continue a word. -/
def EndsWord (s : Text) : Prop := ∀ c ∈ s.head?, isWord c = false

theorem endsWord_cons {c : Char} (h : isWord c = false) (s : Text) : EndsWord (c :: s) := by
  rintro d ⟨⟩
  exact h

/-- An identifier is found as a word, if what follows ends it. -/
theorem IsIdentifier.word?_append {w s : Text} (hw : IsIdentifier w) (hs : EndsWord s) :
    word? (w ++ s) = some (w, s) :=
  Text.word?_append hw.ne_nil hw.isWord hs

/-- Where no word can go on, none begins. -/
theorem word?_eq_none {s : Text} (h : EndsWord s) : word? s = none := by
  cases s with
  | nil => rfl
  | cons c s => simp [word?, h c rfl]

/-- Text without parentheses is found as a group between two of them. -/
theorem group?_append {inside : Text} (h : ∀ c ∈ inside, c ≠ '(' ∧ c ≠ ')') (s : Text) :
    group? ('(' :: (inside ++ ')' :: s)) = some (inside, s) := by
  have hchars : ∀ c ∈ inside, (c ≠ '(' && c ≠ ')') = true := fun c hc => by simpa using h c hc
  have hafter : after? ['('] ('(' :: (inside ++ ')' :: s)) = some (inside ++ ')' :: s) :=
    after?_append ['('] _
  have hclose : after? [')'] (')' :: s) = some s := after?_append [')'] s
  unfold group?
  rw [hafter]
  simp only [Option.bind_eq_bind, Option.bind_some]
  rw [List.takeWhile_append_of_pos hchars, List.dropWhile_append_of_pos hchars]
  simp [hclose]

/-- A group that is found stands between parentheses. -/
theorem eq_of_group? {s inside rest : Text} (h : group? s = some (inside, rest)) :
    s = '(' :: (inside ++ ')' :: rest) := by
  obtain ⟨tail, htail, h⟩ := Option.bind_eq_some_iff.1 h
  obtain ⟨rest', hclose, h⟩ := Option.bind_eq_some_iff.1 h
  obtain ⟨rfl, rfl⟩ := Prod.mk.inj (Option.some.inj h)
  have hsplit := List.takeWhile_append_dropWhile (p := fun c => c ≠ '(' && c ≠ ')') (l := tail)
  rw [after?_eq_some hclose] at hsplit
  rw [after?_eq_some htail]
  exact congrArg ('(' :: ·) hsplit.symm

/-- A group begins with a parenthesis. -/
theorem group?_eq_some {s inside rest : Text} (h : group? s = some (inside, rest)) :
    s.head? = some '(' := by
  rw [eq_of_group? h]
  rfl

/-- A group begins with a parenthesis. -/
theorem group?_eq_none {s : Text} (h : s.head? ≠ some '(') : group? s = none := by
  by_contra hsome
  obtain ⟨⟨inside, rest⟩, hgroup⟩ := Option.ne_none_iff_exists'.1 hsome
  exact h (group?_eq_some hgroup)

/-- A response as it stands in flat text. -/
def responseToken (name : Text) (required : Bool) : Text := name ++ TypeRef.mark required

/-- A response is found with its mark, or up to what ends the word. -/
theorem response?_append {name s : Text} (hname : IsIdentifier name) (required : Bool)
    (hs : required = false → EndsWord s ∧ s.head? ≠ some '!') :
    response? (responseToken name required ++ s) = some (responseToken name required, s) := by
  cases required with
  | true =>
    have hword : word? (name ++ '!' :: s) = some (name, '!' :: s) :=
      hname.word?_append (endsWord_cons (by decide) s)
    have hafter : after? ['!'] ('!' :: s) = some s := after?_append ['!'] s
    simp [responseToken, TypeRef.mark, response?, hword, hafter]
  | false =>
    obtain ⟨hword, hmark⟩ := hs rfl
    have hafter : after? ['!'] s = none := by
      cases s with
      | nil => rfl
      | cons c s =>
        have hc : '!' ≠ c := fun h => hmark (by rw [← h]; rfl)
        simp [after?, hc]
    simp [responseToken, TypeRef.mark, response?, hname.word?_append hword, hafter]

/-! ## Patterns that begin with a word -/

/-- Whether no word goes on from a text to what follows it: there is nothing more, or the text ends with
a character that belongs to no word. -/
def IsCut (t s : Text) : Prop := s = [] ∨ ∃ c, t.getLast? = some c ∧ isWord c = false

/-- A pattern whose words are followed by a mark refuses where the mark does not stand. -/
theorem refuses_of_mark {α : Type} {p : Pattern α} {mark : Char}
    (hp : ∀ s, p none s ≠ none → ∃ w rest, word? s = some (w, mark :: rest)) {t s : Text}
    (ht : mark ∉ t) (hcut : IsCut t s) : p.Refuses t s := by
  induction t with
  | nil => exact p.refuses_nil s
  | cons c t ih =>
    refine ⟨?_, ?_⟩
    · -- a match has the mark behind its first word, and the text ends before the mark
      by_contra hsome
      obtain ⟨w, rest, hword⟩ := hp _ hsome
      obtain ⟨heq, hw⟩ := word?_eq_some hword
      rw [← List.cons_append] at heq
      rcases hcut with rfl | ⟨d, hlast, hd⟩
      · exact ht (by rw [← List.append_nil (c :: t), heq]; simp)
      rcases List.append_eq_append_iff.1 heq with ⟨x, rfl, -⟩ | ⟨x, ht', hx⟩
      · -- the word goes as far as the last character of `t`
        have hword := hw d (List.mem_append_left _ (List.mem_of_getLast? hlast))
        rw [hd] at hword
        exact Bool.noConfusion hword
      · cases x with
        | nil =>
          rw [List.append_nil] at ht'
          have hword := hw d (ht' ▸ List.mem_of_getLast? hlast)
          rw [hd] at hword
          exact Bool.noConfusion hword
        | cons e x =>
          obtain rfl : mark = e := (List.cons.inj hx).1
          exact ht (by simp [ht'])
    · cases t with
      | nil => exact p.refuses_nil s
      | cons d t =>
        refine ih (fun h => ht (List.mem_cons_of_mem c h)) ?_
        rwa [IsCut, List.getLast?_cons_cons] at hcut

theorem isForward_directive : directive.IsForward := fun _ _ => rfl

theorem isForward_fieldWithArguments : fieldWithArguments.IsForward := fun _ _ => rfl

theorem isForward_plainField : plainField.IsForward := fun _ _ => rfl

/-- Without an opening parenthesis there is no field with arguments. -/
theorem fieldWithArguments_refuses {t s : Text} (ht : '(' ∉ t) (hcut : IsCut t s) :
    fieldWithArguments.Refuses t s := by
  refine refuses_of_mark (fun s hsome => ?_) ht hcut
  obtain ⟨value, hvalue⟩ := Option.ne_none_iff_exists'.1 hsome
  obtain ⟨⟨w, rest⟩, hword, hrest⟩ := Option.bind_eq_some_iff.1 hvalue
  obtain ⟨⟨inside, behind⟩, hgroup, -⟩ := Option.bind_eq_some_iff.1 hrest
  obtain ⟨tail, rfl⟩ := List.head?_eq_some_iff.1 (group?_eq_some hgroup)
  exact ⟨w, tail, hword⟩

/-- Without a colon there is no field. -/
theorem plainField_refuses {t s : Text} (ht : ':' ∉ t) (hcut : IsCut t s) :
    plainField.Refuses t s := by
  refine refuses_of_mark (fun s hsome => ?_) ht hcut
  obtain ⟨value, hvalue⟩ := Option.ne_none_iff_exists'.1 hsome
  obtain ⟨⟨w, rest⟩, hword, hrest⟩ := Option.bind_eq_some_iff.1 hvalue
  obtain ⟨tail, hafter, -⟩ := Option.bind_eq_some_iff.1 hrest
  exact ⟨w, tail, by rw [hword, after?_eq_some hafter]; rfl⟩

/-! ## Fields -/

/-- Whether the texts of a field are words, and its arguments hold no group. -/
structure RawField.IsProper (field : RawField) : Prop where
  name : IsIdentifier field.name
  arguments : ∀ c ∈ field.arguments, c ≠ '(' ∧ c ≠ ')'
  response : ∃ response required, IsIdentifier response ∧
    field.response = responseToken response required

/-- Whether a text can stand behind a response. -/
structure EndsResponse (s : Text) : Prop where
  word : EndsWord s
  mark : s.head? ≠ some '!'

/-- A field with arguments is found up to the end of its response. -/
theorem fieldWithArguments_takes {field : RawField} (h : field.IsProper) {s : Text}
    (hs : EndsResponse s) :
    fieldWithArguments.Takes
      (field.name ++ '(' :: field.arguments ++ ')' :: ':' :: field.response) s field := by
  obtain ⟨name, arguments, response⟩ := field
  obtain ⟨hname, harguments, response, required, hresponse, rfl⟩ := h
  refine ⟨by simp, ?_⟩
  have hword := hname.word?_append (endsWord_cons (c := '(') (by decide)
    (arguments ++ ')' :: ':' :: (responseToken response required ++ s)))
  have hgroup := group?_append harguments (':' :: (responseToken response required ++ s))
  have hafter : after? [':'] (':' :: (responseToken response required ++ s)) =
      some (responseToken response required ++ s) := after?_append [':'] _
  have hresponse' := response?_append hresponse required fun _ => ⟨hs.word, hs.mark⟩
  simp only [List.append_assoc, List.cons_append, fieldWithArguments, Option.bind_eq_bind, hword,
    Option.bind_some, hgroup, hafter, hresponse']

/-- A field without arguments is found up to the end of its response. -/
theorem plainField_takes {field : RawField} (h : field.IsProper) (hplain : field.arguments = [])
    {s : Text} (hs : EndsResponse s) :
    plainField.Takes (field.name ++ ':' :: field.response) s field := by
  obtain ⟨name, arguments, response⟩ := field
  obtain ⟨hname, -, response, required, hresponse, rfl⟩ := h
  obtain rfl : arguments = [] := hplain
  refine ⟨by simp, ?_⟩
  have hword := hname.word?_append (endsWord_cons (c := ':') (by decide)
    (responseToken response required ++ s))
  have hafter : after? [':'] (':' :: (responseToken response required ++ s)) =
      some (responseToken response required ++ s) := after?_append [':'] _
  have hresponse' := response?_append hresponse required fun _ => ⟨hs.word, hs.mark⟩
  simp only [List.append_assoc, List.cons_append, plainField, Option.bind_eq_bind, hword,
    Option.bind_some, hafter, hresponse']

/-! ## Directives -/

/-- A flat text in which directives have lost their arguments. -/
def shorten (flat : Text) : Text :=
  replaceAll directive (fun name => '@' :: name ++ [separator]) flat

/-- A directive in such a text. -/
def Directive.brief (d : Directive) : Text :=
  '@' :: d.name ++ d.argument.elim [] fun _ => [separator]

/-- A directive begins with `@`. -/
theorem directive_eq_none {c : Char} (h : c ≠ '@') (s : Text) : directive none (c :: s) = none := by
  simp [directive, after?, h.symm]

/-- Text without `@` has no directives to shorten. -/
theorem shorten_append {t : Text} (h : '@' ∉ t) (s : Text) : shorten (t ++ s) = t ++ shorten s :=
  replaceAll_append_of_refuses isForward_directive _
    (Pattern.refuses_of_forall (fun _ hc => directive_eq_none fun heq => h (heq ▸ hc)) s)

/-- A name without a group behind it is no directive with an argument. -/
theorem directive_refuses {name s : Text} (h : Directive.IsProper ⟨name, none⟩) (hword : EndsWord s)
    (hmark : s.head? ≠ some '(') : directive.Refuses ('@' :: name) s := by
  have hafter : after? ['@'] ('@' :: (name ++ s)) = some (name ++ s) := after?_append ['@'] _
  have hat : directive none ('@' :: (name ++ s)) = none := by
    simp [directive, hafter, h.name.word?_append hword, group?_eq_none hmark]
  have hname : '@' ∉ name := h.name.isLiteral.notMem (by decide)
  exact ⟨hat, Pattern.refuses_of_forall (fun _ hc => directive_eq_none fun heq => hname (heq ▸ hc)) s⟩

/-- A directive with an argument is taken as its name. -/
theorem directive_takes {name key value : Text} (h : Directive.IsProper ⟨name, some (key, value)⟩)
    (s : Text) : directive.Takes (Directive.text ⟨name, some (key, value)⟩) s name := by
  obtain ⟨hkey, hvalue⟩ := h.argument key value rfl
  -- the argument has no parenthesis of its own
  have hinside : ∀ c ∈ key ++ ':' :: value, c ≠ '(' ∧ c ≠ ')' := by
    intro c hc
    have hnot {d : Char} (hd : (isAscii d && (isWord d || d = '-' || d = '+' || d = '.')) = false)
        (hcolon : d ≠ ':') : c ≠ d := by
      rintro rfl
      rcases List.mem_append.1 hc with hc | hc
      · exact hkey.isLiteral.notMem hd hc
      · rcases List.mem_cons.1 hc with hc | hc
        · exact hcolon hc
        · exact hvalue.notMem hd hc
    exact ⟨hnot (by decide) (by decide), hnot (by decide) (by decide)⟩
  have hafter (s : Text) : after? ['@'] ('@' :: s) = some s := after?_append ['@'] s
  have hword := h.name.word?_append (endsWord_cons (c := '(') (by decide)
    (key ++ ':' :: value ++ ')' :: s))
  have htext : Directive.text ⟨name, some (key, value)⟩ ++ s =
      '@' :: (name ++ '(' :: (key ++ ':' :: value ++ ')' :: s)) := by
    simp [Directive.text]
  refine ⟨by simp [Directive.text], ?_⟩
  rw [htext]
  simp only [directive, hafter, Option.bind_eq_bind, Option.bind_some, hword, group?_append hinside]

/-- A directive loses its argument; one without an argument stays if no group stands behind it. -/
theorem shorten_directive {d : Directive} (h : d.IsProper) {s : Text}
    (hs : d.argument = none → EndsWord s ∧ s.head? ≠ some '(') :
    shorten (d.text ++ s) = d.brief ++ shorten s := by
  obtain ⟨name, argument⟩ := d
  cases argument with
  | none =>
    obtain ⟨hword, hmark⟩ := hs rfl
    have hreplace := replaceAll_append_of_refuses isForward_directive
      (fun name => '@' :: name ++ [separator]) (directive_refuses h hword hmark)
    simpa [shorten, Directive.text, Directive.brief] using hreplace
  | some argument =>
    have hreplace := replaceAll_append_of_takes isForward_directive
      (fun name => '@' :: name ++ [separator]) (directive_takes h s)
    simpa [shorten, Directive.brief] using hreplace

/-! ## Flat text without arguments of directives -/

/-- A part in a text in which directives have lost their arguments. -/
def Part.brief : Part → Part
  | .directive d => .token d.brief
  | part => part

/-- Whether a word ends in front of some parts, and no group begins there. -/
def Breaks (ps : List Part) : Prop :=
  ∀ c flat, isWord c → Flattens (some c) none ps flat → EndsWord flat ∧ flat.head? ≠ some '('

/-- Whether directives can be told from their surroundings. -/
def Tidy : List Part → Prop
  | [] => True
  | .token t :: ps => '@' ∉ t ∧ Tidy ps
  | .directive d :: ps => d.IsProper ∧ Breaks ps ∧ Tidy ps
  | _ :: ps => Tidy ps

/-- The end of the text ends a directive. -/
theorem breaks_nil : Breaks [] := by
  rintro c flat - rfl
  exact ⟨by simp [EndsWord], by simp⟩

/-- A separator ends a word and opens no group. -/
private theorem ends_separator (rest : Text) :
    EndsWord (separator :: rest) ∧ (separator :: rest).head? ≠ some '(' :=
  ⟨endsWord_cons (by decide) rest, by simp [separator]⟩

/-- White space at the end of the text, or none, ends a directive. -/
theorem breaks_slot_nil : Breaks [.slot] := by
  rintro c flat - (rfl | ⟨-, rest, rfl, -⟩)
  · exact ⟨by simp [EndsWord], by simp⟩
  · exact ends_separator rest

/-- What may stand behind a word without white space ends it. -/
theorem breaks_slot {c : Char} (hword : isWord c = false) (hopen : c ≠ '(') (t : Text)
    (ps : List Part) : Breaks (.slot :: .token (c :: t) :: ps) := by
  rintro w flat - (⟨rest, rfl, -⟩ | ⟨-, rest, rfl, -⟩)
  · exact ⟨endsWord_cons hword _, by simpa using hopen⟩
  · exact ends_separator rest

/-- A directive ends the directive in front of it. -/
theorem breaks_slot_directive (d : Directive) (ps : List Part) :
    Breaks (.slot :: .directive d :: ps) := by
  rintro w flat - (⟨rest, rfl, -⟩ | ⟨-, rest, rfl, -⟩)
  · exact ⟨endsWord_cons (c := '@') (by decide) _, by simp [Directive.text]⟩
  · exact ends_separator rest

/-- A word makes no place snug. -/
theorem isSnug_of_isWord {c : Char} (h : isWord c) (after : Option Char) :
    isSnug (some c) after = after.any fun c => isMark c || c = '!' || c = ']' := by
  have hc {d : Char} (hd : isWord d = false) : c ≠ d := by
    rintro rfl
    rw [h] at hd
    exact Bool.noConfusion hd
  have hnone : ¬(isMark c ∨ c = '[' ∨ c = separator) := by
    simp [isMark, separator, hc (d := '(') (by decide), hc (d := ')') (by decide),
      hc (d := ':') (by decide), hc (d := '[') (by decide), hc (d := '#') (by decide)]
  simp only [not_or, Bool.not_eq_true] at hnone
  simp [isSnug, hnone]

/-- What white space stands before ends a word, with or without a separator. -/
theorem breaks_gap {x : Char} (hopen : x ≠ '(') {ps : List Part}
    (hhead : ∀ before flat, Flattens before none ps flat → flat.head? = some x)
    (hnext : next none ps = some x) : Breaks (.gap :: ps) := by
  intro c flat hc hflat
  cases hsnug : isSnug (some c) (next none ps) with
  | false =>
    obtain ⟨rest, rfl, -⟩ := (flattens_gap hsnug).1 hflat
    exact ends_separator rest
  | true =>
    have hx := hhead _ _ ((flattens_gap_of_isSnug hsnug).1 hflat)
    rw [isSnug_of_isWord hc, hnext, Option.any_some] at hsnug
    have hword : isWord x = false := by
      simp only [isMark, Bool.or_eq_true, decide_eq_true_eq] at hsnug
      rcases hsnug with ((((rfl | rfl) | rfl) | rfl) | rfl) <;> decide
    refine ⟨?_, by simpa [hx] using hopen⟩
    intro d hd
    rw [hx] at hd
    rwa [← Option.some.inj hd]

/-- A brief directive begins as the directive does. -/
theorem next_brief (after : Option Char) (ps : List Part) :
    next after (ps.map Part.brief) = next after ps := by
  have hhead : Part.head? ∘ Part.brief = Part.head? := by
    funext part
    cases part <;> rfl
  rw [next_eq, next_eq _ ps, List.findSome?_map, hhead]

/-- Shortening a flat text is shortening the directives among its parts. -/
theorem flattens_shorten {ps : List Part} (h : Tidy ps) {before : Option Char} {flat : Text}
    (hflat : Flattens before none ps flat) :
    Flattens before none (ps.map Part.brief) (shorten flat) := by
  have hseparator (s : Text) : shorten (separator :: s) = separator :: shorten s :=
    shorten_append (t := [separator]) (by decide) s
  induction ps generalizing before flat with
  | nil =>
    obtain rfl := hflat
    rfl
  | cons part ps ih =>
    cases part with
    | token t =>
      obtain ⟨rest, rfl, hrest⟩ := hflat
      exact ⟨shorten rest, shorten_append h.1 rest, ih h.2 hrest⟩
    | directive d =>
      obtain ⟨hd, hbreaks, htail⟩ := h
      obtain ⟨rest, rfl, hrest⟩ := hflat
      cases hargument : d.argument with
      | none =>
        have htext : d.text = d.brief := by simp [Directive.text, Directive.brief, hargument]
        obtain ⟨front, c, hname⟩ := (List.eq_nil_or_concat d.name).resolve_left hd.name.ne_nil
        have hlast : d.text.getLast? = some c := by
          have hconcat : d.text = ('@' :: front) ++ [c] := by
            simp [Directive.text, hargument, hname]
          rw [hconcat, List.getLast?_concat]
        have hc : isWord c := hd.name.isWord c (by simp [hname])
        rw [hlast] at hrest
        have hshorten := shorten_directive hd fun _ => hbreaks c rest hc hrest
        refine ⟨shorten rest, hshorten, ?_⟩
        rw [← htext, hlast]
        exact ih htail hrest
      | some argument =>
        -- the mark behind the argument has made the place snug that the separator makes snug now
        have hshorten := shorten_directive hd (s := rest) fun h => by simp [hargument] at h
        have hlast : d.brief.getLast? = some separator := by
          have hconcat : d.brief = ('@' :: d.name) ++ [separator] := by
            simp [Directive.brief, hargument]
          rw [hconcat, List.getLast?_concat]
        rw [Directive.getLast?_text hargument, Option.some_or] at hrest
        refine ⟨shorten rest, hshorten, ?_⟩
        rw [hlast, Option.some_or]
        refine flattens_congr (fun c => ?_) (ih htail hrest)
        rw [isSnug_separator]
        rfl
    | quoted => exact ih h hflat
    | slot =>
      rcases hflat with hflat | ⟨hsnug, rest, rfl, hrest⟩
      · exact .inl (ih h hflat)
      · exact .inr ⟨by rw [next_brief, hsnug], shorten rest, hseparator rest, ih h hrest⟩
    | gap =>
      cases hsnug : isSnug before (next none ps) with
      | true =>
        refine (flattens_gap_of_isSnug ?_).2 (ih h ((flattens_gap_of_isSnug hsnug).1 hflat))
        rw [next_brief, hsnug]
      | false =>
        obtain ⟨rest, rfl, hrest⟩ := (flattens_gap hsnug).1 hflat
        refine (flattens_gap ?_).2 ⟨shorten rest, hseparator rest, ih h hrest⟩
        rw [next_brief, hsnug]

end Scaffold.Schema
