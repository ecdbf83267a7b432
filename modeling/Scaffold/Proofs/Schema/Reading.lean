import Scaffold.Proofs.Schema.Declarations
import Scaffold.Proofs.Text.Splitting

/-!
# Flat text of declared arguments

In flat text an argument is its item `name:Type` and a tail with its default value and its directives
(`exists_tail`). The arguments of a field are parted by separators, so that the items between its
parentheses are those of one argument after the other (`holds_of_flattens`).
-/

namespace Scaffold.Schema

open Text

/-! ## What flat text is made of -/

section

variable {before after : Option Char} {ps : List Part} {flat : Text}

/-- The characters of flat text are separators and those of tokens. -/
theorem mem_of_flattens (hps : ∀ d, .directive d ∉ ps) (h : Flattens before after ps flat) :
    ∀ c ∈ flat, c = separator ∨ ∃ t, .token t ∈ ps ∧ c ∈ t := by
  induction ps generalizing before flat with
  | nil =>
    obtain rfl := h
    simp
  | cons part ps ih =>
    have htail : ∀ d, .directive d ∉ ps := fun d hd => hps d (List.mem_cons_of_mem part hd)
    have hmore {rest : Text} (hrest : ∀ c ∈ rest, c = separator ∨ ∃ t, .token t ∈ ps ∧ c ∈ t) :
        ∀ c ∈ rest, c = separator ∨ ∃ t, .token t ∈ part :: ps ∧ c ∈ t := fun c hc =>
      (hrest c hc).imp_right fun ⟨t, ht, hct⟩ => ⟨t, List.mem_cons_of_mem part ht, hct⟩
    cases part with
    | token t =>
      obtain ⟨rest, rfl, hrest⟩ := h
      exact List.forall_mem_append.2
        ⟨fun c hc => .inr ⟨t, List.mem_cons_self, hc⟩, hmore (ih htail hrest)⟩
    | directive d => exact absurd List.mem_cons_self (hps d)
    | quoted => exact hmore (ih htail h)
    | slot =>
      rcases h with h | ⟨-, rest, rfl, hrest⟩
      · exact hmore (ih htail h)
      · exact List.forall_mem_cons.2 ⟨.inl rfl, hmore (ih htail hrest)⟩
    -- a gap is a separator, or it is snug and leaves nothing
    | gap =>
      cases hsnug : isSnug before (next after ps) with
      | true => exact hmore (ih htail ((flattens_gap_of_isSnug hsnug).1 h))
      | false =>
        obtain ⟨rest, rfl, hrest⟩ := (flattens_gap hsnug).1 h
        exact List.forall_mem_cons.2 ⟨.inl rfl, hmore (ih htail hrest)⟩

/-- No character of a token is lost. -/
theorem mem_flattens (h : Flattens before after ps flat) {t : Text} (ht : .token t ∈ ps) {c : Char}
    (hc : c ∈ t) : c ∈ flat := by
  induction ps generalizing before flat with
  | nil => exact absurd ht List.not_mem_nil
  | cons part ps ih =>
    cases part with
    | token t' =>
      obtain ⟨rest, rfl, hrest⟩ := h
      rcases List.mem_cons.1 ht with heq | ht
      · exact List.mem_append_left _ (Part.token.inj heq ▸ hc)
      · exact List.mem_append_right _ (ih hrest ht)
    | directive d =>
      obtain ⟨rest, rfl, hrest⟩ := h
      exact List.mem_append_right _ (ih hrest (by simpa using ht))
    | quoted => exact ih h (by simpa using ht)
    | slot =>
      have ht : .token t ∈ ps := by simpa using ht
      rcases h with h | ⟨-, rest, rfl, hrest⟩
      · exact ih h ht
      · exact List.mem_cons_of_mem _ (ih hrest ht)
    | gap =>
      have ht : .token t ∈ ps := by simpa using ht
      cases hsnug : isSnug before (next after ps) with
      | true => exact ih ((flattens_gap_of_isSnug hsnug).1 h) ht
      | false =>
        obtain ⟨rest, rfl, hrest⟩ := (flattens_gap hsnug).1 h
        exact List.mem_cons_of_mem _ (ih hrest ht)

end

/-! ## What does not swallow a separator -/

/-- Whether a character swallows the separator behind it. -/
def opens (before : Option Char) : Bool := before.any fun c => isMark c || c = '['

/-- Whether some parts end with a character that swallows no separator if they begin behind one. -/
def Quiet (ps : List Part) : Prop :=
  ∀ before after flat, opens before = false → Flattens before after ps flat →
    opens (flat.getLast?.or before) = false

theorem quiet_nil : Quiet [] := by
  rintro before after flat hbefore rfl
  exact hbefore

/-- Quiet parts one behind the other are quiet. -/
theorem Quiet.append {ps qs : List Part} (hps : Quiet ps) (hqs : Quiet qs) : Quiet (ps ++ qs) := by
  intro before after flat hbefore h
  obtain ⟨front, rest, rfl, hfront, hrest⟩ := h.split
  rw [getLast?_append_or]
  exact hqs _ after rest (hps before _ front hbefore hfront) hrest

/-- A place for white space opens nothing. -/
theorem quiet_place {part : Part} (h : part = .slot ∨ part = .gap ∨ part = .quoted) :
    Quiet [part] := by
  intro before after flat hbefore hflat
  have hflat : flat = [] ∨ flat = [separator] := by
    rcases h with rfl | rfl | rfl
    · rcases hflat with rfl | ⟨-, rest, rfl, rfl⟩ <;> simp
    · unfold Flattens at hflat
      split_ifs at hflat
      · exact .inl hflat
      · obtain ⟨rest, rfl, rfl⟩ := hflat
        exact .inr rfl
    · exact .inl hflat
  rcases hflat with rfl | rfl
  · exact hbefore
  · rfl

/-- Parts that end with a token end with its last character. -/
theorem quiet_concat {t : Text} (hne : t ≠ []) (h : opens t.getLast? = false) (ps : List Part) :
    Quiet (ps ++ [.token t]) := by
  intro before after flat _ hflat
  obtain ⟨front, rest, rfl, -, rest', rfl, rfl⟩ := hflat.split
  obtain ⟨c, hlast⟩ := Option.ne_none_iff_exists'.1 (mt List.getLast?_eq_none_iff.1 hne)
  rw [List.append_nil, getLast?_append_or, hlast]
  rw [hlast] at h
  exact h

theorem IsLiteral.ne_of_mem {t : Text} (h : IsLiteral t) {c d : Char} (hc : c ∈ t)
    (hd : (isAscii d && (isWord d || d = '-' || d = '+' || d = '.')) = false) : c ≠ d :=
  ne_of_mem_of_not_mem hc (h.notMem hd)

/-- No character of a literal is a mark. -/
theorem IsLiteral.not_isMark {t : Text} (h : IsLiteral t) {c : Char} (hc : c ∈ t) :
    isMark c = false := by
  simp [isMark, h.ne_of_mem hc (d := '(') (by decide), h.ne_of_mem hc (d := ')') (by decide),
    h.ne_of_mem hc (d := ':') (by decide)]

/-- A literal does not end in a mark that makes white space behind it snug. -/
theorem IsLiteral.opens {t : Text} (h : IsLiteral t) : opens t.getLast? = false := by
  cases hlast : t.getLast? with
  | none => rfl
  | some c =>
    have hc := List.mem_of_getLast? hlast
    simp [Schema.opens, h.not_isMark hc, h.ne_of_mem hc (d := '[') (by decide)]

/-- No character of a literal swallows the separator before it. -/
theorem IsLiteral.not_closes {t : Text} (h : IsLiteral t) {c : Char} (hc : c ∈ t) :
    (isMark c || c = '!' || c = ']') = false := by
  simp [h.not_isMark hc, h.ne_of_mem hc (d := '!') (by decide), h.ne_of_mem hc (d := ']') (by decide)]

/-- Parts that end with a bracket or brace that closes. -/
private theorem quiet_close {c : Char} (hc : opens (some c) = false) (ps : List Part) :
    Quiet (ps ++ [.slot, .token [c]]) := by
  have hconcat := quiet_concat (List.cons_ne_nil c []) hc (ps ++ [.slot])
  rwa [List.append_assoc] at hconcat

/-- A constant ends in a literal or in a closing mark. -/
theorem quiet_constant {ps : List Part} (h : IsConstant ps) : Quiet ps := by
  cases h with
  | literal h => exact quiet_concat h.ne_nil h.opens []
  | quoted => exact quiet_place (.inr (.inr rfl))
  | list h => exact quiet_close (by decide) _
  | object hkeys h => exact quiet_close (by decide) _

/-- A default value is quiet, as its constant is. -/
theorem quiet_default {d : Default} (h : IsConstant d.value) : Quiet d.parts := by
  have hspace : Quiet (if d.spaced then [Part.gap] else []) := by
    cases d.spaced
    · exact quiet_nil
    · exact quiet_place (.inr (.inl rfl))
  have hsign : Quiet ([] ++ [.token ['=']]) := quiet_concat (by simp) (by decide) _
  exact hspace.append (hsign.append ((quiet_place (.inl rfl)).append (quiet_constant h)))

/-- The brief form of a directive does not end in a mark. -/
theorem Directive.IsProper.opens {d : Directive} (h : d.IsProper) :
    Schema.opens d.brief.getLast? = false := by
  obtain ⟨name, argument⟩ := d
  cases argument with
  | none =>
    have hlast := h.name.isLiteral.opens
    obtain ⟨c, hc⟩ := Option.ne_none_iff_exists'.1 (mt List.getLast?_eq_none_iff.1 h.name.ne_nil)
    rw [hc] at hlast
    simpa [Directive.brief, List.getLast?_cons, hc] using hlast
  | some argument =>
    have hbrief : Directive.brief ⟨name, some argument⟩ = ('@' :: name) ++ [separator] := by
      simp [Directive.brief]
    rw [hbrief, List.getLast?_concat]
    rfl

/-- Directives behind places for white space are quiet. -/
theorem quiet_directives (place : Part) {ds : List Directive} (hds : ∀ d ∈ ds, d.IsProper) :
    Quiet (ds.flatMap fun d => [place, .token d.brief]) := by
  induction ds with
  | nil => exact quiet_nil
  | cons d ds ih =>
    obtain ⟨hd, hds⟩ := List.forall_mem_cons.1 hds
    have hfirst : Quiet ([place] ++ [.token d.brief]) :=
      quiet_concat (by simp [Directive.brief]) hd.opens _
    exact hfirst.append (ih hds)

/-- Behind what swallows no separator, a gap is one separator, unless one stands there already. -/
theorem flattens_gap_cases {before after : Option Char} {ps : List Part} {flat : Text}
    (hbefore : opens before = false) {c : Char} (hnext : next after ps = some c)
    (hc : (isMark c || c = '!' || c = ']') = false) (h : Flattens before after (.gap :: ps) flat) :
    before = some separator ∧ Flattens before after ps flat ∨
      ∃ rest, flat = separator :: rest ∧ Flattens (some separator) after ps rest := by
  cases hsnug : isSnug before (next after ps) with
  | false => exact .inr ((flattens_gap hsnug).1 h)
  | true =>
    refine .inl ⟨?_, (flattens_gap_of_isSnug hsnug).1 h⟩
    cases before with
    | none => simp [isSnug, hnext, hc] at hsnug
    | some b =>
      rw [opens, Option.any_some, Bool.or_eq_false_iff] at hbefore
      rw [hnext, isSnug, Option.any_some, Option.any_some, hc, hbefore.1, hbefore.2] at hsnug
      simpa using hsnug

/-! ## Types -/

/-- The flat text of a type is its printed text. -/
theorem flattens_type {t : TypeRef} {before after : Option Char} {flat : Text}
    (h : Flattens before after t.parts flat) : flat = t.text := by
  obtain ⟨name, required, isList, isListRequired⟩ := t
  cases isList <;> cases required <;> cases isListRequired <;>
    simp_all [TypeRef.parts, TypeRef.text, TypeRef.markParts, TypeRef.mark, Flattens, next, isSnug,
      isMark]

/-- A type ends with a character that swallows no separator, and is none. -/
theorem TypeRef.IsProper.exists_last {t : TypeRef} (h : t.IsProper) :
    ∃ c, t.text.getLast? = some c ∧ opens (some c) = false ∧ c ≠ separator := by
  have hname : ∃ c, t.typeName.getLast? = some c ∧ opens (some c) = false ∧ c ≠ separator := by
    obtain ⟨c, hc⟩ :=
      Option.ne_none_iff_exists'.1 (mt List.getLast?_eq_none_iff.1 h.typeName.ne_nil)
    refine ⟨c, hc, hc ▸ h.typeName.isLiteral.opens, ?_⟩
    rintro rfl
    exact h.typeName.isLiteral.notMem (c := separator) (by decide) (List.mem_of_getLast? hc)
  obtain ⟨name, required, isList, isListRequired⟩ := t
  cases isList <;> cases required <;> cases isListRequired <;>
    simp_all [TypeRef.text, TypeRef.mark, List.getLast?_cons, opens, isMark, separator]

/-! ## Arguments -/

/-- What stands behind the type of an argument when directives have lost their arguments. -/
def ArgumentDecl.tail (a : ArgumentDecl) : List Part :=
  a.default.elim [] Default.parts ++ a.directives.flatMap fun d => [.gap, .token d.brief]

/-- Whether a default value reads as no argument: white space parts it from the type, and no token of
it has a colon. -/
def Default.IsSkipped (d : Default) : Prop := d.spaced ∧ ∀ t, .token t ∈ d.value → ':' ∉ t

/-- Whether a text is the tail of an argument. It begins with a separator and has no colon, exactly if
the default value is skipped. -/
structure IsTail (a : ArgumentDecl) (tail : Text) : Prop where
  groups : ∀ c ∈ tail, c ≠ '(' ∧ c ≠ ')'
  skipped : (∀ d ∈ a.default, d.IsSkipped) → (∀ c ∈ tail.head?, c = separator) ∧ ':' ∉ tail
  kept : (∃ d ∈ a.default, ¬d.IsSkipped) →
    tail.head? = some '=' ∨ tail.head? = some separator ∧ ':' ∈ tail

/-- Tame parts have no directives to make brief. -/
theorem map_brief_of_tame {ps : List Part} (h : ∀ part ∈ ps, part.IsTame) :
    ps.map Part.brief = ps := by
  have hbrief : ∀ part ∈ ps, part.brief = part := by
    intro part hpart
    cases part with
    | directive d => exact (h _ hpart).elim
    | token | quoted | slot | gap => rfl
  rw [List.map_congr_left hbrief, List.map_id']

/-- The brief form of an argument: name, colon and type, and its tail. -/
theorem ArgumentDecl.IsProper.map_brief {a : ArgumentDecl} (h : a.IsProper) :
    a.parts.map Part.brief =
      .token a.name :: .slot :: .token [':'] :: .slot :: (a.toTypeRef.parts ++ a.tail) := by
  simp only [ArgumentDecl.parts, ArgumentDecl.tail, List.map_append, List.map_cons,
    List.map_flatMap, map_brief_of_tame (tame_type h.type), map_brief_of_tame h.tame_default_parts, List.map_nil,
    Part.brief, List.cons_append]

/-- The tokens behind a type. -/
private theorem token_mem_tail {a : ArgumentDecl} {t : Text} (ht : .token t ∈ a.tail) :
    (∃ d ∈ a.default, t = ['='] ∨ .token t ∈ d.value) ∨ ∃ d ∈ a.directives, t = d.brief := by
  rcases List.mem_append.1 ht with ht | ht
  · left
    cases hd : a.default with
    | none => simp [hd] at ht
    | some d =>
      refine ⟨d, rfl, ?_⟩
      rw [hd, Option.elim_some, Default.parts] at ht
      rcases List.mem_append.1 ht with ht | ht
      · cases d.spaced <;> simp at ht
      · simpa using ht
  · obtain ⟨d, hd, ht⟩ := List.mem_flatMap.1 ht
    exact .inr ⟨d, hd, by simpa using ht⟩

/-- In the tail of an argument, directives are tokens. -/
theorem ArgumentDecl.IsProper.directive_notMem_tail {a : ArgumentDecl} (h : a.IsProper)
    (d : Directive) : .directive d ∉ a.tail := by
  intro hd
  rcases List.mem_append.1 hd with hd | hd
  · cases hdefault : a.default with
    | none => simp [hdefault] at hd
    | some default =>
      rw [hdefault] at hd
      exact tame_default (h.default default hdefault) _ hd
  · obtain ⟨d', -, hd⟩ := List.mem_flatMap.1 hd
    simp at hd

/-- The characters of a directive without its argument. -/
theorem Directive.IsProper.mem_brief {d : Directive} (h : d.IsProper) {c : Char}
    (hc : c ∈ d.brief) : c = '@' ∨ c = separator ∨ c ∈ d.name := by
  obtain ⟨name, argument⟩ := d
  cases argument with
  | none =>
    simp only [Directive.brief, Option.elim_none, List.append_nil, List.mem_cons] at hc
    tauto
  | some argument =>
    simp only [Directive.brief, Option.elim_some, List.mem_append, List.mem_cons, List.not_mem_nil,
      or_false] at hc
    tauto

/-- The tail of an argument with a default value begins with its sign. -/
theorem ArgumentDecl.tail_of_default {a : ArgumentDecl} {d : Default} (hd : a.default = some d) :
    a.tail = (if d.spaced then [.gap] else []) ++ .token ['='] :: .slot :: (d.value ++
      a.directives.flatMap fun d => [.gap, .token d.brief]) := by
  simp [ArgumentDecl.tail, hd, Default.parts]

section

variable {a : ArgumentDecl} (h : a.IsProper) {before after : Option Char} {tail : Text}

include h

/-- The characters behind a type. -/
private theorem mem_tail_cases (htail : Flattens before after a.tail tail) {c : Char} (hc : c ∈ tail) :
    (c = separator ∨ c = '=' ∨ c = '@') ∨ (∃ d ∈ a.default, ∃ t, .token t ∈ d.value ∧ c ∈ t) ∨
      ∃ d ∈ a.directives, c ∈ d.name := by
  rcases mem_of_flattens h.directive_notMem_tail htail c hc with rfl | ⟨t, ht, hct⟩
  · exact .inl (.inl rfl)
  rcases token_mem_tail ht with ⟨d, hd, rfl | ht⟩ | ⟨d, hd, rfl⟩
  · exact .inl (.inr (.inl (List.mem_singleton.1 hct)))
  · exact .inr (.inl ⟨d, hd, t, ht, hct⟩)
  · rcases (h.directives d hd).mem_brief hct with heq | heq | hname
    · exact .inl (.inr (.inr heq))
    · exact .inl (.inl heq)
    · exact .inr (.inr ⟨d, hd, hname⟩)

/-- No group stands behind a type. -/
private theorem no_group_in_tail (htail : Flattens before after a.tail tail) {c : Char} (hc : c ∈ tail) :
    c ≠ '(' ∧ c ≠ ')' := by
  rcases mem_tail_cases h htail hc with (rfl | rfl | rfl) | ⟨d, hd, t, ht, hct⟩ | ⟨d, hd, hname⟩
  · decide
  · decide
  · decide
  · obtain ⟨hopen, hclose, -⟩ := tame_constant (h.default d hd) _ ht c hct
    exact ⟨hopen, hclose⟩
  · obtain ⟨hopen, hclose, -⟩ := (h.directives d hd).name.isLiteral.isTame c hname
    exact ⟨hopen, hclose⟩

/-- A colon behind a type is one of the default value. -/
private theorem exists_colon_in_default (htail : Flattens before after a.tail tail)
    (hcolon : ':' ∈ tail) : ∃ d ∈ a.default, ∃ t, .token t ∈ d.value ∧ ':' ∈ t := by
  rcases mem_tail_cases h htail hcolon with (heq | heq | heq) | hdefault | ⟨d, hd, hname⟩
  · exact absurd heq (by decide)
  · exact absurd heq (by decide)
  · exact absurd heq (by decide)
  · exact hdefault
  · exact absurd hname ((h.directives d hd).name.isLiteral.notMem (by decide))

omit h

variable (hbefore : opens before = false) (hne : before ≠ some separator)

include hbefore hne

/-- White space behind a type begins with a separator. -/
private theorem head?_of_gap {c : Char} {t : Text} {ps : List Part}
    (hc : (isMark c || c = '!' || c = ']') = false)
    (htail : Flattens before after (.gap :: .token (c :: t) :: ps) tail) :
    tail.head? = some separator := by
  rcases flattens_gap_cases hbefore rfl hc htail with ⟨hseparator, -⟩ | ⟨rest, rfl, -⟩
  · exact absurd hseparator hne
  · rfl

/-- A default value behind white space begins with a separator. -/
private theorem head?_of_spaced {d : Default} (hd : a.default = some d) (hspaced : d.spaced)
    (htail : Flattens before after a.tail tail) : tail.head? = some separator := by
  rw [ArgumentDecl.tail_of_default hd, if_pos hspaced] at htail
  exact head?_of_gap hbefore hne rfl htail

/-- The tail of an argument begins with a separator if its default value is skipped. -/
private theorem head?_of_skipped (hskipped : ∀ d ∈ a.default, d.IsSkipped)
    (htail : Flattens before after a.tail tail) : ∀ c ∈ tail.head?, c = separator := by
  cases hdefault : a.default with
  | some d =>
    have hhead := head?_of_spaced hbefore hne hdefault (hskipped d hdefault).1 htail
    simp [hhead, eq_comm]
  | none =>
    rw [ArgumentDecl.tail, hdefault, Option.elim_none, List.nil_append] at htail
    cases hdirectives : a.directives with
    | nil =>
      rw [hdirectives] at htail
      obtain rfl := htail
      simp
    | cons d ds =>
      rw [hdirectives] at htail
      have hhead := head?_of_gap hbefore hne (c := '@') rfl htail
      simp [hhead, eq_comm]

/-- A default value that is not skipped begins with its sign, or its text has a colon. -/
private theorem tail_of_kept (hkept : ∃ d ∈ a.default, ¬d.IsSkipped)
    (htail : Flattens before after a.tail tail) :
    tail.head? = some '=' ∨ tail.head? = some separator ∧ ':' ∈ tail := by
  obtain ⟨d, hd, hkept⟩ := hkept
  cases hspaced : d.spaced with
  | false =>
    left
    rw [ArgumentDecl.tail_of_default hd, hspaced] at htail
    obtain ⟨rest, rfl, -⟩ := htail
    rfl
  | true =>
    right
    obtain ⟨t, ht, hcolon⟩ : ∃ t, .token t ∈ d.value ∧ ':' ∈ t := by
      by_contra hnone
      exact hkept ⟨hspaced, fun t ht hcolon => hnone ⟨t, ht, hcolon⟩⟩
    refine ⟨head?_of_spaced hbefore hne hd hspaced htail, mem_flattens htail ?_ hcolon⟩
    rw [ArgumentDecl.tail_of_default hd]
    simp [ht]

end

/-- The flat text of the tail of an argument is a tail. -/
theorem isTail_of_flattens {a : ArgumentDecl} (h : a.IsProper) {before after : Option Char}
    (hbefore : opens before = false) (hne : before ≠ some separator) {tail : Text}
    (htail : Flattens before after a.tail tail) : IsTail a tail where
  groups _ hc := no_group_in_tail h htail hc
  skipped hskipped := by
    refine ⟨head?_of_skipped hbefore hne hskipped htail, fun hcolon => ?_⟩
    obtain ⟨d, hd, t, ht, hmem⟩ := exists_colon_in_default h htail hcolon
    exact (hskipped d hd).2 t ht hmem
  kept hkept := tail_of_kept hbefore hne hkept htail

/-- The tail of an argument is quiet. -/
theorem quiet_tail {a : ArgumentDecl} (h : a.IsProper) : Quiet a.tail := by
  have hdefault : Quiet (a.default.elim [] Default.parts) := by
    cases hd : a.default with
    | none => exact quiet_nil
    | some d => exact quiet_default (h.default d hd)
  exact hdefault.append (quiet_directives .gap h.directives)

/-- In flat text, an argument is its item and its tail. -/
theorem exists_tail {a : ArgumentDecl} (h : a.IsProper) {before after : Option Char} {flat : Text}
    (hflat : Flattens before after (a.parts.map Part.brief) flat) :
    ∃ tail, flat = a.item ++ tail ∧ IsTail a tail ∧ opens flat.getLast? = false := by
  have hcolon (before : Option Char) : isSnug before (some ':') := by simp [isSnug, isMark]
  rw [h.map_brief] at hflat
  obtain ⟨_, rfl, hname⟩ := hflat
  obtain ⟨_, rfl, hmark⟩ := (flattens_slot (hcolon _)).1 hname
  obtain ⟨front, tail, rfl, hfront, htail⟩ := ((flattens_slot rfl).1 hmark).split
  obtain rfl := flattens_type hfront
  obtain ⟨c, hlast, hopens, hseparator⟩ := TypeRef.IsProper.exists_last h.type
  rw [hlast, Option.some_or] at htail
  refine ⟨tail, by simp [Argument.item], isTail_of_flattens h hopens ?_ htail, ?_⟩
  · simpa using hseparator
  · have hquiet := quiet_tail h _ after tail hopens htail
    simp only [List.getLast?_append, hlast, Option.or_assoc, Option.some_or]
    exact hquiet

/-- Whether a text between separators is that of an argument. -/
def IsArgumentText (a : ArgumentDecl) (text : Text) : Prop :=
  ∃ tail, text = a.item ++ tail ∧ IsTail a tail

/-- Whether what stands between parentheses holds the items of some arguments. -/
structure Holds (args : List ArgumentDecl) (inside : Text) : Prop where
  groups : ∀ c ∈ inside, c ≠ '(' ∧ c ≠ ')'
  items : ∃ texts, List.Forall₂ IsArgumentText args texts ∧
    parts separator inside = texts.flatMap (parts separator)

/-- The text of an argument has no parentheses. -/
theorem IsArgumentText.groups {a : ArgumentDecl} (h : a.IsProper) {text : Text}
    (ht : IsArgumentText a text) : ∀ c ∈ text, c ≠ '(' ∧ c ≠ ')' := by
  obtain ⟨tail, rfl, htail⟩ := ht
  refine List.forall_mem_append.2 ⟨?_, htail.groups⟩
  have hname := h.name.isLiteral.isTame
  have htype : ∀ c ∈ a.toTypeRef.text, c ≠ '(' ∧ c ≠ ')' := by
    have hmark (required : Bool) : ∀ c ∈ TypeRef.mark required, c ≠ '(' ∧ c ≠ ')' := by
      cases required <;> decide
    have htypeName : ∀ c ∈ a.typeName, c ≠ '(' ∧ c ≠ ')' := fun c hc =>
      ⟨(h.type.typeName.isLiteral.isTame c hc).1, (h.type.typeName.isLiteral.isTame c hc).2.1⟩
    unfold TypeRef.text
    split_ifs <;> simp only [List.forall_mem_append, List.forall_mem_cons]
    · exact ⟨⟨⟨by decide, htypeName⟩, hmark _⟩, by decide, hmark _⟩
    · exact ⟨htypeName, hmark _⟩
  refine List.forall_mem_append.2 ⟨fun c hc => ⟨(hname c hc).1, (hname c hc).2.1⟩, ?_⟩
  exact List.forall_mem_cons.2 ⟨by decide, htype⟩

theorem Holds.nil : Holds [] [] := ⟨by simp, [], .nil, rfl⟩

/-- One more argument in front of others that are parted from what stands before them. -/
private theorem holds_cons {a : ArgumentDecl} (h : a.IsProper) {args : List ArgumentDecl}
    {more : List Part} {after : Option Char}
    (hmore : ∀ before flat, opens before = false → Flattens before after more flat →
      Holds args flat ∧ Parted separator before flat)
    {before : Option Char} {flat : Text}
    (hflat : Flattens before after (a.parts.map Part.brief ++ more) flat) : Holds (a :: args) flat := by
  obtain ⟨front, rest, rfl, hfront, hrest⟩ := hflat.split
  obtain ⟨tail, rfl, htail, hopens⟩ := exists_tail h hfront
  have hlast : (a.item ++ tail).getLast?.or before = (a.item ++ tail).getLast? := by
    obtain ⟨c, hc⟩ := Option.ne_none_iff_exists'.1
      (mt List.getLast?_eq_none_iff.1 (show a.item ++ tail ≠ [] by simp [Argument.item]))
    rw [hc, Option.some_or]
  rw [hlast] at hrest
  obtain ⟨⟨hgroups, texts, htexts, hparts⟩, hparted⟩ := hmore _ rest hopens hrest
  have htext : IsArgumentText a (a.item ++ tail) := ⟨tail, rfl, htail⟩
  refine ⟨List.forall_mem_append.2 ⟨htext.groups h, hgroups⟩, _ :: texts, .cons htext htexts, ?_⟩
  rw [parts_append_of_parted hparted, hparts, List.flatMap_cons]

/-- The arguments behind the first one are parted from what stands before them. -/
private theorem holds_rest {args : List ArgumentDecl} (h : ∀ a ∈ args, a.IsProper)
    {after : Option Char} (before : Option Char) (flat : Text) (hbefore : opens before = false)
    (hflat : Flattens before after
      ((args.map fun a => a.parts.map Part.brief).flatMap fun ps => .gap :: ps) flat) :
    Holds args flat ∧ Parted separator before flat := by
  induction args generalizing before flat with
  | nil =>
    obtain rfl := hflat
    exact ⟨.nil, .inl rfl⟩
  | cons a args ih =>
    obtain ⟨ha, hargs⟩ := List.forall_mem_cons.1 h
    obtain ⟨c, name, hname⟩ := List.exists_cons_of_ne_nil ha.name.ne_nil
    have hc := ha.name.isLiteral.not_closes (c := c) (by simp [hname])
    rw [List.map_cons, List.flatMap_cons, List.cons_append] at hflat
    -- the next character is the first of the name of the argument
    have hnext : next after (a.parts.map Part.brief ++
        (args.map fun a => a.parts.map Part.brief).flatMap fun ps => .gap :: ps) = some c := by
      rw [ha.map_brief, List.cons_append, next, hname, List.head?_cons, Option.some_or]
    rcases flattens_gap_cases hbefore hnext hc hflat with ⟨hseparator, hrest⟩ | ⟨rest, rfl, hrest⟩
    · exact ⟨holds_cons ha (ih hargs) hrest, .inr (.inr hseparator)⟩
    · obtain ⟨hgroups, texts, htexts, hparts⟩ := holds_cons ha (ih hargs) hrest
      refine ⟨⟨List.forall_mem_cons.2 ⟨by decide, hgroups⟩, texts, htexts, ?_⟩, .inr (.inl rfl)⟩
      rw [parts_cons_separator, hparts]

/-- Between the parentheses of a field, its arguments are parted by separators. -/
theorem holds_of_flattens {args : List ArgumentDecl} (h : ∀ a ∈ args, a.IsProper)
    {before after : Option Char} {flat : Text}
    (hflat : Flattens before after (separated (args.map fun a => a.parts.map Part.brief)) flat) :
    Holds args flat := by
  cases args with
  | nil =>
    obtain rfl := hflat
    exact .nil
  | cons a args =>
    obtain ⟨ha, hargs⟩ := List.forall_mem_cons.1 h
    exact holds_cons ha (holds_rest hargs) hflat

end Scaffold.Schema
