import Scaffold.Proofs.Schema.Documentation
import Scaffold.Proofs.Schema.FlatText
import Scaffold.Schema.Field

/-!
# Parts of a schema and their layouts

A schema is printed as a list of *parts*: tokens, with places between them where white space may stand
or has to stand. A *layout* fills the parts with bits (`Fills`); documentation and commas may stand
wherever white space may. Flat text tells no two layouts of tight parts apart: it spells the tokens, with
a separator where white space has to stand and no mark is beside it (`flattens_of_fills`).
-/

namespace Scaffold.Schema

open Text

/-- A directive, such as `@deprecated` or `@cost(weight: 2)`. -/
structure Directive where
  name : Text
  argument : Option (Text × Text)
  deriving DecidableEq, Repr

/-- A part of a printed schema. -/
inductive Part where
  | token (t : Text)
  /-- A string constant, which is a quotation or a block string. -/
  | quoted
  | directive (d : Directive)
  /-- A place where white space may stand. -/
  | slot
  /-- A place where white space has to stand. -/
  | gap
  deriving DecidableEq, Repr

/-- A directive in tokens. -/
def Directive.parts (d : Directive) : List Part :=
  .token ('@' :: d.name) ::
    match d.argument with
    | none => []
    | some (key, value) =>
      [.slot, .token ['('], .slot, .token key, .slot, .token [':'], .slot, .token value, .slot,
        .token [')']]

theorem Directive.directive_notMem_parts (d d' : Directive) : .directive d' ∉ d.parts := by
  obtain ⟨name, _ | argument⟩ := d <;> simp [Directive.parts]

/-- A directive without white space. -/
def Directive.text (d : Directive) : Text :=
  '@' :: d.name ++ d.argument.elim [] fun (key, value) => '(' :: key ++ ':' :: value ++ [')']

/-- Behind its argument a directive ends with a mark. -/
theorem Directive.getLast?_text {d : Directive} {key value : Text}
    (h : d.argument = some (key, value)) : d.text.getLast? = some ')' := by
  have htext : d.text = ('@' :: d.name ++ '(' :: key ++ ':' :: value) ++ [')'] := by
    simp [Directive.text, h]
  rw [htext, List.getLast?_concat]

/-- Whether a bit belongs to a token. -/
def Bit.isSolid : Bit → Bool
  | solid _ => true
  | _ => false

/-- The layouts of printed parts. -/
inductive Fills : List Part → List Bit → Prop
  | nil : Fills [] []
  | token {t : Text} {ps : List Part} {bits : List Bit} (hne : t ≠ []) (h : Fills ps bits) :
      Fills (.token t :: ps) (t.map .solid ++ bits)
  | quoted {b : Bit} {ps : List Part} {bits : List Bit} (hb : b.isQuoted ∨ b.isBlock)
      (h : Fills ps bits) : Fills (.quoted :: ps) (b :: bits)
  | directive {d : Directive} {ps : List Part} {bits : List Bit} (h : Fills (d.parts ++ ps) bits) :
      Fills (.directive d :: ps) bits
  | slot {space : List Bit} {ps : List Part} {bits : List Bit}
      (hspace : ∀ b ∈ space, b.isSolid = false) (h : Fills ps bits) :
      Fills (.slot :: ps) (space ++ bits)
  | gap {space : List Bit} {ps : List Part} {bits : List Bit}
      (hspace : ∀ b ∈ space, b.isSolid = false) (hblank : ∃ c, .blank c ∈ space)
      (h : Fills ps bits) : Fills (.gap :: ps) (space ++ bits)

/-- The first character that a part has in flat text. -/
def Part.head? : Part → Option Char
  | token t => t.head?
  | directive _ => some '@'
  | _ => none

/-- The first character of some parts in flat text, with `after` behind them. -/
def next (after : Option Char) : List Part → Option Char
  | [] => after
  | .token t :: ps => t.head?.or (next after ps)
  | .directive _ :: _ => some '@'
  | _ :: ps => next after ps

/-- What flat text makes of some parts between the characters `before` and `after`. A slot that is not
snug leaves a separator in some layouts and none in others. -/
def Flattens (before after : Option Char) : List Part → Text → Prop
  | [], flat => flat = []
  | .token t :: ps, flat =>
    ∃ rest, flat = t ++ rest ∧ Flattens (t.getLast?.or before) after ps rest
  | .quoted :: ps, flat => Flattens before after ps flat
  | .directive d :: ps, flat =>
    ∃ rest, flat = d.text ++ rest ∧ Flattens (d.text.getLast?.or before) after ps rest
  | .slot :: ps, flat =>
    Flattens before after ps flat ∨
      isSnug before (next after ps) = false ∧
        ∃ rest, flat = separator :: rest ∧ Flattens (some separator) after ps rest
  | .gap :: ps, flat =>
    if isSnug before (next after ps) then Flattens before after ps flat
    else ∃ rest, flat = separator :: rest ∧ Flattens (some separator) after ps rest

/-! ## Flat text of layouts -/

/-- What flat text sees of a bit. -/
def Bit.core : Bit → Text
  | solid c => [c]
  | blank c => [c]
  | _ => []

/-- The flat text of bits is put together from what they leave. -/
theorem flatten_written {bits : List Bit} (h : AreRead bits) :
    flatten (written bits) = tighten none false (bits.flatMap Bit.core) := by
  rw [flatten_eq_tighten, stripDocs_written h, List.filter_flatMap]
  congr 1
  refine List.flatMap_congr fun b hb => ?_
  obtain ⟨after, hb⟩ := exists_isRead h b hb
  cases b with
  | solid c => exact List.filter_cons_of_pos (decide_eq_true hb.2.1)
  -- no comma is white space
  | blank c =>
    have hc : c ≠ ',' := by
      rintro rfl
      exact absurd (show isBlank ',' = true from hb) (by decide)
    exact List.filter_cons_of_pos (decide_eq_true hc)
  | comma | comment | quoted | block => rfl

/-- Characters that are not blank stay as they are. -/
private theorem tighten_solids {t : Text} (ht : ∀ c ∈ t, isBlank c = false) (before : Option Char)
    (s : Text) : tighten before false (t ++ s) = t ++ tighten (t.getLast?.or before) false s := by
  induction t generalizing before with
  | nil => rfl
  | cons c t ih =>
    obtain ⟨hc, ht⟩ := List.forall_mem_cons.1 ht
    rw [List.cons_append, tighten, hc, getLast?_cons_or]
    simpa using ih ht (some c)

/-- A token is spelled behind one separator, or none if it is snug. -/
private theorem tighten_token {t : Text} (hne : t ≠ []) (ht : ∀ c ∈ t, isBlank c = false)
    (before : Option Char) (gap : Bool) (s : Text) :
    tighten before gap (t ++ s) =
      (if gap && !isSnug before t.head? then [separator] else []) ++
        (t ++ tighten t.getLast? false s) := by
  obtain ⟨c, t, rfl⟩ := List.exists_cons_of_ne_nil hne
  have hsolids := tighten_solids ht none s
  rw [Option.or_none] at hsolids
  rw [← hsolids, List.cons_append, tighten, tighten, ht c List.mem_cons_self]
  simp

/-- Space between parts is one gap, if any white space is in it. -/
private theorem tighten_space {space : List Bit} (hspace : ∀ b ∈ space, b.isSolid = false)
    (hread : ∀ b ∈ space, ∃ after, b.IsRead after) (before : Option Char) (gap : Bool) (s : Text) :
    tighten before gap (space.flatMap Bit.core ++ s) =
      tighten before (gap || space.any (·.core ≠ [])) s := by
  induction space generalizing gap with
  | nil => simp
  | cons b space ih =>
    obtain ⟨hsolid, htail⟩ := List.forall_mem_cons.1 hspace
    obtain ⟨⟨after, hb⟩, hreadTail⟩ := List.forall_mem_cons.1 hread
    rw [List.flatMap_cons, List.append_assoc]
    cases b with
    | solid c => exact absurd hsolid (by simp [Bit.isSolid])
    | blank c =>
      have hc : isBlank c := hb
      have htighten := ih htail hreadTail true
      simp only [Bit.core, List.singleton_append, tighten, hc, if_true, htighten]
      simp
    | comma | comment | quoted | block =>
      have htighten := ih htail hreadTail gap
      simpa [Bit.core] using htighten

section

variable {before after : Option Char} {ps : List Part} {flat : Text}

/-- A slot beside a mark leaves nothing. -/
theorem flattens_slot (h : isSnug before (next after ps)) :
    Flattens before after (.slot :: ps) flat ↔ Flattens before after ps flat := by
  simp [Flattens, h]

/-- A gap that is not snug is a separator in flat text. -/
theorem flattens_gap (h : isSnug before (next after ps) = false) :
    Flattens before after (.gap :: ps) flat ↔
      ∃ rest, flat = separator :: rest ∧ Flattens (some separator) after ps rest := by
  simp [Flattens, h]

/-- A snug gap leaves nothing in flat text. -/
theorem flattens_gap_of_isSnug (h : isSnug before (next after ps)) :
    Flattens before after (.gap :: ps) flat ↔ Flattens before after ps flat := by
  simp [Flattens, h]

/-- Behind a separator all is snug. -/
theorem isSnug_separator (c : Option Char) : isSnug (some separator) c := by
  simp [isSnug]

/-- Where white space has to stand, it may stand. -/
theorem flattens_slot_of_gap (h : Flattens before after (.gap :: ps) flat) :
    Flattens before after (.slot :: ps) flat := by
  cases hsnug : isSnug before (next after ps) with
  | true => exact .inl ((flattens_gap_of_isSnug hsnug).1 h)
  | false => exact .inr ⟨hsnug, (flattens_gap hsnug).1 h⟩

/-- Flat text depends on what is before only through the places that it makes snug. -/
theorem flattens_congr {before' : Option Char} (h : ∀ c, isSnug before c = isSnug before' c)
    (hflat : Flattens before after ps flat) : Flattens before' after ps flat := by
  induction ps generalizing before before' flat with
  | nil => exact hflat
  | cons part ps ih =>
    -- past its first character a flat text does not depend on `before` any more
    cases part with
    | token t =>
      obtain ⟨rest, rfl, hrest⟩ := hflat
      refine ⟨rest, rfl, ?_⟩
      cases hlast : t.getLast? with
      | none => exact ih h (by simpa [hlast] using hrest)
      | some c => simpa [hlast] using hrest
    | quoted => exact ih h hflat
    | directive d =>
      obtain ⟨rest, rfl, hrest⟩ := hflat
      refine ⟨rest, rfl, ?_⟩
      cases hlast : d.text.getLast? with
      | none => exact ih h (by simpa [hlast] using hrest)
      | some c => simpa [hlast] using hrest
    | slot =>
      rcases hflat with hflat | ⟨hsnug, hrest⟩
      · exact .inl (ih h hflat)
      · exact .inr ⟨by rw [← h, hsnug], hrest⟩
    | gap =>
      unfold Flattens at hflat ⊢
      rw [← h]
      split_ifs at hflat ⊢
      · exact ih h hflat
      · exact hflat

/-- Flat text begins with the first character that one of the parts has. -/
theorem next_eq (after : Option Char) (ps : List Part) :
    next after ps = (ps.findSome? Part.head?).or after := by
  induction ps with
  | nil => rfl
  | cons part ps ih =>
    cases part with
    | token t => cases t with
      | nil => exact ih
      | cons c t => rfl
    | directive d => rfl
    | quoted | slot | gap => exact ih

/-- Parts begin as their front does, with the first character of the rest behind it. -/
theorem next_append (ps qs : List Part) : next after (ps ++ qs) = next (next after qs) ps := by
  rw [next_eq, next_eq _ ps, next_eq _ qs, List.findSome?_append, Option.or_assoc]

/-- The last character behind two texts. -/
theorem getLast?_append_or (t front : Text) (before : Option Char) :
    (t ++ front).getLast?.or before = front.getLast?.or (t.getLast?.or before) := by
  rw [List.getLast?_append, Option.or_assoc]

/-- The flat text of parts that follow one another is put together from theirs. -/
theorem Flattens.split {qs : List Part} (h : Flattens before after (ps ++ qs) flat) :
    ∃ front rest, flat = front ++ rest ∧ Flattens before (next after qs) ps front ∧
      Flattens (front.getLast?.or before) after qs rest := by
  -- each part leaves its last character to what stands behind it
  induction ps generalizing before flat with
  | nil => exact ⟨[], flat, rfl, rfl, h⟩
  | cons part ps ih =>
    rw [List.cons_append] at h
    cases part with
    | token t =>
      obtain ⟨flat, rfl, hflat⟩ := h
      obtain ⟨front, rest, rfl, hfront, hrest⟩ := ih hflat
      exact ⟨t ++ front, rest, by simp, ⟨front, rfl, hfront⟩, by rwa [getLast?_append_or]⟩
    | directive d =>
      obtain ⟨flat, rfl, hflat⟩ := h
      obtain ⟨front, rest, rfl, hfront, hrest⟩ := ih hflat
      exact ⟨d.text ++ front, rest, by simp, ⟨front, rfl, hfront⟩, by rwa [getLast?_append_or]⟩
    | quoted => exact ih h
    | slot =>
      rcases h with h | ⟨hsnug, flat, rfl, hflat⟩
      · obtain ⟨front, rest, rfl, hfront, hrest⟩ := ih h
        exact ⟨front, rest, rfl, .inl hfront, hrest⟩
      · obtain ⟨front, rest, rfl, hfront, hrest⟩ := ih hflat
        rw [next_append] at hsnug
        exact ⟨[separator] ++ front, rest, rfl, .inr ⟨hsnug, front, rfl, hfront⟩,
          by rwa [getLast?_append_or]⟩
    | gap =>
      cases hsnug : isSnug before (next after (ps ++ qs)) with
      | true =>
        obtain ⟨front, rest, rfl, hfront, hrest⟩ := ih ((flattens_gap_of_isSnug hsnug).1 h)
        rw [next_append] at hsnug
        exact ⟨front, rest, rfl, (flattens_gap_of_isSnug hsnug).2 hfront, hrest⟩
      | false =>
        obtain ⟨flat, rfl, hflat⟩ := (flattens_gap hsnug).1 h
        obtain ⟨front, rest, rfl, hfront, hrest⟩ := ih hflat
        rw [next_append] at hsnug
        exact ⟨[separator] ++ front, rest, rfl, (flattens_gap hsnug).2 ⟨front, rfl, hfront⟩,
          by rwa [getLast?_append_or]⟩

/-- Two places for white space are one. -/
theorem flattens_gap_gap (h : Flattens before after (.gap :: ps) flat) :
    Flattens before after (.gap :: .gap :: ps) flat := by
  have hnext : next after (.gap :: ps) = next after ps := rfl
  cases hsnug : isSnug before (next after ps) with
  | true =>
    rw [flattens_gap_of_isSnug (by rw [hnext, hsnug])]
    exact h
  | false =>
    obtain ⟨rest, rfl, hrest⟩ := (flattens_gap hsnug).1 h
    rw [flattens_gap (by rw [hnext, hsnug])]
    exact ⟨rest, rfl, (flattens_gap_of_isSnug (isSnug_separator (next after ps))).2 hrest⟩

/-- The tokens of a directive leave no place for separators. -/
private theorem flattens_directive {d : Directive} (h : Flattens before after (d.parts ++ ps) flat) :
    Flattens before after (.directive d :: ps) flat := by
  obtain ⟨name, argument⟩ := d
  cases argument with
  | none =>
    obtain ⟨rest, rfl, hrest⟩ := h
    exact ⟨rest, by simp [Directive.text], by simpa [Directive.text] using hrest⟩
  | some argument =>
    obtain ⟨key, value⟩ := argument
    have hsnug (c : Option Char) : isSnug (some '(') c ∧ isSnug (some ':') c :=
      ⟨rfl, rfl⟩
    have hopen (b : Option Char) : isSnug b (some '(') := by simp [isSnug, isMark]
    have hcolon (b : Option Char) : isSnug b (some ':') := by simp [isSnug, isMark]
    have hclose (b : Option Char) : isSnug b (some ')') := by simp [isSnug, isMark]
    simp only [Directive.parts, List.cons_append, List.nil_append, Flattens, next, List.head?_cons,
      Option.some_or, List.getLast?_singleton, hsnug, hopen, hcolon, hclose] at h
    simp only [Bool.true_eq_false, false_and, or_false] at h
    obtain ⟨_, rfl, _, rfl, _, rfl, _, rfl, _, rfl, rest, rfl, hrest⟩ := h
    refine ⟨rest, by simp [Directive.text], ?_⟩
    rwa [Directive.getLast?_text rfl]

end

/-- Some parts, behind white space that was met already. -/
private def pending (gap : Bool) (ps : List Part) : List Part := if gap then .gap :: ps else ps

/-- Parts that begin alike are alike behind a gap, if they are without one. -/
private theorem flattens_pending {ps ps' : List Part} (hnext : next none ps' = next none ps)
    (h : ∀ before flat, Flattens before none ps flat → Flattens before none ps' flat) {before : Option Char}
    {gap : Bool} {flat : Text} (hflat : Flattens before none (pending gap ps) flat) :
    Flattens before none (pending gap ps') flat := by
  cases gap with
  | false => exact h before flat hflat
  | true =>
    simp only [pending, if_true, Flattens, hnext] at hflat ⊢
    split_ifs at hflat ⊢
    · exact h before flat hflat
    · obtain ⟨rest, rfl, hrest⟩ := hflat
      exact ⟨rest, rfl, h _ _ hrest⟩

/-- A token stands behind one separator, or none if it is snug. -/
private theorem flattens_pending_token {t : Text} {ps : List Part} {flat : Text} (hne : t ≠ [])
    (h : Flattens t.getLast? none ps flat) (before : Option Char) (gap : Bool) :
    Flattens before none (pending gap (.token t :: ps))
      ((if gap && !isSnug before t.head? then [separator] else []) ++ (t ++ flat)) := by
  obtain ⟨c, tail, rfl⟩ := List.exists_cons_of_ne_nil hne
  have hrest (before : Option Char) :
      Flattens before none (.token (c :: tail) :: ps) (c :: tail ++ flat) := by
    refine ⟨flat, rfl, ?_⟩
    rw [List.getLast?_cons] at h ⊢
    exact h
  cases gap with
  | false => exact hrest before
  | true =>
    cases hsnug : isSnug before (c :: tail).head? with
    | true => exact (flattens_gap_of_isSnug hsnug).2 (hrest before)
    | false => exact (flattens_gap hsnug).2 ⟨_, rfl, hrest _⟩

/-- Every layout of some parts has a flat text of theirs. -/
private theorem flattens_of_fills {ps : List Part} {bits : List Bit} (h : Fills ps bits)
    (hread : ∀ b ∈ bits, ∃ after, b.IsRead after) (before : Option Char) (gap : Bool) :
    Flattens before none (pending gap ps) (tighten before gap (bits.flatMap Bit.core)) := by
  -- `gap` says whether white space was met that has left no separator yet
  induction h generalizing before gap with
  | nil =>
    cases gap with
    | false => simp [pending, Flattens, tighten]
    | true => cases hsnug : isSnug before none <;> simp [pending, Flattens, tighten, next, hsnug]
  | @token t ps bits hne h ih =>
    obtain ⟨ht, hbits⟩ := List.forall_mem_append.1 hread
    have hblank : ∀ c ∈ t, isBlank c = false := by
      intro c hc
      obtain ⟨after, hcread⟩ := ht (.solid c) (List.mem_map_of_mem hc)
      exact hcread.1
    have hcore : (t.map Bit.solid).flatMap Bit.core = t := by
      rw [List.flatMap_map]
      exact List.flatMap_singleton' t
    rw [List.flatMap_append, hcore, tighten_token hne hblank]
    exact flattens_pending_token hne (ih hbits t.getLast? false) before gap
  | @quoted b ps bits hb h ih =>
    obtain ⟨-, hbits⟩ := List.forall_mem_cons.1 hread
    have hcore : b.core = [] := by cases b <;> simp_all [Bit.core, Bit.isQuoted, Bit.isBlock]
    rw [List.flatMap_cons, hcore, List.nil_append]
    refine flattens_pending ?_ ?_ (ih hbits before gap)
    · rfl
    · exact fun _ _ h => h
  | directive h ih =>
    refine flattens_pending ?_ (fun _ _ => flattens_directive) (ih hread before gap)
    rfl
  | @slot space ps bits hspace h ih =>
    obtain ⟨hreadSpace, hbits⟩ := List.forall_mem_append.1 hread
    have hpending := ih hbits before (gap || space.any (·.core ≠ []))
    rw [List.flatMap_append, tighten_space hspace hreadSpace]
    cases gap with
    | true =>
      refine flattens_pending ?_ ?_ hpending
      · rfl
      · exact fun _ _ h => Or.inl h
    | false =>
      cases hblank : space.any (·.core ≠ []) with
      | true =>
        rw [hblank] at hpending
        exact flattens_slot_of_gap hpending
      | false =>
        rw [hblank] at hpending
        exact .inl hpending
  | @gap space ps bits hspace hblank h ih =>
    obtain ⟨hreadSpace, hbits⟩ := List.forall_mem_append.1 hread
    have hany : space.any (·.core ≠ []) = true := by
      obtain ⟨c, hc⟩ := hblank
      exact List.any_eq_true.2 ⟨.blank c, hc, by simp [Bit.core]⟩
    have hpending := ih hbits before true
    rw [List.flatMap_append, tighten_space hspace hreadSpace, hany, Bool.or_true]
    cases gap with
    | false => exact hpending
    | true => exact flattens_gap_gap hpending

/-- Every layout of some parts flattens to a flat text of theirs. -/
theorem flattens_flatten {ps : List Part} {bits : List Bit} (h : Fills ps bits)
    (hread : AreRead bits) : Flattens none none ps (flatten (written bits)) := by
  rw [flatten_written hread]
  exact flattens_of_fills h (exists_isRead hread) none false

/-! ## Braces in layouts -/

/-- A constant as it can stand behind a key: a word or a number. -/
structure IsLiteral (t : Text) : Prop where
  ne_nil : t ≠ []
  chars : ∀ c ∈ t, isAscii c && (isWord c || c = '-' || c = '+' || c = '.')

instance (t : Text) : Decidable (IsLiteral t) :=
  decidable_of_iff
    (t ≠ [] ∧ ∀ c ∈ t, isAscii c && (isWord c || c = '-' || c = '+' || c = '.'))
    ⟨fun h => ⟨h.1, h.2⟩, fun h => ⟨h.1, h.2⟩⟩

theorem IsIdentifier.isLiteral {t : Text} (h : IsIdentifier t) : IsLiteral t := by
  refine ⟨h.ne_nil, fun c hc => ?_⟩
  have hchar := h.chars c hc
  simp only [Bool.and_eq_true, Bool.or_eq_true] at hchar ⊢
  exact ⟨hchar.1, .inl (.inl (.inl hchar.2))⟩

/-- The characters that structure a schema stand in no literal. -/
theorem IsLiteral.notMem {t : Text} (h : IsLiteral t) {c : Char}
    (hc : (isAscii c && (isWord c || c = '-' || c = '+' || c = '.')) = false) : c ∉ t := by
  intro hmem
  rw [h.chars c hmem] at hc
  exact Bool.noConfusion hc

/-- Whether the texts of a directive are words and numbers. -/
structure Directive.IsProper (d : Directive) : Prop where
  name : IsIdentifier d.name
  argument : ∀ key value, d.argument = some (key, value) → IsIdentifier key ∧ IsLiteral value

/-- How many braces deep the text is behind a part. -/
def Part.depth? (depth : Nat) : Part → Option Nat
  | .token t => depthAfter? depth (t.map .solid)
  | _ => some depth

/-- Whether parts close the braces that they open, and no others. -/
def Balanced (ps : List Part) : Prop := ∀ depth, ps.foldlM Part.depth? depth = some depth

theorem balanced_nil : Balanced [] := fun _ => rfl

/-- Balanced parts one behind the other are balanced. -/
theorem Balanced.append {ps qs : List Part} (hps : Balanced ps) (hqs : Balanced qs) :
    Balanced (ps ++ qs) := by
  intro depth
  rw [List.foldlM_append, hps depth]
  exact hqs depth

theorem Balanced.cons {part : Part} {ps : List Part} (hpart : Balanced [part]) (hps : Balanced ps) :
    Balanced (part :: ps) := hpart.append hps

/-- A row of balanced parts is balanced. -/
theorem balanced_flatMap {α : Type} {f : α → List Part} {xs : List α} (h : ∀ x ∈ xs, Balanced (f x)) :
    Balanced (xs.flatMap f) := by
  induction xs with
  | nil => exact balanced_nil
  | cons x xs ih =>
    obtain ⟨hx, hxs⟩ := List.forall_mem_cons.1 h
    exact hx.append (ih hxs)

/-- Characters that are no braces leave the depth as it is. -/
private theorem depthAfter?_solids {t : Text} (h : ∀ c ∈ t, c ≠ '{' ∧ c ≠ '}') (depth : Nat) :
    depthAfter? depth (t.map .solid) = some depth := by
  induction t with
  | nil => rfl
  | cons c t ih =>
    obtain ⟨⟨hopen, hclose⟩, ht⟩ := List.forall_mem_cons.1 h
    have hstep : Bit.depth? depth (.solid c) = some depth := by simp [Bit.depth?, hopen, hclose]
    have htail := ih ht
    simp only [depthAfter?, List.map_cons, List.foldlM_cons, hstep] at htail ⊢
    exact htail

/-- A token without braces is balanced. -/
theorem balanced_token {t : Text} (h : ∀ c ∈ t, c ≠ '{' ∧ c ≠ '}') : Balanced [.token t] := by
  intro depth
  simpa [Part.depth?] using depthAfter?_solids h depth

/-- A literal has no braces. -/
theorem IsLiteral.balanced {t : Text} (h : IsLiteral t) : Balanced [.token t] := by
  refine balanced_token fun c hc => ⟨?_, ?_⟩ <;> (rintro rfl; exact h.notMem (by decide) hc)

/-- No brace stands in the tokens of a directive. -/
theorem Directive.IsProper.balanced {d : Directive} (h : d.IsProper) : Balanced d.parts := by
  obtain ⟨name, argument⟩ := d
  obtain ⟨hname, hargument⟩ := h
  have hat : Balanced [.token ('@' :: name)] := by
    refine balanced_token fun c hc => ?_
    rcases List.mem_cons.1 hc with rfl | hc
    · decide
    · constructor <;> (rintro rfl; exact hname.isLiteral.notMem (by decide) hc)
  cases argument with
  | none => exact hat
  | some argument =>
    obtain ⟨hkey, hvalue⟩ := hargument argument.1 argument.2 rfl
    have hslot : Balanced [.slot] := fun _ => rfl
    have hmark {c : Char} (hc : c ≠ '{' ∧ c ≠ '}') : Balanced [.token [c]] :=
      balanced_token fun d hd => by rwa [List.mem_singleton.1 hd]
    exact hat.cons <| hslot.cons <| (hmark (by decide)).cons <| hslot.cons <|
      hkey.isLiteral.balanced.cons <| hslot.cons <| (hmark (by decide)).cons <| hslot.cons <|
      hvalue.balanced.cons <| hslot.cons (hmark (by decide))

/-- Space between parts leaves the depth as it is. -/
private theorem depthAfter?_space {space : List Bit} (h : ∀ b ∈ space, b.isSolid = false)
    (depth : Nat) : depthAfter? depth space = some depth := by
  induction space with
  | nil => rfl
  | cons b space ih =>
    obtain ⟨hb, hspace⟩ := List.forall_mem_cons.1 h
    cases b with
    | solid c => exact absurd hb (by simp [Bit.isSolid])
    | blank | comma | comment | quoted | block => exact ih hspace

/-- Only tokens hold braces that count. -/
theorem depthAfter?_of_fills {ps : List Part} {bits : List Bit} (h : Fills ps bits)
    (hproper : ∀ d, .directive d ∈ ps → d.IsProper) (depth : Nat) :
    depthAfter? depth bits = ps.foldlM Part.depth? depth := by
  -- a directive is filled part by part, so that its case goes on with the parts of the directive
  induction h generalizing depth with
  | nil => rfl
  | @token t ps bits hne h ih =>
    have htail : ∀ d, .directive d ∈ ps → d.IsProper := fun d hd => hproper d (by simp [hd])
    rw [depthAfter?_append, List.foldlM_cons]
    exact congrArg _ (funext fun middle => ih htail middle)
  | @quoted b ps bits hb h ih =>
    have htail : ∀ d, .directive d ∈ ps → d.IsProper := fun d hd => hproper d (by simp [hd])
    have hsolid : b.isSolid = false := by cases b <;> simp_all [Bit.isSolid, Bit.isQuoted, Bit.isBlock]
    rw [← List.singleton_append, depthAfter?_append,
      depthAfter?_space fun b' hb' => by rwa [List.mem_singleton.1 hb'], List.foldlM_cons]
    exact ih htail depth
  | @directive d ps bits h ih =>
    have hd : Balanced d.parts := (hproper d (by simp)).balanced
    rw [ih ?_ depth, List.foldlM_append, hd depth]
    · rfl
    · intro d' hd'
      rcases List.mem_append.1 hd' with hd' | hd'
      · exact absurd hd' (d.directive_notMem_parts d')
      · exact hproper d' (by simp [hd'])
  | @slot space ps bits hspace h ih =>
    have htail : ∀ d, .directive d ∈ ps → d.IsProper := fun d hd => hproper d (by simp [hd])
    rw [depthAfter?_append, depthAfter?_space hspace, List.foldlM_cons]
    exact ih htail depth
  | @gap space ps bits hspace hblank h ih =>
    have htail : ∀ d, .directive d ∈ ps → d.IsProper := fun d hd => hproper d (by simp [hd])
    rw [depthAfter?_append, depthAfter?_space hspace, List.foldlM_cons]
    exact ih htail depth

end Scaffold.Schema
