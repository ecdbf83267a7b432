import Scaffold.Proofs.Schema.Patterns

/-!
# Declared fields and how they are printed

The fields of a root type as a schema declares them: arguments with default values and directives, and a
response. A field is printed in parts (`FieldDecl.parts`), in which braces are balanced and directives
can be told from what is around them (`tidy_interiorParts`).
-/

namespace Scaffold.Schema

open Text

/-! ## Declarations -/

/-- The layouts of a constant, by its tokens: a number, a word such as a Boolean or the value of an
enumeration, a string, a list, or an object. -/
inductive IsConstant : List Part → Prop
  | literal {t : Text} (h : IsLiteral t) : IsConstant [.token t]
  | quoted : IsConstant [.quoted]
  | list {items : List (List Part)} (h : ∀ item ∈ items, IsConstant item) :
      IsConstant
        (.token ['['] :: (items.flatMap fun item => .slot :: item) ++ [.slot, .token [']']])
  | object {fields : List (Text × List Part)} (hkeys : ∀ field ∈ fields, IsIdentifier field.1)
      (h : ∀ field ∈ fields, IsConstant field.2) :
      IsConstant
        (.token ['{'] :: (fields.flatMap fun field =>
          .slot :: .token field.1 :: .slot :: .token [':'] :: .slot :: field.2) ++
          [.slot, .token ['}']])

/-- A default value behind its sign `=`. -/
structure Default where
  /-- White space stands in front of the sign. -/
  spaced : Bool
  /-- The tokens of the value. -/
  value : List Part

/-- An argument as it is declared. -/
structure ArgumentDecl extends Argument where
  default : Option Default
  directives : List Directive

/-- A field of a root type as it is declared. -/
structure FieldDecl where
  name : Text
  args : List ArgumentDecl
  response : Text
  /-- The response must not be null. -/
  required : Bool
  directives : List Directive

/-- Whether an argument can be printed. -/
structure ArgumentDecl.IsProper (a : ArgumentDecl) : Prop where
  name : IsIdentifier a.name
  type : a.toTypeRef.IsProper
  default : ∀ d ∈ a.default, IsConstant d.value
  directives : ∀ d ∈ a.directives, d.IsProper

/-- Whether a field can be printed. -/
structure FieldDecl.IsProper (f : FieldDecl) : Prop where
  name : IsIdentifier f.name
  args : ∀ a ∈ f.args, a.IsProper
  response : IsIdentifier f.response
  directives : ∀ d ∈ f.directives, d.IsProper

/-! ## Printing -/

/-- Parts with places for white space between them. -/
def separated : List (List Part) → List Part
  | [] => []
  | ps :: pss => ps ++ pss.flatMap fun ps => .gap :: ps

/-- The parts of a default: `=` and the value, with white space in front where the layout has some.
-/
def Default.parts (d : Default) : List Part :=
  (if d.spaced then [.gap] else []) ++ .token ['='] :: .slot :: d.value

/-- The parts of an argument. White space is a must in front of a directive only. -/
def ArgumentDecl.parts (a : ArgumentDecl) : List Part :=
  .token a.name :: .slot :: .token [':'] :: .slot :: a.toTypeRef.parts ++
    (a.default.elim [] Default.parts ++ a.directives.flatMap fun d => [.gap, .directive d])

/-- The arguments of a field between parentheses; without arguments there are none. -/
def FieldDecl.group (f : FieldDecl) : List Part :=
  if f.args = [] then []
  else
    .slot :: .token ['('] :: .slot :: separated (f.args.map ArgumentDecl.parts) ++
      [.slot, .token [')']]

/-- The parts of a field: its name, its arguments, its response and its directives. -/
def FieldDecl.parts (f : FieldDecl) : List Part :=
  .token f.name :: f.group ++ .slot :: .token [':'] :: .slot :: .token f.response ::
    TypeRef.markParts f.required ++ f.directives.flatMap fun d => [.slot, .directive d]

/-- The interior of a type block with some fields. -/
def interiorParts (fs : List FieldDecl) : List Part :=
  .slot :: (separated (fs.map FieldDecl.parts) ++ if fs = [] then [] else [.slot])

/-! ## Tame parts -/

/-- Whether a part is no directive, and neither opens nor closes a group. -/
def Part.IsTame : Part → Prop
  | .token t => ∀ c ∈ t, c ≠ '(' ∧ c ≠ ')' ∧ c ≠ '@'
  | .directive _ => False
  | _ => True

/-- A literal holds none of the characters that the passes over the schema look for. -/
theorem IsLiteral.isTame {t : Text} (h : IsLiteral t) : (Part.token t).IsTame := by
  refine fun c hc => ⟨?_, ?_, ?_⟩ <;> (rintro rfl; exact h.notMem (by decide) hc)

theorem tame_markParts (required : Bool) : ∀ part ∈ TypeRef.markParts required, part.IsTame := by
  cases required <;> simp [TypeRef.markParts, Part.IsTame]

/-- The text of a type is tame. -/
theorem tame_type {t : TypeRef} (h : t.IsProper) : ∀ part ∈ t.parts, part.IsTame := by
  have hname := h.typeName.isLiteral.isTame
  unfold TypeRef.parts
  split_ifs
  · simp only [List.forall_mem_append, List.forall_mem_cons]
    refine ⟨⟨⟨⟨?_, trivial, hname, by simp⟩, tame_markParts _⟩, trivial, ?_, by simp⟩, tame_markParts _⟩
      <;> simp [Part.IsTame]
  · exact List.forall_mem_cons.2 ⟨hname, tame_markParts _⟩

/-- The constants of the grammar are tame, the quoted ones as parts of their own. -/
theorem tame_constant {ps : List Part} (h : IsConstant ps) : ∀ part ∈ ps, part.IsTame := by
  induction h with
  | literal h => simpa using h.isTame
  | quoted => simp [Part.IsTame]
  | @list items h ih =>
    simp only [List.forall_mem_append, List.forall_mem_cons, List.forall_mem_flatMap]
    refine ⟨⟨?_, fun item hitem => ⟨trivial, ih item hitem⟩⟩, trivial, ?_, by simp⟩ <;>
      simp [Part.IsTame]
  | @object fields hkeys h ih =>
    simp only [List.forall_mem_append, List.forall_mem_cons, List.forall_mem_flatMap]
    refine ⟨⟨?_, fun field hfield => ⟨trivial, (hkeys field hfield).isLiteral.isTame, trivial, ?_,
      trivial, ih field hfield⟩⟩, trivial, ?_, by simp⟩ <;> simp [Part.IsTame]

/-- A default is tame if its value is a constant. -/
theorem tame_default {d : Default} (h : IsConstant d.value) : ∀ part ∈ d.parts, part.IsTame := by
  simp only [Default.parts, List.forall_mem_append, List.forall_mem_cons]
  refine ⟨?_, by simp [Part.IsTame], trivial, tame_constant h⟩
  cases d.spaced <;> simp [Part.IsTame]

/-! ## Braces -/

private theorem balanced_mark {c : Char} (h : c ≠ '{' ∧ c ≠ '}') : Balanced [.token [c]] :=
  balanced_token fun d hd => by rwa [List.mem_singleton.1 hd]

private theorem balanced_slot : Balanced [.slot] := fun _ => rfl

private theorem balanced_gap : Balanced [.gap] := fun _ => rfl

/-- A list of balanced declarations is balanced. -/
theorem balanced_separated {pss : List (List Part)} (h : ∀ ps ∈ pss, Balanced ps) :
    Balanced (separated pss) := by
  cases pss with
  | nil => exact balanced_nil
  | cons ps pss =>
    obtain ⟨hps, hpss⟩ := List.forall_mem_cons.1 h
    exact hps.append (balanced_flatMap fun ps hmem => balanced_gap.cons (hpss ps hmem))

private theorem balanced_markParts (required : Bool) : Balanced (TypeRef.markParts required) := by
  cases required with
  | false => exact balanced_nil
  | true => exact balanced_slot.cons (balanced_mark (by decide))

/-- The text of a type has no braces. -/
theorem balanced_type {t : TypeRef} (h : t.IsProper) : Balanced t.parts := by
  have hname := h.typeName.isLiteral.balanced
  unfold TypeRef.parts
  split_ifs
  · exact (((balanced_mark (by decide)).cons (balanced_slot.cons hname)).append
      (balanced_markParts _)).append (balanced_slot.cons (balanced_mark (by decide)))
      |>.append (balanced_markParts _)
  · exact hname.cons (balanced_markParts _)

/-- Braces in a constant come in pairs. Only an object has any. -/
theorem balanced_constant {ps : List Part} (h : IsConstant ps) : Balanced ps := by
  induction h with
  | literal h => exact h.balanced
  | quoted => exact fun _ => rfl
  | @list items h ih =>
    exact ((balanced_mark (by decide)).cons
      (balanced_flatMap fun item hitem => balanced_slot.cons (ih item hitem))).append
      (balanced_slot.cons (balanced_mark (by decide)))
  | @object fields hkeys h ih =>
    -- one brace deeper, the fields are balanced
    have hfields : Balanced (fields.flatMap fun field =>
        .slot :: .token field.1 :: .slot :: .token [':'] :: .slot :: field.2) :=
      balanced_flatMap fun field hfield =>
        balanced_slot.cons <| (hkeys field hfield).isLiteral.balanced.cons <| balanced_slot.cons <|
          (balanced_mark (by decide)).cons <| balanced_slot.cons (ih field hfield)
    intro depth
    rw [List.cons_append, List.foldlM_cons]
    have hopen : Part.depth? depth (.token ['{']) = some (depth + 1) := rfl
    rw [hopen, Option.bind_eq_bind, Option.bind_some, List.foldlM_append, hfields (depth + 1)]
    rfl

/-- Directives open and close no braces. -/
theorem balanced_directives {place : Part} (hplace : Balanced [place]) (ds : List Directive) :
    Balanced (ds.flatMap fun d => [place, .directive d]) :=
  balanced_flatMap fun _ _ => hplace.cons fun _ => rfl

/-- An argument of the grammar leaves the depth of braces as it is. -/
theorem ArgumentDecl.IsProper.balanced {a : ArgumentDecl} (h : a.IsProper) : Balanced a.parts := by
  have hdefault : Balanced (a.default.elim [] Default.parts) := by
    cases hd : a.default with
    | none => exact balanced_nil
    | some d =>
      have hvalue := balanced_constant (h.default d hd)
      have hspace : Balanced (if d.spaced then [Part.gap] else []) := by
        cases d.spaced
        · exact balanced_nil
        · exact balanced_gap
      exact hspace.append ((balanced_mark (c := '=') (by decide)).cons (balanced_slot.cons hvalue))
  exact (h.name.isLiteral.balanced.cons <| balanced_slot.cons <|
    (balanced_mark (by decide)).cons <| balanced_slot.cons (balanced_type h.type)).append
      (hdefault.append (balanced_directives balanced_gap _))

/-- A field of the grammar leaves the depth of braces as it is. -/
theorem FieldDecl.IsProper.balanced {f : FieldDecl} (h : f.IsProper) : Balanced f.parts := by
  have hgroup : Balanced f.group := by
    unfold FieldDecl.group
    split_ifs
    · exact balanced_nil
    · refine (balanced_slot.cons <| (balanced_mark (by decide)).cons <|
        balanced_slot.cons (balanced_separated ?_)).append
          (balanced_slot.cons (balanced_mark (by decide)))
      simpa using fun a ha => (h.args a ha).balanced
  have hresponse : Balanced (.slot :: .token [':'] :: .slot :: .token f.response ::
      TypeRef.markParts f.required) :=
    balanced_slot.cons <| (balanced_mark (by decide)).cons <| balanced_slot.cons <|
      h.response.isLiteral.balanced.cons (balanced_markParts _)
  exact ((h.name.isLiteral.balanced.cons hgroup).append hresponse).append
    (balanced_directives balanced_slot _)

/-- The fields of a block leave the depth of braces as it is. -/
theorem balanced_interiorParts {fs : List FieldDecl} (h : ∀ f ∈ fs, f.IsProper) :
    Balanced (interiorParts fs) := by
  refine balanced_slot.cons ((balanced_separated ?_).append ?_)
  · simpa using fun f hf => (h f hf).balanced
  · split_ifs
    · exact balanced_nil
    · exact balanced_slot

/-! ## Directives between other parts -/

/-- Tame parts in front leave a row of parts tidy. -/
theorem tidy_append {ps qs : List Part} (hps : ∀ part ∈ ps, part.IsTame) (hqs : Tidy qs) :
    Tidy (ps ++ qs) := by
  induction ps with
  | nil => exact hqs
  | cons part ps ih =>
    obtain ⟨hpart, htail⟩ := List.forall_mem_cons.1 hps
    cases part with
    | token t => exact ⟨fun h => (hpart '@' h).2.2 rfl, ih htail⟩
    | directive d => exact hpart.elim
    | quoted | slot | gap => exact ih htail

/-- The directives of a tidy text are proper. -/
theorem Tidy.isProper {ps : List Part} (h : Tidy ps) : ∀ d, .directive d ∈ ps → d.IsProper := by
  induction ps with
  | nil => simp
  | cons part ps ih =>
    intro d hd
    cases part with
    | token t => exact ih h.2 d (by simpa using hd)
    | directive d' =>
      rcases List.mem_cons.1 hd with heq | hd
      · exact Part.directive.inj heq ▸ h.1
      · exact ih h.2.2 d hd
    | quoted | slot | gap => exact ih h d (by simpa using hd)

/-- White space and a directive end the directive before them. -/
theorem breaks_gap_directive (d : Directive) (ps : List Part) :
    Breaks (.gap :: .directive d :: ps) := by
  refine breaks_gap (x := '@') (by decide) ?_ rfl
  rintro before flat ⟨rest, rfl, -⟩
  simp [Directive.text]

/-- White space and a name end the directive before them. -/
theorem breaks_gap_token {t : Text} (h : IsIdentifier t) (ps : List Part) :
    Breaks (.gap :: .token t :: ps) := by
  obtain ⟨c, t, rfl⟩ := List.exists_cons_of_ne_nil h.ne_nil
  refine breaks_gap (x := c) ?_ ?_ rfl
  · rintro rfl
    exact h.isLiteral.notMem (c := '(') (by decide) List.mem_cons_self
  · rintro before flat ⟨rest, rfl, -⟩
    rfl

/-- A row of directives is tidy in front of parts that end a directive. -/
theorem tidy_directives {place : Part} (hplace : place = .slot ∨ place = .gap) {ds : List Directive}
    (hds : ∀ d ∈ ds, d.IsProper) {qs : List Part} (hqs : Tidy qs) (hbreaks : Breaks qs) :
    Tidy ((ds.flatMap fun d => [place, .directive d]) ++ qs) ∧
      Breaks ((ds.flatMap fun d => [place, .directive d]) ++ qs) := by
  induction ds with
  | nil => exact ⟨hqs, hbreaks⟩
  | cons d ds ih =>
    obtain ⟨hd, hds⟩ := List.forall_mem_cons.1 hds
    obtain ⟨htidy, hends⟩ := ih hds
    rcases hplace with rfl | rfl
    · exact ⟨⟨hd, hends, htidy⟩, breaks_slot_directive d _⟩
    · exact ⟨⟨hd, hends, htidy⟩, breaks_gap_directive d _⟩

/-- What stands between places for white space is tidy if each of them is. -/
theorem tidy_separated {α : Type} {f : α → List Part} {xs : List α}
    (htidy : ∀ x ∈ xs, ∀ qs, Tidy qs → Breaks qs → Tidy (f x ++ qs))
    (hbreaks : ∀ x ∈ xs, ∀ qs, Breaks (.gap :: (f x ++ qs))) {qs : List Part} (hqs : Tidy qs)
    (hends : Breaks qs) : Tidy (separated (xs.map f) ++ qs) := by
  cases xs with
  | nil => exact hqs
  | cons x xs =>
    have hrest : Tidy (((xs.map f).flatMap fun ps => .gap :: ps) ++ qs) ∧
        Breaks (((xs.map f).flatMap fun ps => .gap :: ps) ++ qs) := by
      have hxs : ∀ y ∈ xs, y ∈ x :: xs := fun y hy => List.mem_cons_of_mem x hy
      generalize x :: xs = ys at htidy hbreaks hxs
      induction xs with
      | nil => exact ⟨hqs, hends⟩
      | cons y xs ih =>
        obtain ⟨htail, hbreaksTail⟩ := ih fun z hz => hxs z (List.mem_cons_of_mem y hz)
        have hy := hxs y List.mem_cons_self
        simp only [List.map_cons, List.flatMap_cons, List.cons_append, List.append_assoc]
        exact ⟨htidy y hy _ htail hbreaksTail, hbreaks y hy _⟩
    simp only [List.map_cons, separated, List.append_assoc]
    exact htidy x List.mem_cons_self _ hrest.1 hrest.2

theorem ArgumentDecl.IsProper.tame_default_parts {a : ArgumentDecl} (h : a.IsProper) :
    ∀ part ∈ a.default.elim [] Default.parts, part.IsTame := by
  cases hd : a.default with
  | none => simp
  | some d => exact tame_default (h.default d hd)

/-- An argument of the grammar is tidy in front of tidy parts that end a directive. -/
theorem ArgumentDecl.IsProper.tidy {a : ArgumentDecl} (h : a.IsProper) {qs : List Part}
    (hqs : Tidy qs) (hbreaks : Breaks qs) : Tidy (a.parts ++ qs) := by
  obtain ⟨hdirectives, -⟩ := tidy_directives (.inr rfl) h.directives hqs hbreaks
  have htame : ∀ part ∈ .token a.name :: .slot :: .token [':'] :: .slot ::
      (a.toTypeRef.parts ++ a.default.elim [] Default.parts), part.IsTame := by
    simp only [List.forall_mem_cons, List.forall_mem_append]
    exact ⟨h.name.isLiteral.isTame, trivial, by simp [Part.IsTame], trivial, tame_type h.type,
      h.tame_default_parts⟩
  simpa [ArgumentDecl.parts] using tidy_append htame hdirectives

/-- A field of the grammar is tidy in front of tidy parts that end a directive. -/
theorem FieldDecl.IsProper.tidy {f : FieldDecl} (h : f.IsProper) {qs : List Part}
    (hqs : Tidy qs) (hbreaks : Breaks qs) : Tidy (f.parts ++ qs) := by
  obtain ⟨hdirectives, -⟩ := tidy_directives (.inl rfl) h.directives hqs hbreaks
  have hresponse : Tidy (.slot :: .token [':'] :: .slot :: .token f.response ::
      TypeRef.markParts f.required ++
        ((f.directives.flatMap fun d => [.slot, .directive d]) ++ qs)) := by
    refine tidy_append ?_ hdirectives
    simp only [List.forall_mem_cons]
    exact ⟨trivial, by simp [Part.IsTame], trivial, h.response.isLiteral.isTame, tame_markParts _⟩
  have hname : '@' ∉ f.name := h.name.isLiteral.notMem (by decide)
  -- from the end: what is behind a part has to be tidy before the part is
  have hgroup : Tidy (f.group ++ (.slot :: .token [':'] :: .slot :: .token f.response ::
      TypeRef.markParts f.required ++
        ((f.directives.flatMap fun d => [.slot, .directive d]) ++ qs))) := by
    unfold FieldDecl.group
    split_ifs
    · exact hresponse
    · have hclose : Tidy (.slot :: .token [')'] :: (.slot :: .token [':'] :: .slot ::
          .token f.response :: TypeRef.markParts f.required ++
            ((f.directives.flatMap fun d => [.slot, .directive d]) ++ qs))) := ⟨by decide, hresponse⟩
      have hargs := tidy_separated (fun a ha qs hqs hbreaks => (h.args a ha).tidy hqs hbreaks)
        (fun a ha qs => breaks_gap_token (h.args a ha).name _) hclose
        (breaks_slot (by decide) (by decide) _ _)
      have hopen : Tidy (.slot :: .token ['('] :: .slot :: (separated (f.args.map ArgumentDecl.parts) ++
          (.slot :: .token [')'] :: (.slot :: .token [':'] :: .slot :: .token f.response ::
            TypeRef.markParts f.required ++
              ((f.directives.flatMap fun d => [.slot, .directive d]) ++ qs))))) := ⟨by decide, hargs⟩
      simpa using hopen
  refine ⟨hname, ?_⟩
  simpa using hgroup

/-- In the interior of a type block, directives can be told from what is around them. -/
theorem tidy_interiorParts {fs : List FieldDecl} (h : ∀ f ∈ fs, f.IsProper) :
    Tidy (interiorParts fs) := by
  have hend : Tidy (if fs = [] then [] else [Part.slot]) ∧
      Breaks (if fs = [] then [] else [Part.slot]) := by
    split_ifs
    · exact ⟨trivial, breaks_nil⟩
    · exact ⟨trivial, breaks_slot_nil⟩
  exact tidy_separated (fun f hf qs hqs hbreaks => (h f hf).tidy hqs hbreaks)
    (fun f hf qs => breaks_gap_token (h f hf).name _) hend.1 hend.2

end Scaffold.Schema
