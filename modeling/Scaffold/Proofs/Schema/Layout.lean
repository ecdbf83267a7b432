import Scaffold.Proofs.Schema.Parts

/-!
# Layouts with given white space

Parts can be laid out with any white space at their places (`fills_layOut`), so that there is no
printed schema without a layout. Whether the result is read as it is written can be computed.
-/

namespace Scaffold.Schema

open Text

/-! ## Computing whether bits are read -/

instance (after : Text) : (b : Bit) → Decidable (b.IsRead after)
  | .solid c => inferInstanceAs (Decidable (isBlank c = false ∧ c ≠ ',' ∧ c ≠ '#' ∧ c ≠ '"'))
  | .blank c => inferInstanceAs (Decidable (isBlank c = true))
  | .comma => .isTrue trivial
  | .comment t =>
    inferInstanceAs (Decidable ((∀ c ∈ t, c ≠ '\n' ∧ c ≠ '"') ∧ after.head? = some '\n'))
  | .quoted t =>
    inferInstanceAs
      (Decidable ((∀ c ∈ t, c ≠ '\n' ∧ c ≠ '"') ∧ escapesWhole t = true ∧ after.head? ≠ some '"'))
  | .block t => inferInstanceAs (Decidable ('"' ∉ t))

instance decidableAreRead : (bits : List Bit) → Decidable (AreRead bits)
  | [] => .isTrue trivial
  | b :: bits =>
    have := decidableAreRead bits
    inferInstanceAs (Decidable (b.IsRead (written bits) ∧ AreRead bits))

/-! ## Laying out -/

/-- White space without documentation and commas. -/
def blanks (s : String) : List Bit := s.toList.map .blank

/-- A part in tokens and places. -/
def Part.expand : Part → List Part
  | .directive d => d.parts
  | part => [part]

/-- Tokens with given white space at the places between them, one after the other. A gap ends with a
blank, whatever it is given; where nothing more is given, a slot is empty. -/
def layOutExpanded : List Part → List (List Bit) → List Bit
  | [], _ => []
  | .token t :: ps, spaces => t.map .solid ++ layOutExpanded ps spaces
  | .quoted :: ps, spaces => .quoted [] :: layOutExpanded ps spaces
  | .directive _ :: ps, spaces => layOutExpanded ps spaces
  | .slot :: ps, spaces => spaces.headD [] ++ layOutExpanded ps spaces.tail
  | .gap :: ps, spaces => spaces.headD [] ++ [.blank ' '] ++ layOutExpanded ps spaces.tail

/-- Parts with given white space at their places, those inside directives included. -/
def layOut (ps : List Part) (spaces : List (List Bit)) : List Bit :=
  layOutExpanded (ps.flatMap Part.expand) spaces

/-- Whether a part is a token with characters, or a place. -/
def Part.isPlain : Part → Bool
  | .token t => t ≠ []
  | .directive _ => false
  | _ => true

/-- Spaces that take the places for white space, in order, lay out the parts. -/
theorem fills_layOutExpanded {ps : List Part} (h : ∀ part ∈ ps, part.isPlain)
    {spaces : List (List Bit)} (hspaces : ∀ space ∈ spaces, ∀ b ∈ space, b.isSolid = false) :
    Fills ps (layOutExpanded ps spaces) := by
  induction ps generalizing spaces with
  | nil => exact .nil
  | cons part ps ih =>
    obtain ⟨hpart, htail⟩ := List.forall_mem_cons.1 h
    have hspace : ∀ b ∈ spaces.headD [], b.isSolid = false := by
      cases spaces with
      | nil => simp
      | cons space spaces => exact hspaces space List.mem_cons_self
    have hrest := ih htail fun space hmem => hspaces space (List.mem_of_mem_tail hmem)
    cases part with
    | token t => exact .token (of_decide_eq_true hpart) (ih htail hspaces)
    | directive d => exact absurd hpart Bool.false_ne_true
    | quoted => exact .quoted (.inl rfl) (ih htail hspaces)
    | slot => exact .slot hspace hrest
    | gap =>
      refine .gap (List.forall_mem_append.2 ⟨hspace, by simp [Bit.isSolid]⟩) ⟨' ', by simp⟩ hrest

/-- Behind tokens and places, parts may be exchanged for others that have the same layouts. -/
private theorem fills_append {qs : List Part} (hqs : ∀ d, .directive d ∉ qs) {ps ps' : List Part}
    (h : ∀ bits, Fills ps bits → Fills ps' bits) {bits : List Bit} (hbits : Fills (qs ++ ps) bits) :
    Fills (qs ++ ps') bits := by
  induction qs generalizing bits with
  | nil => exact h bits hbits
  | cons part qs ih =>
    have hrest {bits : List Bit} (hbits : Fills (qs ++ ps) bits) : Fills (qs ++ ps') bits :=
      ih (fun d hd => hqs d (List.mem_cons_of_mem part hd)) hbits
    rw [List.cons_append] at hbits ⊢
    cases hbits with
    | token hne hbits => exact .token hne (hrest hbits)
    | quoted hb hbits => exact .quoted hb (hrest hbits)
    | directive hbits => exact absurd List.mem_cons_self (hqs _)
    | slot hspace hbits => exact .slot hspace (hrest hbits)
    | gap hspace hblank hbits => exact .gap hspace hblank (hrest hbits)

/-- A layout of the parts of directives is a layout of the directives. -/
theorem fills_of_fills_expand {ps : List Part} {bits : List Bit}
    (h : Fills (ps.flatMap Part.expand) bits) : Fills ps bits := by
  induction ps generalizing bits with
  | nil => exact h
  | cons part ps ih =>
    rw [List.flatMap_cons] at h
    cases part with
    | directive d => exact .directive (fills_append d.directive_notMem_parts (fun _ => ih) h)
    | token | quoted | slot | gap =>
      refine fills_append (fun d hd => ?_) (fun _ => ih) h
      simp [Part.expand] at hd

/-- What is laid out with spaces is a layout. -/
theorem fills_layOut {ps : List Part} (h : ∀ part ∈ ps.flatMap Part.expand, part.isPlain)
    {spaces : List (List Bit)} (hspaces : ∀ space ∈ spaces, ∀ b ∈ space, b.isSolid = false) :
    Fills ps (layOut ps spaces) :=
  fills_of_fills_expand (fills_layOutExpanded h hspaces)

end Scaffold.Schema
