import Scaffold.Naming.GoType
import Scaffold.Proofs.Naming.Recasing
import Scaffold.Proofs.Schema.Annotation

/-!
# Slices of lists of lists

What is read of an annotation has one flag for lists, so the Go type of a parameter has one slice where there
is a list, however deep lists stand in one another. It is the Go type of the annotation exactly if no list
stands in another one (`slices_parameterType`).
-/

namespace Scaffold

open Text

namespace Naming

variable {name s : Text}

/-- How many slice markers stand in a Go type. -/
def slices (goType : Text) : Nat := goType.tails.countP ("[]".toList.isPrefixOf ·)

theorem slices_cons {c : Char} (hc : c ≠ '[') (s : Text) : slices (c :: s) = slices s := by
  simp [slices, hc.symm]

theorem slices_append (s : Text) : slices ("[]".toList ++ s) = slices s + 1 := by
  simp [slices]

/-- Text without brackets has no slices. -/
theorem slices_of_notMem (h : '[' ∉ s) : slices s = 0 := by
  induction s with
  | nil => rfl
  | cons c s ih =>
    obtain ⟨hc, hs⟩ := not_or.1 (List.mem_cons.not.1 h)
    rw [slices_cons (Ne.symm hc), ih hs]

/-! ## Go types -/

/-- Only a bracket has a bracket for its small form. -/
theorem toLower_eq_bracket_iff {c : Char} : c.toLower = '[' ↔ c = '[' :=
  forall_letterCase (P := fun c => c.toLower = '[' ↔ c = '[') (by decide)
    (fun c _ hlower _ => by rw [hlower]) c

/-- Recasing brings in no brackets. -/
theorem bracket_notMem_recase (h : '[' ∉ name) : '[' ∉ recase name := by
  intro hmem
  have hlower : '[' ∈ (recase name).map Char.toLower :=
    List.mem_map.2 ⟨_, hmem, toLower_eq_bracket_iff.2 rfl⟩
  rw [map_toLower_recase] at hlower
  obtain ⟨c, hc, heq⟩ := List.mem_map.1 hlower
  exact h (toLower_eq_bracket_iff.1 heq ▸ hc)

/-- A type that is no list is no slice. -/
theorem slices_scalarType (h : '[' ∉ name) : slices (scalarType name) = 0 := by
  refine slices_of_notMem ?_
  rcases scalarType_cases name with hscalar | hmodel
  · have hall : ∀ row ∈ scalars, '[' ∉ row.2 := by decide
    exact hall _ hscalar
  · rw [hmodel]
    simpa [modelType, modelPackage] using bracket_notMem_recase h

/-- A pointer is no slice. -/
theorem slices_optionalType (token typeName : Text) (required : Bool) :
    slices (optionalType token typeName required) = slices token := by
  unfold optionalType
  split_ifs
  · rfl
  · exact slices_cons (by decide) token

/-- A list is one slice more than its elements. -/
theorem slices_listType (element typeName : Text) (listRequired : Bool) :
    slices (listType element typeName listRequired) = slices element + 1 := by
  rw [listType, slices_optionalType, slices_append]

/-- An optional type is the type, with a pointer in front or without. -/
theorem exists_optionalType_eq (token typeName : Text) (required : Bool) :
    ∃ wrap, optionalType token typeName required = wrap ++ token ∧ ∀ c ∈ wrap, c ∈ "*[]".toList := by
  unfold optionalType
  split_ifs
  · exact ⟨[], rfl, nofun⟩
  · exact ⟨['*'], rfl, by simp⟩

/-- The type of the name comes last in the Go type of a parameter. -/
theorem exists_parameterType_eq (t : TypeRef) :
    ∃ wrap, parameterType t = wrap ++ scalarType t.typeName ∧ ∀ c ∈ wrap, c ∈ "*[]".toList := by
  obtain ⟨inner, hinner, hchars⟩ := exists_optionalType_eq (scalarType t.typeName) t.typeName t.required
  unfold parameterType
  split_ifs
  · obtain ⟨outer, houter, hchars'⟩ :=
      exists_optionalType_eq ("[]".toList ++ (inner ++ scalarType t.typeName)) t.typeName t.isListRequired
    refine ⟨outer ++ ("[]".toList ++ inner), ?_, ?_⟩
    · rw [listType, hinner, houter, List.append_assoc, List.append_assoc]
    · exact List.forall_mem_append.2 ⟨hchars', List.forall_mem_append.2 ⟨by simp, hchars⟩⟩
  · exact ⟨inner, hinner, hchars⟩

end Naming

/-! ## Annotations -/

namespace Schema

open Naming

variable {t : NestedType} {s : Text}

/-- The Go type that an annotation asks for, list by list. -/
def NestedType.goType : NestedType → Text
  | .name n required => optionalType (scalarType n) n required
  | .list element required => listType element.goType element.baseName required

/-- A nested type has as many slices as it has lists. -/
theorem slices_goType (h : '[' ∉ t.baseName) : slices t.goType = t.depth := by
  induction t with
  | name n required => exact (slices_optionalType _ n required).trans (slices_scalarType h)
  | list element required ih => rw [NestedType.goType, slices_listType, ih h, NestedType.depth]

/-- Only lists are lost when a nested type is read. -/
theorem typeName_innermost (t : NestedType) : t.innermost.typeName = t.baseName := by
  fun_induction NestedType.innermost t with
  | case1 => rfl
  | case2 => rfl
  | case3 element required outer ih => exact ih

/-- A list that stands in no other has its own Go type. -/
theorem parameterType_innermost (h : t.depth ≤ 1) : parameterType t.innermost = t.goType := by
  cases t with
  | name n required => rfl
  | list element required =>
    cases element with
    | name n required => rfl
    | list element required => simp [NestedType.depth] at h

/-- Of the lists of a nested type one is read, if there is any. -/
theorem slices_innermost (h : '[' ∉ t.baseName) :
    slices (parameterType t.innermost) = min t.depth 1 := by
  fun_induction NestedType.innermost t with
  | case1 n required =>
    have hflat : (NestedType.name n required).depth ≤ 1 := Nat.zero_le 1
    exact (congrArg slices (parameterType_innermost hflat)).trans (slices_goType h)
  | case2 n required outer =>
    have hflat : (NestedType.list (.name n required) outer).depth ≤ 1 := le_rfl
    exact (congrArg slices (parameterType_innermost hflat)).trans (slices_goType h)
  -- beyond the second level nothing is added, and one list is left
  | case3 element required outer ih =>
    rw [ih h]
    simp only [NestedType.depth]
    omega

/-- However deep lists stand in one another, the Go type of a parameter has one slice if there is a list and
none if there is not, in front of the type of the name. So it has as many slices as the annotation has lists,
and is the Go type that the annotation asks for, exactly if no list stands in another one. -/
theorem slices_parameterType (h : Spells t s) :
    (∃ wrap, parameterType (readType s) = wrap ++ scalarType t.baseName ∧
      ∀ c ∈ wrap, c ∈ "*[]".toList) ∧
    slices (parameterType (readType s)) = min t.depth 1 ∧
    (slices (parameterType (readType s)) = t.depth ↔ t.depth ≤ 1) ∧
    (parameterType (readType s) = t.goType ↔ t.depth ≤ 1) := by
  have hbracket : '[' ∉ t.baseName := h.isBareName.notMem (by decide)
  have hslices := slices_innermost hbracket
  rw [h.readType_eq]
  refine ⟨?_, hslices, by omega, fun heq => ?_, parameterType_innermost⟩
  · rw [← typeName_innermost]
    exact exists_parameterType_eq t.innermost
  · rw [heq, slices_goType hbracket] at hslices
    omega

/-- A list of lists of marked elements keeps the marks of the inner list. -/
theorem slices_parameterType_matrix :
    parameterType (readType "[ [Int!] ]!".toList) = "*[]int".toList ∧
      slices (parameterType (readType "[ [Int!] ]!".toList)) = 1 := by
  have hname : Spells (.name "Int".toList true) "Int!".toList := .name (by decide) [] nofun true
  have hrow : Spells (.list (.name "Int".toList true) false) "[Int!]".toList :=
    hname.list [] [] [] nofun nofun nofun false
  have hmatrix : Spells (.list (.list (.name "Int".toList true) false) true) "[ [Int!] ]!".toList :=
    hrow.list [' '] [' '] [] (by decide) (by decide) nofun true
  obtain ⟨-, hslices, -, -⟩ := slices_parameterType hmatrix
  exact ⟨by decide, hslices⟩

/-- Two lists and one slice. -/
theorem slices_ne_depth :
    let matrix : NestedType := .list (.list (.name "Int".toList false) false) false
    Spells matrix "[[Int]]".toList ∧
      slices (parameterType (readType "[[Int]]".toList)) ≠ matrix.depth := by
  intro matrix
  have hname : Spells (.name "Int".toList false) "Int".toList := .name (by decide) [] nofun false
  have hrow := hname.list [] [] [] nofun nofun nofun false
  exact ⟨hrow.list [] [] [] nofun nofun nofun false, by decide⟩

end Schema

end Scaffold
