import Scaffold.Proofs.Schema.Parts
import Scaffold.Proofs.Schema.Registering

/-!
# Annotations and their printed form

A type is printed as its name, with brackets around it for a list and a mark behind what must not be
null. Reading the printed form gives the type back (`readType_text`). Annotations may hold lists of lists:
brackets around a list change nothing (`readType_around`), and what is kept of an annotation is its innermost
list, with the marks of that list and of its elements (`Spells.readType_eq`).
-/

namespace Scaffold

open Text Schema

namespace TypeRef

/-- The mark of what must not be null. -/
def mark (required : Bool) : Text := if required then ['!'] else []

def markParts (required : Bool) : List Part := if required then [.slot, .token ['!']] else []

/-- An annotation without white space. -/
def text (t : TypeRef) : Text :=
  if t.isList then '[' :: t.typeName ++ mark t.required ++ ']' :: mark t.isListRequired
  else t.typeName ++ mark t.required

/-- An annotation in tokens. White space may stand inside brackets and before marks. -/
def parts (t : TypeRef) : List Part :=
  if t.isList then
    [.token ['['], .slot, .token t.typeName] ++ markParts t.required ++
      [.slot, .token [']']] ++ markParts t.isListRequired
  else .token t.typeName :: markParts t.required

/-- Whether a type can be annotated: its name is a word, and only a list has an outer mark. -/
structure IsProper (t : TypeRef) : Prop where
  typeName : IsIdentifier t.typeName
  list : t.isListRequired → t.isList

end TypeRef

/-- An argument as it stands between separators. -/
def Argument.item (a : Argument) : Text := a.name ++ ':' :: a.toTypeRef.text

namespace Text

variable {s : Text}

theorem trimStart_of_solid (h : ∀ c ∈ s, isBlank c = false) : trimStart s = s := by
  cases s with
  | nil => rfl
  | cons c s => exact trimStart_cons_of_not_blank (h c List.mem_cons_self) s

theorem trimEnd_of_solid (h : ∀ c ∈ s, isBlank c = false) : trimEnd s = s := by
  cases hlast : s.getLast? with
  | none =>
    obtain rfl := List.getLast?_eq_none_iff.1 hlast
    rfl
  | some c => exact trimEnd_eq_self hlast (h c (List.mem_of_getLast? hlast))

/-- Text without blanks is not trimmed. -/
theorem trim_of_solid (h : ∀ c ∈ s, isBlank c = false) : trim s = s := by
  rw [trim, trimStart_of_solid h, trimEnd_of_solid h]

/-- Trimming takes nothing but white space. -/
theorem mem_trim {s : Text} {c : Char} (hc : c ∈ s) (hblank : isBlank c = false) : c ∈ trim s := by
  have hdrop {t : Text} (ht : c ∈ t) : c ∈ t.dropWhile isBlank := by
    rw [← List.takeWhile_append_dropWhile (p := isBlank) (l := t)] at ht
    refine (List.mem_append.1 ht).resolve_left fun htake => ?_
    rw [List.mem_takeWhile_imp htake] at hblank
    exact Bool.noConfusion hblank
  have hstart : c ∈ trimStart s := hdrop hc
  have hend : c ∈ ((trimStart s).reverse.dropWhile isBlank).reverse :=
    List.mem_reverse.2 (hdrop (List.mem_reverse.2 hstart))
  exact hend

end Text

namespace Schema

/-! ## Annotations of any depth -/

/-- An annotation: a name, or a list of what another annotation says, and whether it has a mark. -/
inductive NestedType where
  | name (name : Text) (required : Bool)
  | list (element : NestedType) (required : Bool)

namespace NestedType

/-- How many lists stand in one another. -/
def depth : NestedType → Nat
  | name _ _ => 0
  | list element _ => element.depth + 1

/-- The name inside all lists. -/
def baseName : NestedType → Text
  | name n _ => n
  | list element _ => element.baseName

/-- The innermost list, or the name where there is no list. -/
def innermost : NestedType → TypeRef
  | name n required => ⟨n, required, false, false⟩
  | list (name n required) isListRequired => ⟨n, required, true, isListRequired⟩
  | list (list element required) _ => (list element required).innermost

end NestedType

/-- A mark with the white space in front of it, or nothing. -/
def spacedMark (blank : Text) (required : Bool) : Text := if required then blank ++ ['!'] else []

/-- The texts of an annotation. White space may stand inside brackets and before marks. -/
inductive Spells : NestedType → Text → Prop
  | name {n : Text} (hname : IsBareName n) (blank : Text) (hblank : ∀ c ∈ blank, isBlank c)
      (required : Bool) : Spells (.name n required) (n ++ spacedMark blank required)
  | list {t : NestedType} {s : Text} (h : Spells t s) (front back blank : Text)
      (hfront : ∀ c ∈ front, isBlank c) (hback : ∀ c ∈ back, isBlank c) (hblank : ∀ c ∈ blank, isBlank c)
      (required : Bool) :
      Spells (.list t required) ('[' :: (front ++ s ++ back ++ ']' :: spacedMark blank required))

section

variable {t : NestedType} {n s element rest front back blank : Text} {required : Bool}

/-! ## Reading annotations -/

theorem notMem_of_isBlank {c : Char} (hc : isBlank c = false) (h : ∀ c ∈ s, isBlank c) : c ∉ s :=
  fun hmem => Bool.noConfusion ((h c hmem).symm.trans hc)

theorem IsBareName.notMem {c : Char} (h : IsBareName n) (hc : isWord c = false) : c ∉ n :=
  fun hmem => Bool.noConfusion ((h.2 c hmem).symm.trans hc)

/-- A bare name ends in a character that is neither blank nor a mark. -/
theorem IsBareName.exists_getLast? (h : IsBareName n) :
    ∃ c, n.getLast? = some c ∧ isBlank c = false ∧ c ≠ '!' := by
  refine ⟨n.getLast h.1, List.getLast?_eq_some_getLast h.1, ?_, ?_⟩
  · exact not_isBlank_of_isWord (h.2 _ (List.getLast_mem h.1))
  · exact fun heq => h.notMem (c := '!') (by decide) (heq ▸ List.getLast_mem h.1)

theorem endsWith_iff_getLast? {c : Char} : endsWith [c] s ↔ s.getLast? = some c := by
  cases s using List.reverseRecOn with
  | nil => simp [endsWith, after?]
  | append_singleton s d => by_cases hd : c = d <;> simp [endsWith, after?, hd, eq_comm]

/-- A mark behind blanks stays when the end is trimmed. -/
theorem trimEnd_spacedMark {c : Char} (hlast : s.getLast? = some c) (hc : isBlank c = false)
    (blank : Text) (required : Bool) :
    trimEnd (s ++ spacedMark blank required) = s ++ spacedMark blank required := by
  cases required with
  | false => simpa [spacedMark] using trimEnd_eq_self hlast hc
  | true => exact trimEnd_eq_self (c := '!') (by simp [spacedMark]) (by decide)

/-- The last character tells whether the type is required. -/
theorem endsWith_spacedMark {c : Char} (hlast : s.getLast? = some c) (hc : c ≠ '!')
    (blank : Text) (required : Bool) : endsWith ['!'] (s ++ spacedMark blank required) = required := by
  rw [Bool.eq_iff_iff, endsWith_iff_getLast?]
  cases required <;> simp [spacedMark, hlast, hc]

/-- Behind blanks, the first character tells whether the type is required. -/
theorem head_trimStart_spacedMark (hblank : ∀ c ∈ blank, isBlank c) :
    decide ((trimStart (spacedMark blank required)).head? = some '!') = required := by
  cases required with
  | false => rfl
  | true =>
    rw [spacedMark, if_pos rfl, trimStart_append_of_blank hblank]
    rfl

/-- Without its mark, only the blanks of a spaced mark remain. -/
theorem isBlank_filter_spacedMark (hblank : ∀ c ∈ blank, isBlank c) :
    ∀ c ∈ (spacedMark blank required).filter (!isTypeMark ·), isBlank c := by
  intro c hc
  obtain ⟨hmem, hmark⟩ := List.mem_filter.1 hc
  cases required with
  | false => simp [spacedMark] at hmem
  | true =>
    rcases List.mem_append.1 hmem with hmem | hmem
    · exact hblank c hmem
    · rw [List.mem_singleton.1 hmem] at hmark
      exact absurd hmark (by decide)

/-- Outer brackets and white space do not belong to the name. -/
theorem trim_filter_around (hfront : ∀ c ∈ front, isBlank c) (hback : ∀ c ∈ back, isBlank c)
    (hblank : ∀ c ∈ blank, isBlank c) :
    trim (('[' :: (front ++ s ++ back ++ ']' :: spacedMark blank required)).filter (!isTypeMark ·)) =
      trim (s.filter (!isTypeMark ·)) := by
  have hkept {b : Text} (hb : ∀ c ∈ b, isBlank c) : ∀ c ∈ b.filter (!isTypeMark ·), isBlank c :=
    fun c hc => hb c (List.mem_of_mem_filter hc)
  have htail : ∀ c ∈ back.filter (!isTypeMark ·) ++ (spacedMark blank required).filter (!isTypeMark ·),
      isBlank c := List.forall_mem_append.2 ⟨hkept hback, isBlank_filter_spacedMark hblank⟩
  have hbrackets : isTypeMark '[' = true ∧ isTypeMark ']' = true := by decide
  have hfilter : ('[' :: (front ++ s ++ back ++ ']' :: spacedMark blank required)).filter (!isTypeMark ·) =
      front.filter (!isTypeMark ·) ++ s.filter (!isTypeMark ·) ++
        (back.filter (!isTypeMark ·) ++ (spacedMark blank required).filter (!isTypeMark ·)) := by
    simp [hbrackets]
  rw [hfilter, trim_append_of_blank (hkept hfront) htail]

/-- Without the marks and trimmed, the spelling of a name is the name. -/
theorem trim_filter_name (hname : IsBareName n) (hblank : ∀ c ∈ blank, isBlank c) :
    trim ((n ++ spacedMark blank required).filter (!isTypeMark ·)) = n := by
  have hsolid : trim n = n := trim_of_solid fun c hc => not_isBlank_of_isWord (hname.2 c hc)
  have hkept : n.filter (!isTypeMark ·) = n := List.filter_eq_self.2 fun c hc => by
    rw [Bool.not_eq_true', Bool.eq_false_iff]
    exact fun hmark => Bool.noConfusion ((hname.2 c hc).symm.trans (isWord_of_isTypeMark hmark))
  have hmark : ∀ c ∈ (spacedMark blank required).filter (!isTypeMark ·), isBlank c :=
    isBlank_filter_spacedMark hblank
  rw [List.filter_append, hkept, ← trimStart_trimEnd, trimEnd_append_of_blank hmark, trimStart_trimEnd,
    hsolid]

/-- A spelling starts and ends in a character that is not blank. -/
theorem Spells.trim_eq (h : Spells t s) : trim s = s := by
  cases h with
  | @name n hname blank hblank required =>
    obtain ⟨c, tail, rfl⟩ := List.exists_cons_of_ne_nil hname.1
    obtain ⟨d, hlast, hd, -⟩ := hname.exists_getLast?
    have hc := not_isBlank_of_isWord (hname.2 c List.mem_cons_self)
    rw [trim, List.cons_append, trimStart_cons_of_not_blank hc]
    exact trimEnd_spacedMark hlast hd blank required
  | @list t s h front back blank hfront hback hblank required =>
    rw [trim, trimStart_cons_of_not_blank (by decide)]
    have hlast : ('[' :: (front ++ s ++ back ++ [']'])).getLast? = some ']' := by
      rw [← List.cons_append, List.getLast?_concat]
    simpa using trimEnd_spacedMark hlast (by decide) blank required

/-- The first closing bracket ends the element of a list. -/
theorem listParts?_eq (h : ']' ∉ element) :
    listParts? ('[' :: (element ++ ']' :: rest)) = some (element, rest) := by
  have hcut := cutAt?_append_of_notMem h [] rest
  simpa [listParts?, after?] using hcut

/-- What is read off a list: the base name, and the marks inside and behind the bracket. -/
theorem readType_of_parts (htrim : trim ('[' :: (element ++ ']' :: rest)) = '[' :: (element ++ ']' :: rest))
    (h : ']' ∉ element) :
    readType ('[' :: (element ++ ']' :: rest)) =
      ⟨trim (('[' :: (element ++ ']' :: rest)).filter (!isTypeMark ·)), endsWith ['!'] (trimEnd element),
        true, (trimStart rest).head? = some '!'⟩ := by
  rw [← typeName_readType]
  simp only [readType, htrim, listParts?_eq h]

/-- Whether a text ends with a mark does not depend on what stands in front of a bracket in it. -/
theorem endsWith_trimEnd_bracket (front element : Text) :
    endsWith ['!'] (trimEnd (front ++ '[' :: element)) = endsWith ['!'] (trimEnd element) := by
  rw [List.append_cons, Bool.eq_iff_iff, endsWith_iff_getLast?, endsWith_iff_getLast?]
  by_cases hnil : trimEnd element = []
  · have hfront : trimEnd (front ++ ['[']) = front ++ ['['] :=
      trimEnd_eq_self (c := '[') (by simp) (by decide)
    rw [trimEnd_append_of_blank (trimEnd_eq_nil_iff.1 hnil), hfront, hnil]
    simp
  · rw [trimEnd_append_of_ne_nil hnil, List.getLast?_append_of_ne_nil _ hnil]

/-- Whether a mark follows does not depend on what stands behind the next bracket. -/
theorem head_trimStart_bracket (hback : ∀ c ∈ back, isBlank c) (tail : Text) :
    (trimStart (rest ++ (back ++ ']' :: tail))).head? = some '!' ↔ (trimStart rest).head? = some '!' := by
  obtain ⟨b, hrest, hb⟩ := exists_blank_of_trimStart rest
  cases htrim : trimStart rest with
  | nil =>
    rw [htrim, List.append_nil] at hrest
    rw [hrest, trimStart_append_of_blank hb, trimStart_append_of_blank hback,
      trimStart_cons_of_not_blank (by decide)]
    simp
  | cons c r =>
    have hc : isBlank c = false := by
      have hhead := List.head?_dropWhile_not isBlank rest
      rw [show rest.dropWhile isBlank = trimStart rest from rfl, htrim] at hhead
      simpa using hhead
    rw [hrest, htrim, List.append_assoc, trimStart_append_of_blank hb, List.cons_append,
      trimStart_cons_of_not_blank hc]
    rfl

/-- The spelling of a list has a bracket that opens and one that closes. -/
theorem Spells.exists_parts (h : Spells (.list t required) s) :
    ∃ element rest, s = '[' :: (element ++ ']' :: rest) ∧ ']' ∉ element := by
  obtain _ | @⟨t, s, h, front, back, blank, hfront, hback, hblank, -⟩ := h
  have hmem : ']' ∈ front ++ s ++ back ++ ']' :: spacedMark blank required := by simp
  obtain ⟨element, rest, heq, hnot⟩ := List.eq_append_cons_of_mem hmem
  exact ⟨element, rest, congrArg _ heq, hnot⟩

/-- Brackets around a list change nothing. -/
theorem readType_around (h : Spells (.list t required) s) (hfront : ∀ c ∈ front, isBlank c)
    (hback : ∀ c ∈ back, isBlank c) (hblank : ∀ c ∈ blank, isBlank c) (outer : Bool) :
    readType ('[' :: (front ++ s ++ back ++ ']' :: spacedMark blank outer)) = readType s := by
  have htrim := (h.list front back blank hfront hback hblank outer).trim_eq
  have hname : trim (('[' :: (front ++ s ++ back ++ ']' :: spacedMark blank outer)).filter (!isTypeMark ·)) =
      trim (s.filter (!isTypeMark ·)) := trim_filter_around hfront hback hblank
  have htrim' := h.trim_eq
  obtain ⟨element, rest, rfl, hnot⟩ := h.exists_parts
  have hnot' : ']' ∉ front ++ '[' :: element := by
    simpa [hnot] using notMem_of_isBlank (c := ']') (by decide) hfront
  have hshape : front ++ '[' :: (element ++ ']' :: rest) ++ back ++ ']' :: spacedMark blank outer =
      front ++ '[' :: element ++ ']' :: (rest ++ (back ++ ']' :: spacedMark blank outer)) := by simp
  rw [hshape] at htrim hname ⊢
  rw [readType_of_parts htrim hnot', readType_of_parts htrim' hnot, hname, endsWith_trimEnd_bracket]
  simp only [head_trimStart_bracket hback]

/-- The spelling of a name is read as the name with its mark. -/
theorem readType_name (hname : IsBareName n) (hblank : ∀ c ∈ blank, isBlank c) :
    readType (n ++ spacedMark blank required) = ⟨n, required, false, false⟩ := by
  obtain ⟨d, hlast, -, hd⟩ := hname.exists_getLast?
  have hparts : listParts? (n ++ spacedMark blank required) = none := by
    obtain ⟨c, tail, rfl⟩ := List.exists_cons_of_ne_nil hname.1
    have hc : '[' ≠ c := fun heq => hname.notMem (c := '[') (by decide) (heq ▸ List.mem_cons_self)
    simp [listParts?, after?, hc]
  have hread := typeName_readType (n ++ spacedMark blank required)
  rw [trim_filter_name hname hblank] at hread
  simp only [readType, (Spells.name hname blank hblank required).trim_eq, hparts,
    endsWith_spacedMark hlast hd] at hread ⊢
  rw [hread]

/-- The spelling of a list of names is read as the list with both its marks. -/
theorem readType_list_name (hname : IsBareName n) (hblank : ∀ c ∈ blank, isBlank c)
    {front back blank' : Text} (hfront : ∀ c ∈ front, isBlank c) (hback : ∀ c ∈ back, isBlank c)
    (hblank' : ∀ c ∈ blank', isBlank c) (isListRequired : Bool) :
    readType ('[' :: (front ++ (n ++ spacedMark blank required) ++ back ++
        ']' :: spacedMark blank' isListRequired)) =
      ⟨n, required, true, isListRequired⟩ := by
  have helement := Spells.name hname blank hblank required
  have htrim := (helement.list front back blank' hfront hback hblank' isListRequired).trim_eq
  obtain ⟨d, hlast, hblankLast, hd⟩ := hname.exists_getLast?
  have hlast' : (front ++ n).getLast? = some d := by simp [hlast]
  -- neither the name nor the blanks hold the bracket, so the first one closes the list
  have hnot : ']' ∉ front ++ (n ++ spacedMark blank required) ++ back := by
    have hmark : ']' ∉ spacedMark blank required := by
      cases required
      · simp [spacedMark]
      · simpa [spacedMark] using notMem_of_isBlank (by decide) hblank
    have hfront' := notMem_of_isBlank (c := ']') (by decide) hfront
    have hback' := notMem_of_isBlank (c := ']') (by decide) hback
    simp [hfront', hback', hmark, hname.notMem (c := ']') (by decide)]
  have hrequired : endsWith ['!'] (trimEnd (front ++ (n ++ spacedMark blank required) ++ back)) =
      required := by
    rw [trimEnd_append_of_blank hback, ← List.append_assoc, trimEnd_spacedMark hlast' hblankLast,
      endsWith_spacedMark hlast' hd]
  rw [readType_of_parts htrim hnot, trim_filter_around hfront hback hblank',
    trim_filter_name hname hblank, hrequired, head_trimStart_spacedMark hblank']

/-- Reading an annotation keeps its innermost list. -/
theorem Spells.readType_eq (h : Spells t s) : readType s = t.innermost := by
  induction h with
  | name hname blank hblank required => exact readType_name hname hblank
  | list h front back blank hfront hback hblank outer ih =>
    cases h with
    | name hname blank' hblank' required =>
      exact readType_list_name hname hblank' hfront hback hblank outer
    | list h front' back' blank' hfront' hback' hblank' required =>
      rw [NestedType.innermost, ← ih]
      have hinner := h.list front' back' blank' hfront' hback' hblank' required
      exact readType_around hinner hfront hback hblank outer

/-- A spelled type has a bare name inside its lists. -/
theorem Spells.isBareName (h : Spells t s) : IsBareName t.baseName := by
  induction h with
  | name hname blank hblank required => exact hname
  | list h front back blank hfront hback hblank required ih => exact ih

end

/-- Reading a type keeps its characters but brackets, marks and white space. -/
theorem mem_typeName_readType {raw : Text} {c : Char} (hc : c ∈ raw) (hblank : isBlank c = false)
    (hmark : isTypeMark c = false) : c ∈ (readType raw).typeName := by
  rw [typeName_readType]
  exact mem_trim (List.mem_filter.2 ⟨hc, by rw [hmark]; rfl⟩) hblank

/-- Reading an annotation gives the type that it was printed for. -/
theorem readType_text {t : TypeRef} (h : t.IsProper) : readType t.text = t := by
  obtain ⟨name, required, isList, isListRequired⟩ := t
  obtain ⟨hname, hlist⟩ := h
  have hspells : Spells (.name name required) (name ++ TypeRef.mark required) :=
    .name ⟨hname.ne_nil, hname.isWord⟩ [] nofun required
  cases isList with
  | false =>
    obtain rfl : isListRequired = false := by simpa using hlist
    exact hspells.readType_eq
  | true =>
    have hlisted := hspells.list [] [] [] nofun nofun nofun isListRequired
    have htext : TypeRef.text ⟨name, required, true, isListRequired⟩ =
        '[' :: ([] ++ (name ++ TypeRef.mark required) ++ [] ++ ']' :: spacedMark [] isListRequired) := by
      simp [TypeRef.text, TypeRef.mark, spacedMark]
    rw [htext]
    exact hlisted.readType_eq

end Schema

end Scaffold
