import Mathlib.Data.List.Infix
import Scaffold.Proofs.Table
import Scaffold.Proofs.Text.Cutting
import Scaffold.Proofs.Text.Scanning
import Scaffold.Schema.Envelope

/-!
# What a registry holds

A registry is the table of the result annotations that were accepted so far, each read as a type
(`get?_registerFiles`). Acceptance asks for a scalar or for the word `Result`, but an annotation is all
that stands on its line, so the name of a type is one word exactly if the annotation holds no other
(`isBareName_readType_iff`).
-/

namespace Scaffold.Schema

open Text

/-! ## Annotations and bare names -/

/-- A character that goes off the name of a type. -/
def isTypeMark (c : Char) : Bool := c = '!' || c = '[' || c = ']'

/-- The name of one type: a word. -/
def IsBareName (name : Text) : Prop := name ≠ [] ∧ ∀ c ∈ name, isWord c

instance (name : Text) : Decidable (IsBareName name) :=
  inferInstanceAs (Decidable (name ≠ [] ∧ ∀ c ∈ name, isWord c))

/-- An annotation with one word in it: there is nothing else but white space and marks, and no white
space between the characters of the word. -/
structure HasOneWord (raw : Text) : Prop where
  chars : ∀ c ∈ raw, isBlank c ∨ isTypeMark c ∨ isWord c
  word : ∃ c ∈ raw, isWord c
  together : ∀ front c back, raw = front ++ c :: back → isBlank c →
    (∀ d ∈ front, isWord d = false) ∨ ∀ d ∈ back, isWord d = false

theorem isTypeMark_of_isBlank {c : Char} (h : isBlank c) : isTypeMark c = false := by
  by_contra hmark
  simp only [isTypeMark, Bool.not_eq_false, Bool.or_eq_true, decide_eq_true_eq] at hmark
  rcases hmark with (rfl | rfl) | rfl <;> exact absurd h (by decide)

/-- A mark of a type is not part of a word. -/
theorem isWord_of_isTypeMark {c : Char} (h : isTypeMark c) : isWord c = false := by
  simp only [isTypeMark, Bool.or_eq_true, decide_eq_true_eq] at h
  rcases h with (rfl | rfl) | rfl <;> decide

/-- The name of a type is what is left of its annotation without marks and outer white space. -/
theorem typeName_readType (raw : Text) :
    (readType raw).typeName = trim (raw.filter (!isTypeMark ·)) := by
  have hname : (readType raw).typeName =
      trim ((trim raw).filter fun c => c ≠ '!' && c ≠ '[' && c ≠ ']') := by
    unfold readType
    dsimp only
    split <;> rfl
  have hmarks : (fun c : Char => decide (c ≠ '!') && decide (c ≠ '[') && decide (c ≠ ']')) =
      fun c => !isTypeMark c := by
    funext c
    simp [isTypeMark]
  obtain ⟨front, back, hraw, hfront, hback⟩ := exists_blank_of_trim raw
  have hkept {s : Text} (hs : ∀ c ∈ s, isBlank c) : ∀ c ∈ s.filter (!isTypeMark ·), isBlank c :=
    fun c hc => hs c (List.mem_of_mem_filter hc)
  rw [hname, hmarks]
  conv_rhs => rw [hraw, List.filter_append, List.filter_append,
    trim_append_of_blank (hkept hfront) (hkept hback)]

/-- Where nothing but marks and white space is, there is no word. -/
private theorem forall_not_isWord {s : Text} (h : ∀ c ∈ s.filter (!isTypeMark ·), isBlank c) :
    ∀ c ∈ s, isWord c = false := by
  intro c hc
  by_cases hmark : isTypeMark c
  · exact isWord_of_isTypeMark hmark
  · exact isWord_of_isBlank (h c (List.mem_filter.2 ⟨hc, by simp [hmark]⟩))

/-- If what remains without marks is a name, the annotation has one word. -/
private theorem hasOneWord_of_isBareName {raw : Text}
    (h : IsBareName (trim (raw.filter (!isTypeMark ·)))) : HasOneWord raw := by
  obtain ⟨hne, hword⟩ := h
  obtain ⟨front, back, hkept, hfront, hback⟩ := exists_blank_of_trim (raw.filter (!isTypeMark ·))
  have hmem {c : Char} (hc : c ∈ raw) (hmark : isTypeMark c = false) :
      c ∈ front ++ trim (raw.filter (!isTypeMark ·)) ++ back :=
    hkept ▸ List.mem_filter.2 ⟨hc, by simp [hmark]⟩
  refine ⟨fun c hc => ?_, ?_, fun a c b hraw hblank => ?_⟩
  · by_cases hmark : isTypeMark c
    · exact .inr (.inl hmark)
    · rcases List.mem_append.1 (hmem hc (by simpa using hmark)) with hc | hc
      · exact (List.mem_append.1 hc).imp (hfront c) (.inr ∘ hword c)
      · exact .inl (hback c hc)
  · obtain ⟨c, rest, htrim⟩ := List.exists_cons_of_ne_nil hne
    have hc : c ∈ trim (raw.filter (!isTypeMark ·)) := htrim ▸ List.mem_cons_self
    refine ⟨c, List.mem_of_mem_filter (p := (!isTypeMark ·)) ?_, hword c hc⟩
    rw [hkept]
    exact List.mem_append_left _ (List.mem_append_right _ hc)
  · -- the white space is not in the word, so it stands in front of it or behind it
    have hcut : a.filter (!isTypeMark ·) ++ c :: b.filter (!isTypeMark ·) =
        front ++ (trim (raw.filter (!isTypeMark ·)) ++ back) := by
      rw [← List.append_assoc, ← hkept, hraw, List.filter_append, List.filter_cons_of_pos]
      simp [isTypeMark_of_isBlank hblank]
    rcases List.append_eq_append_iff.1 hcut with ⟨before, hbefore, -⟩ | ⟨inside, -, hinside⟩
    · refine .inl (forall_not_isWord fun d hd => hfront d ?_)
      rw [hbefore]
      exact List.mem_append_left _ hd
    · rcases List.append_eq_append_iff.1 hinside with ⟨tail, -, htail⟩ | ⟨tail, htrim, htail⟩
      · refine .inr (forall_not_isWord fun d hd => hback d ?_)
        rw [htail]
        exact List.mem_append_right _ (List.mem_cons_of_mem c hd)
      · cases tail with
        | nil =>
          refine .inr (forall_not_isWord fun d hd => hback d ?_)
          rw [← List.nil_append back, ← htail]
          exact List.mem_cons_of_mem c hd
        | cons d tail =>
          obtain rfl : c = d := (List.cons.inj htail).1
          have hc := hword c (htrim ▸ List.mem_append_right _ List.mem_cons_self)
          rw [isWord_of_isBlank hblank] at hc
          exact absurd hc Bool.false_ne_true

/-- A blank in a trimmed text stands between two characters that are none. -/
private theorem exists_around_blank {s : Text} {c : Char} (hc : c ∈ trim s) (hblank : isBlank c) :
    ∃ d x y e, trim s = (d :: x) ++ c :: (y ++ [e]) ∧ isBlank d = false ∧ isBlank e = false := by
  obtain ⟨x, y, htrim⟩ := List.append_of_mem hc
  have hnot {d : Char} (hd : isBlank d = false) : d ≠ c := by
    rintro rfl
    rw [hblank] at hd
    cases hd
  obtain ⟨d, x, rfl⟩ : ∃ d x', x = d :: x' := by
    refine List.exists_cons_of_ne_nil fun hx => ?_
    exact hnot (head_trim s c (by simp [htrim, hx])) rfl
  obtain ⟨y, e, rfl⟩ : ∃ y' e, y = y' ++ [e] := by
    refine (List.eq_nil_or_concat' y).resolve_left fun hy => ?_
    exact hnot (getLast_trim s c (by rw [htrim, hy, List.getLast?_append_cons]; rfl)) rfl
  refine ⟨d, x, y, e, htrim, head_trim s d (by simp [htrim]), getLast_trim s e ?_⟩
  rw [htrim, ← List.cons_append, ← List.append_assoc, List.getLast?_concat]
  rfl

/-- If the annotation has one word, that word remains without marks. -/
private theorem isBareName_of_hasOneWord {raw : Text} (h : HasOneWord raw) :
    IsBareName (trim (raw.filter (!isTypeMark ·))) := by
  have hkept {c : Char} (hc : c ∈ raw.filter (!isTypeMark ·)) : isBlank c ∨ isWord c := by
    obtain ⟨hmem, hmark⟩ := List.mem_filter.1 hc
    rw [Bool.not_eq_true'] at hmark
    simpa [hmark] using h.chars c hmem
  refine ⟨fun hnil => ?_, fun c hc => ?_⟩
  · obtain ⟨c, hc, hword⟩ := h.word
    have hnot := forall_not_isWord (trim_eq_nil_iff.1 hnil) c hc
    rw [hword] at hnot
    cases hnot
  · by_contra hnot
    obtain ⟨front, back, hcut, -, -⟩ := exists_blank_of_trim (raw.filter (!isTypeMark ·))
    have hmem : ∀ d ∈ trim (raw.filter (!isTypeMark ·)), d ∈ raw.filter (!isTypeMark ·) := by
      intro d hd
      rw [hcut]
      exact List.mem_append_left _ (List.mem_append_right _ hd)
    have hblank := (hkept (hmem c hc)).resolve_right hnot
    obtain ⟨d, x, y, e, htrim, hd, he⟩ := exists_around_blank hc hblank
    have hdword : isWord d := (hkept (hmem d (by simp [htrim]))).resolve_left (by simp [hd])
    have heword : isWord e := (hkept (hmem e (by simp [htrim]))).resolve_left (by simp [he])
    rw [htrim, List.append_assoc, List.append_assoc, ← List.append_assoc front] at hcut
    obtain ⟨a, b, rfl, ha, hb⟩ := List.filter_eq_append_iff.1 hcut
    obtain ⟨marks, b, rfl, -, -, hb⟩ := List.filter_eq_cons_iff.1 hb
    -- both words stand in the annotation, one on each side of the blank
    rcases h.together (a ++ marks) c b (by simp) hblank with hfront | hback
    · have hda : d ∈ a := List.mem_of_mem_filter (ha ▸ List.mem_append_right _ List.mem_cons_self)
      rw [hfront d (List.mem_append_left _ hda)] at hdword
      cases hdword
    · have heb : e ∈ b := List.mem_of_mem_filter (p := (!isTypeMark ·)) (by rw [hb]; simp)
      rw [hback e heb] at heword
      cases heword

/-- The name of a type is one word exactly if its annotation has one word in it. -/
theorem isBareName_readType_iff {raw : Text} :
    IsBareName (readType raw).typeName ↔ HasOneWord raw := by
  rw [typeName_readType]
  exact ⟨hasOneWord_of_isBareName, isBareName_of_hasOneWord⟩

/-! ## Accepted annotations -/

/-- The names of types with the annotations of their result fields, up to the first that is refused. -/
def acceptedIn (path : Path) : List TypeBody → List (Text × Text)
  | [] => []
  | t :: ts =>
    match Text.find? resultField t.body with
    | none => acceptedIn path ts
    | some raw =>
      match checkEnvelope path t (readType raw) with
      | .error _ => []
      | .ok () => (t.name, raw) :: acceptedIn path ts

/-- What a file has accepted, whether or not it is refused in the end. -/
def acceptedOf (path : Path) (text : Text) : List (Text × Text) :=
  acceptedIn path (findAll typeBody (stripDocs text))

/-- The registry after some files, each of which may be refused. -/
def registerFiles (files : List (Path × Text)) : Registry :=
  files.foldl (fun registry (path, text) => (register path text registry).1) .empty

/-- The annotation that was accepted last for a response. -/
def annotation? (files : List (Path × Text)) (response : Text) : Option Text :=
  ((files.flatMap fun (path, text) => acceptedOf path text).reverse.find? (·.1 = response)).map (·.2)

/-- Registering the types of a file is putting those that are accepted, in order. -/
private theorem registerAll_eq (path : Path) (ts : List TypeBody) (registry : Registry) (count : Nat) :
    (registerAll path ts registry count).1 =
      registry.putAll ((acceptedIn path ts).map fun (name, raw) => (name, readType raw)) := by
  induction ts generalizing registry count with
  | nil => rfl
  | cons t ts ih =>
    unfold registerAll acceptedIn envelope?
    cases Text.find? resultField t.body with
    | none => exact ih registry count
    | some raw =>
      cases hcheck : checkEnvelope path t (readType raw) with
      | error e => simp [bind, Except.bind, hcheck, Table.putAll]
      | ok => simpa [bind, Except.bind, pure, Except.pure, hcheck, Table.putAll] using ih _ (count + 1)

/-- A registry holds what was accepted last for each response, read as a type. -/
theorem get?_registerFiles (files : List (Path × Text)) (response : Text) :
    (registerFiles files).get? response = (annotation? files response).map readType := by
  have hregistry (registry : Registry) :
      files.foldl (fun registry (path, text) => (register path text registry).1) registry =
        registry.putAll ((files.flatMap fun (path, text) => acceptedOf path text).map
          fun (name, raw) => (name, readType raw)) := by
    induction files generalizing registry with
    | nil => rfl
    | cons file files ih =>
      show List.foldl _ (register file.1 file.2 registry).1 files = _
      rw [ih, register, registerAll_eq, List.flatMap_cons, List.map_append, Table.putAll, Table.putAll,
        Table.putAll, List.foldl_append]
      rfl
  rw [registerFiles, hregistry, ← Table.ofList_eq, Table.get?_ofList, annotation?, ← List.map_reverse,
    List.find?_map, Option.map_map, Option.map_map]
  rfl

/-! ## What was accepted -/

/-- A body with a result field whose annotation is `raw`: all that stands behind the colon, white space
in front apart, up to the end of the line, a comment or a comma. -/
def IsAnnotated (body raw : Text) : Prop :=
  ∃ front gap gap' rest, body = front ++ ("result".toList ++ gap ++ ':' :: (gap' ++ raw ++ rest)) ∧
    (∀ c ∈ front.getLast?, isWord c = false) ∧ (∀ c ∈ gap ++ gap', isBlank c) ∧
    (∀ c ∈ raw.head?, isBlank c = false) ∧ (∀ c ∈ raw, isResultChar c) ∧
    ∀ c ∈ rest.head?, isResultChar c = false

/-- The text of a result type is a blank, or what stands up to its end. -/
private theorem resultText?_cases {s raw rest : Text} (h : resultText? s = some (raw, rest)) :
    (∃ c, raw = [c] ∧ isBlank c) ∨
      ∃ gap, s = gap ++ raw ++ rest ∧ (∀ c ∈ gap, isBlank c) ∧ (∀ c ∈ raw.head?, isBlank c = false) ∧
        (∀ c ∈ raw, isResultChar c) ∧ ∀ c ∈ rest.head?, isResultChar c = false := by
  unfold resultText? at h
  dsimp only at h
  split at h
  · split at h
    · cases h
    · next c more hrev =>
      obtain ⟨rfl, -⟩ := Prod.mk.inj (Option.some.inj h)
      refine .inl ⟨c, rfl, ?_⟩
      have hc : c ∈ (s.takeWhile isBlank).reverse.dropWhile (!isResultChar ·) :=
        hrev ▸ List.mem_cons_self
      exact List.mem_takeWhile_imp (List.mem_reverse.1 ((List.dropWhile_suffix _).mem hc))
  · next hraw =>
    obtain ⟨rfl, rfl⟩ := Prod.mk.inj (Option.some.inj h)
    refine .inr ⟨s.takeWhile isBlank, ?_, fun c hc => List.mem_takeWhile_imp hc, fun c hc => ?_,
      fun c hc => List.mem_takeWhile_imp hc, fun c hc => ?_⟩
    · rw [List.append_assoc, List.takeWhile_append_dropWhile, List.takeWhile_append_dropWhile]
    · have hhead := List.head?_dropWhile_not isBlank s
      obtain ⟨rest, hrest⟩ := List.takeWhile_prefix isResultChar (l := s.dropWhile isBlank)
      rw [← hrest, List.head?_append, Option.mem_def.1 hc] at hhead
      simpa using hhead
    · have hhead := List.head?_dropWhile_not isResultChar (s.dropWhile isBlank)
      rw [Option.mem_def.1 hc] at hhead
      simpa using hhead

/-- The start of a field: its name, a colon, and no word in front. -/
private theorem fieldStart?_eq_some {field s rest : Text} {before : Option Char}
    (h : fieldStart? field before s = some rest) :
    (∀ c ∈ before, isWord c = false) ∧
      ∃ gap, s = field ++ gap ++ ':' :: rest ∧ ∀ c ∈ gap, isBlank c := by
  unfold fieldStart? at h
  simp only [Option.bind_eq_bind, Option.bind_eq_some_iff, guard] at h
  obtain ⟨_, hbefore, behind, hfield, hcolon⟩ := h
  refine ⟨?_, behind.takeWhile isBlank, ?_, fun c hc => List.mem_takeWhile_imp hc⟩
  · cases before with
    | none => exact fun _ => nofun
    | some c =>
      rintro d ⟨⟩
      by_contra hc
      simp [Bool.not_eq_false _ ▸ hc] at hbefore
  · rw [after?_eq_some hfield, List.append_assoc, ← List.singleton_append, ← after?_eq_some hcolon,
      List.takeWhile_append_dropWhile]

/-- The result field that is found is there, or only a blank stands behind its colon. -/
private theorem isAnnotated_of_find? {body raw : Text} (h : Text.find? resultField body = some raw) :
    (∃ c, raw = [c] ∧ isBlank c) ∨ IsAnnotated body raw := by
  obtain ⟨piece, hpiece, hvalue⟩ := List.mem_filterMap.1 (List.mem_of_head? h)
  obtain ⟨taken, rfl⟩ : ∃ taken, piece = .found raw taken := by
    cases piece with
    | loose c => cases hvalue
    | found value taken => exact ⟨taken, by rw [Option.some.inj hvalue]⟩
  obtain ⟨front, back, rest, rfl, hp⟩ := exists_of_mem_piecesFrom hpiece
  simp only [resultField, Option.bind_eq_bind, Option.bind_eq_some_iff] at hp
  obtain ⟨behind, hstart, hresult⟩ := hp
  rcases resultText?_cases hresult with hblank | ⟨gap', rfl, hgap', hhead, hchars, hrest⟩
  · exact .inl hblank
  · obtain ⟨hfront, gap, rfl, hgap⟩ := fieldStart?_eq_some hstart
    rw [Option.or_none] at hfront
    exact .inr ⟨front, gap, gap', rest, rfl, hfront, List.forall_mem_append.2 ⟨hgap, hgap'⟩, hhead,
      hchars, hrest⟩

/-- A result that passes its check is a scalar or names a result. -/
private theorem name_of_checkEnvelope {path : Path} {t : TypeBody} {result : TypeRef}
    (h : checkEnvelope path t result = .ok ()) :
    result.typeName ∈ scalarResults ∨ "Result".toList <:+: result.typeName := by
  rw [← occursIn_iff]
  by_contra hnot
  have hname : (scalarResults.contains result.typeName ||
      occursIn "Result".toList result.typeName) = false := by
    simpa [not_or] using hnot
  rw [checkEnvelope, hname] at h
  cases h

/-- An annotation is accepted where a type is annotated with it and its name is a scalar or holds the
word `Result`. -/
theorem of_mem_acceptedIn {path : Path} {ts : List TypeBody} {name raw : Text}
    (h : (name, raw) ∈ acceptedIn path ts) :
    (∃ body, ⟨name, body⟩ ∈ ts ∧ IsAnnotated body raw) ∧
      ((readType raw).typeName ∈ scalarResults ∨ "Result".toList <:+: (readType raw).typeName) := by
  induction ts with
  | nil => cases h
  | cons t ts ih =>
    have hrest (h : (name, raw) ∈ acceptedIn path ts) :
        (∃ body, ⟨name, body⟩ ∈ t :: ts ∧ IsAnnotated body raw) ∧
          ((readType raw).typeName ∈ scalarResults ∨ "Result".toList <:+: (readType raw).typeName) := by
      obtain ⟨⟨body, hbody, hannotated⟩, hname⟩ := ih h
      exact ⟨⟨body, List.mem_cons_of_mem t hbody, hannotated⟩, hname⟩
    unfold acceptedIn at h
    cases hfound : Text.find? resultField t.body with
    | none => exact hrest (by simpa [hfound] using h)
    | some raw' =>
      cases hcheck : checkEnvelope path t (readType raw') with
      | error e => simp [hfound, hcheck] at h
      | ok =>
        simp only [hfound, hcheck, List.mem_cons, Prod.mk.injEq] at h
        rcases h with ⟨rfl, rfl⟩ | h
        · have hname := name_of_checkEnvelope hcheck
          refine ⟨⟨t.body, List.mem_cons_self, ?_⟩, hname⟩
          refine (isAnnotated_of_find? hfound).resolve_left ?_
          rintro ⟨c, rfl, hc⟩
          -- white space makes no name
          have hnil : (readType [c]).typeName = [] := by
            rw [typeName_readType, trim_eq_nil_iff]
            exact fun d hd => List.mem_singleton.1 (List.mem_of_mem_filter hd) ▸ hc
          rw [hnil] at hname
          exact absurd hname (by decide)
        · exact hrest h

/-- Only a list has a mark of its own. -/
theorem isList_readType {raw : Text} (h : (readType raw).isListRequired) : (readType raw).isList := by
  unfold readType at h ⊢
  dsimp only at h ⊢
  split at h
  · rfl
  · cases h

/-! ## Registries -/

/-- The annotation of a response was accepted in one of the files. -/
private theorem of_annotation? {files : List (Path × Text)} {response raw : Text}
    (h : annotation? files response = some raw) :
    ∃ path text, (path, text) ∈ files ∧ (response, raw) ∈ acceptedOf path text := by
  obtain ⟨⟨name, raw⟩, hfound, rfl⟩ := Option.map_eq_some_iff.1 h
  obtain ⟨⟨path, text⟩, hfile, hmem⟩ :=
    List.mem_flatMap.1 (List.mem_reverse.1 (List.mem_of_find?_eq_some hfound))
  obtain rfl : name = response := by simpa using List.find?_some hfound
  exact ⟨path, text, hfile, hmem⟩

/-- After any files, refused or not, a registry holds for each response the annotation that was accepted
last, read as a type: one that stands in a type of that name in one of the files. Its name is a scalar or
holds the word `Result`, and only a list has a mark of its own. All names are single words exactly if
none of these annotations has anything else than one word, marks and white space around it. -/
theorem registered_names_iff (files : List (Path × Text)) :
    let registry := registerFiles files
    (∀ response, registry.get? response = (annotation? files response).map readType) ∧
      (∀ response, ∀ raw ∈ annotation? files response, ∃ path text body, (path, text) ∈ files ∧
        ⟨response, body⟩ ∈ findAll typeBody (stripDocs text) ∧ IsAnnotated body raw) ∧
      (∀ t ∈ registry.values,
        (t.typeName ∈ scalarResults ∨ "Result".toList <:+: t.typeName) ∧
          (t.isListRequired → t.isList)) ∧
      ((∀ t ∈ registry.values, IsBareName t.typeName) ↔
        ∀ response, ∀ raw ∈ annotation? files response, HasOneWord raw) := by
  intro registry
  have hvalues (t : TypeRef) :
      t ∈ registry.values ↔ ∃ response, ∃ raw ∈ annotation? files response, readType raw = t := by
    constructor
    · intro ht
      obtain ⟨response, hget⟩ := Table.exists_get?_of_mem_values ht
      rw [get?_registerFiles] at hget
      exact ⟨response, Option.map_eq_some_iff.1 hget⟩
    · rintro ⟨response, raw, hraw, rfl⟩
      refine Table.mem_values_of_get? (k := response) ?_
      rw [get?_registerFiles, Option.mem_def.1 hraw, Option.map_some]
  refine ⟨get?_registerFiles files, fun response raw hraw => ?_, fun t ht => ?_, ?_⟩
  · obtain ⟨path, text, hfile, haccepted⟩ := of_annotation? hraw
    obtain ⟨⟨body, hbody, hannotated⟩, -⟩ := of_mem_acceptedIn haccepted
    exact ⟨path, text, body, hfile, hbody, hannotated⟩
  · obtain ⟨response, raw, hraw, rfl⟩ := (hvalues t).1 ht
    obtain ⟨path, text, -, haccepted⟩ := of_annotation? hraw
    exact ⟨(of_mem_acceptedIn haccepted).2, isList_readType⟩
  · constructor
    · intro h response raw hraw
      exact isBareName_readType_iff.1 (h _ ((hvalues _).2 ⟨response, raw, hraw, rfl⟩))
    · intro h t ht
      obtain ⟨response, raw, hraw, rfl⟩ := (hvalues t).1 ht
      exact isBareName_readType_iff.2 (h response raw hraw)

/-- A response type on one line, as a schema may write it. -/
private def lineFile : Text :=
  "type UserResponse \x7b result: UserResult! success: Boolean! elapsedTime: String! \x7d\n".toList

/-- On one line with others, the annotation of the result takes them all in. -/
theorem registered_name_of_line :
    let name := "UserResult success: Boolean elapsedTime: String".toList
    (registerFiles [(default, lineFile)]).get? "UserResponse".toList = some ⟨name, true, false, false⟩ ∧
      ¬ IsBareName name := by
  unfold lineFile
  repeat rw [String.toList_ofList]
  decide +kernel

end Scaffold.Schema
