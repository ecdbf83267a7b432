import Scaffold.Proofs.Naming.Recasing
import Scaffold.Proofs.Output.Methods
import Scaffold.Proofs.Schema.Interior

/-!
# Parameter lists

A function and the method that calls it declare the same parameters: the context, and one for each
argument of the action under its recased name. Go takes the list if all names in it differ and none is a
keyword. Recasing makes no keyword and no context out of another name, so the list is well formed exactly
if no argument is called by a keyword or like the context, and recasing keeps the names of the arguments
apart (`isParameterList_iff`).
-/

namespace Scaffold.Output

open Text Naming Schema Service

/-! ## Names in Go -/

/-- The words that Go keeps for itself. -/
def goKeywords : List Text :=
  ["break".toList, "case".toList, "chan".toList, "const".toList, "continue".toList, "default".toList,
    "defer".toList, "else".toList, "fallthrough".toList, "for".toList, "func".toList, "go".toList,
    "goto".toList, "if".toList, "import".toList, "interface".toList, "map".toList, "package".toList,
    "range".toList, "return".toList, "select".toList, "struct".toList, "switch".toList, "type".toList,
    "var".toList]

/-- An identifier that starts with a letter. -/
structure IsLetterName (name : Text) : Prop extends IsIdentifier name where
  head : name.head?.any Char.isAlpha

instance (name : Text) : Decidable (IsLetterName name) :=
  decidable_of_iff (IsIdentifier name ∧ name.head?.any Char.isAlpha)
    ⟨fun h => ⟨h.1, h.2⟩, fun h => ⟨h.toIsIdentifier, h.head⟩⟩

/-- A list of parameters as Go demands it: the names are identifiers, none is a keyword, and none comes
twice. -/
structure IsParameterList (ps : List (Text × Text)) : Prop where
  identifiers : ∀ p ∈ ps, IsLetterName p.1
  keywords : ∀ p ∈ ps, p.1 ∉ goKeywords
  nodup : (ps.map Prod.fst).Nodup

instance (ps : List (Text × Text)) : Decidable (IsParameterList ps) :=
  decidable_of_iff ((∀ p ∈ ps, IsLetterName p.1) ∧ (∀ p ∈ ps, p.1 ∉ goKeywords) ∧
      (ps.map Prod.fst).Nodup)
    ⟨fun h => ⟨h.1, h.2.1, h.2.2⟩, fun h => ⟨h.identifiers, h.keywords, h.nodup⟩⟩

/-! ## What recasing does to names -/

/-- Letter case does not matter for being a word character of ASCII. -/
theorem isAscii_and_isWord_toLower (c : Char) :
    (isAscii c.toLower && isWord c.toLower) = (isAscii c && isWord c) :=
  forall_letterCase
    (P := fun c => (isAscii c.toLower && isWord c.toLower) = (isAscii c && isWord c)) (by decide)
    (fun c _ hlower _ => by rw [hlower]) c

/-- Letter case does not matter for being an identifier that starts with a letter. -/
theorem isLetterName_map_toLower_iff {name : Text} :
    IsLetterName (name.map Char.toLower) ↔ IsLetterName name := by
  have hnil : name.map Char.toLower ≠ [] ↔ name ≠ [] := not_congr List.map_eq_nil_iff
  have hchars : (∀ c ∈ name.map Char.toLower, isAscii c && isWord c) ↔
      ∀ c ∈ name, isAscii c && isWord c := by
    rw [List.forall_mem_map]
    exact forall₂_congr fun c _ => by rw [isAscii_and_isWord_toLower]
  have hhead : (name.map Char.toLower).head?.any Char.isAlpha = name.head?.any Char.isAlpha := by
    rw [List.head?_map, Option.any_map]
    exact congrArg (name.head?.any ·) (funext isAlpha_toLower)
  exact ⟨fun h => ⟨⟨hnil.1 h.ne_nil, hchars.1 h.chars⟩, hhead ▸ h.head⟩,
    fun h => ⟨⟨hnil.2 h.ne_nil, hchars.2 h.chars⟩, hhead ▸ h.head⟩⟩

/-- Recasing keeps identifiers, and makes none. -/
theorem isLetterName_recase_iff {name : Text} : IsLetterName (recase name) ↔ IsLetterName name := by
  rw [← isLetterName_map_toLower_iff, map_toLower_recase, isLetterName_map_toLower_iff]

/-- Recasing keeps keywords and makes none. -/
theorem recase_mem_goKeywords_iff {name : Text} : recase name ∈ goKeywords ↔ name ∈ goKeywords := by
  -- keywords have no capitals, and none is made of several words with an acronym among them
  have hkept : ∀ word ∈ goKeywords, recase word = word ∧ ∀ c ∈ word, ¬c.isUpper := by decide
  constructor
  · intro h
    rwa [← recase_eq_self (hkept _ h).2]
  · intro h
    rwa [(hkept name h).1]

/-- Recasing calls no argument like the context that was not called so before. -/
theorem recase_eq_ctx_iff {name : Text} : recase name = "ctx".toList ↔ name = "ctx".toList :=
  recase_eq_iff (by decide) (by decide)

/-! ## Parameters of an action -/

/-- The names of the parameters: the context, and the recased names of the arguments. -/
theorem map_fst_parameterList (a : Action) :
    (parameterList a).map Prod.fst = "ctx".toList :: a.args.map fun arg => recase arg.name := by
  rw [parameterList, List.map_cons, List.map_map]
  rfl

/-- The parameters are well formed exactly if the names of the arguments are identifiers but neither
keywords nor that of the context, and stay different when they are recased. -/
theorem isParameterList_parameterList_iff {a : Action} :
    IsParameterList (parameterList a) ↔
      (∀ arg ∈ a.args, IsLetterName arg.name) ∧ (∀ arg ∈ a.args, arg.name ∉ goKeywords) ∧
        (∀ arg ∈ a.args, arg.name ≠ "ctx".toList) ∧
        (a.args.map fun arg => recase arg.name).Nodup := by
  have hall (P : Text → Prop) (hctx : P "ctx".toList) :
      (∀ p ∈ parameterList a, P p.1) ↔ ∀ arg ∈ a.args, P (recase arg.name) := by
    rw [parameterList, List.forall_mem_cons, List.forall_mem_map]
    exact and_iff_right hctx
  have hidentifiers : (∀ p ∈ parameterList a, IsLetterName p.1) ↔
      ∀ arg ∈ a.args, IsLetterName arg.name :=
    (hall IsLetterName (by decide)).trans (forall₂_congr fun _ _ => isLetterName_recase_iff)
  have hkeywords : (∀ p ∈ parameterList a, p.1 ∉ goKeywords) ↔
      ∀ arg ∈ a.args, arg.name ∉ goKeywords :=
    (hall (· ∉ goKeywords) (by decide)).trans
      (forall₂_congr fun _ _ => not_congr recase_mem_goKeywords_iff)
  have hnodup : ((parameterList a).map Prod.fst).Nodup ↔
      (∀ arg ∈ a.args, arg.name ≠ "ctx".toList) ∧ (a.args.map fun arg => recase arg.name).Nodup := by
    rw [map_fst_parameterList, List.nodup_cons, List.mem_map, not_exists]
    simp only [not_and, recase_eq_ctx_iff, ne_eq]
  rw [← hidentifiers, ← hkeywords, ← hnodup]
  exact ⟨fun h => ⟨h.identifiers, h.keywords, h.nodup⟩, fun h => ⟨h.1, h.2.1, h.2.2⟩⟩

/-- The function for an action and its method declare the same parameters. If the arguments have different
names that are identifiers of ASCII and start with a letter, this list of parameters is well formed exactly
if no argument is called by a keyword, none is called like the context, and recasing makes no two of the
names one. Names that it does make one differ in nothing but the case of letters. -/
theorem isParameterList_iff {a : Action} (hnames : ∀ arg ∈ a.args, IsLetterName arg.name)
    (hdistinct : (a.args.map Argument.name).Nodup) :
    signature a = header ("func ".toList ++ functionName a) (parameterList a) a.responseType ∧
    (∀ x ∈ method? a, method a = x.text ∧ x.parameters = parameterList a) ∧
    (IsParameterList (parameterList a) ↔
      (∀ arg ∈ a.args, arg.name ∉ goKeywords) ∧ (∀ arg ∈ a.args, arg.name ≠ "ctx".toList) ∧
        ∀ arg ∈ a.args, ∀ other ∈ a.args, recase arg.name = recase other.name →
          arg.name = other.name) ∧
    ∀ arg ∈ a.args, ∀ other ∈ a.args, recase arg.name = recase other.name →
      arg.name.map Char.toLower = other.name.map Char.toLower := by
  refine ⟨signature_eq_header a, fun x hx => ⟨?_, (method?_eq_some_iff.1 hx).2.2.1⟩, ?_, ?_⟩
  · rw [method_eq_text, Option.mem_def.1 hx]
    rfl
  · have hrecased : (a.args.map fun arg => recase arg.name).Nodup ↔
        ∀ arg ∈ a.args, ∀ other ∈ a.args, recase arg.name = recase other.name →
          arg.name = other.name := by
      rw [List.nodup_map_iff_inj_on (hdistinct.of_map _)]
      refine forall₄_congr fun arg harg other hother => imp_congr_right fun _ => ?_
      exact ⟨congrArg _, List.inj_on_of_nodup_map hdistinct harg hother⟩
    rw [isParameterList_parameterList_iff, hrecased]
    exact and_iff_right hnames
  · intro arg _ other _ hrecased
    rw [← map_toLower_recase, hrecased, map_toLower_recase]

/-- A query with arguments of these names. -/
private def search (names : List Text) : Action where
  name := "search".toList
  args := names.map fun name => ⟨⟨"ID".toList, true, false, false⟩, name⟩
  responseType := "SearchResponse".toList
  kind := .query
  owner := ⟨"shop".toList, "user".toList⟩

/-- Names with acronyms that stay different when they are recased. -/
theorem isParameterList_iff_search :
    let a := search ["userId".toList, "apiKey".toList, "limit".toList]
    (∀ arg ∈ a.args, IsLetterName arg.name) ∧ (a.args.map Argument.name).Nodup ∧
      IsParameterList (parameterList a) ∧
      (parameterList a).map Prod.fst =
        ["ctx".toList, "userID".toList, "APIKey".toList, "limit".toList] := by
  intro a
  have hnames : ∀ arg ∈ a.args, IsLetterName arg.name := by decide
  have hdistinct : (a.args.map Argument.name).Nodup := by decide
  obtain ⟨-, -, hlist, -⟩ := isParameterList_iff hnames hdistinct
  exact ⟨hnames, hdistinct, hlist.2 ⟨by decide, by decide, by decide⟩, by decide⟩

/-- Whether the arguments of an action have different names that are identifiers, and still its parameters
are not well formed. -/
private def Clashes (a : Action) : Prop :=
  (∀ arg ∈ a.args, IsLetterName arg.name) ∧ (a.args.map Argument.name).Nodup ∧
    ¬IsParameterList (parameterList a)

/-- The parameters are not well formed where an argument is called by a keyword or like the context, or
where recasing makes the names of two arguments one. -/
theorem parameters_clash :
    Clashes (search ["type".toList]) ∧ Clashes (search ["ctx".toList]) ∧
      Clashes (search ["userId".toList, "userID".toList]) := by
  unfold Clashes
  decide

end Scaffold.Output
