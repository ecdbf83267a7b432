import Scaffold.Proofs.Schema.RoundTrip

/-!
# The rule that is broken first

A field breaks a rule if an argument `input` of it is of no input type, or if its response may be null
(`FieldDecl.Breaks`); the arguments are checked first, in the order of their texts. However fields are laid
out, extraction fails exactly if one of them breaks a rule, and the error is that of the first one: fields
with arguments come before those without (`extraction_fails_iff`).
-/

namespace Scaffold.Schema

open Text

/-! ## Rules -/

/-- Only arguments of input types are called `input`. -/
def KeepsRule (a : Argument) : Prop := a.name = "input".toList → occursIn "Input".toList a.typeName

/-- A field breaks a rule, and this is what is said of it. -/
inductive FieldDecl.Breaks (path : Path) (f : FieldDecl) : SchemaError → Prop
  | input {a : Argument} (ha : IsFirst (¬KeepsRule ·) (inOrder (f.args.map (·.toArgument))) a) :
      f.Breaks path (.inputType path f.name a.typeName)
  | response (hargs : ∀ a ∈ f.args, KeepsRule a.toArgument) (h : f.required = false) :
      f.Breaks path (.nullableResponse path f.name f.response)

section

variable {origin : Origin} {path : Path} {action : Text} {f : FieldDecl} {fs : List FieldDecl} {e : SchemaError}

/-- An argument fails its check exactly if it breaks the rule for inputs. -/
theorem checkArgument_eq_error_iff {a : Argument} :
    checkArgument path action a = .error e ↔
      ¬KeepsRule a ∧ e = .inputType path action a.typeName := by
  have hbreaks : (a.name = "input".toList && !occursIn "Input".toList a.typeName) = true ↔
      ¬KeepsRule a := by
    rw [KeepsRule, Classical.not_imp, Bool.and_eq_true, decide_eq_true_iff, Bool.not_eq_true',
      Bool.not_eq_true]
  unfold checkArgument
  split_ifs with h
  · rw [Except.error.injEq, eq_comm]
    exact (and_iff_right (hbreaks.1 h)).symm
  · exact iff_of_false nofun fun hfails => h (hbreaks.2 hfails.1)

/-- What holds of all arguments in order holds of all that are declared. -/
theorem forall_inOrder {P : Argument → Prop} :
    (∀ a ∈ inOrder (f.args.map (·.toArgument)), P a) ↔ ∀ a ∈ f.args, P a.toArgument := by
  have hmem (a : Argument) : a ∈ inOrder (f.args.map (·.toArgument)) ↔ a ∈ f.args.map (·.toArgument) :=
    (List.mergeSort_perm _ _).mem_iff
  simp only [hmem, List.forall_mem_map]

/-- The arguments of a field are refused for the first one that breaks its rule. -/
theorem checkArguments_eq_error_iff {as : List Argument} :
    as.mapM (checkArgument path action) = .error e ↔
      ∃ a, IsFirst (¬KeepsRule ·) as a ∧ e = .inputType path action a.typeName := by
  have hfails : (fun a => ∃ e, checkArgument path action a = .error e) = (¬KeepsRule ·) := by
    funext a
    simp [checkArgument_eq_error_iff]
  rw [mapM_eq_error_iff, hfails]
  refine exists_congr fun a => and_congr_right fun ha => ?_
  rw [checkArgument_eq_error_iff, and_iff_right ha.holds]

/-- The arguments pass if each of them keeps the rule. -/
theorem checkArguments_eq_ok_iff {as bs : List Argument} :
    as.mapM (checkArgument path action) = .ok bs ↔ as = bs ∧ ∀ a ∈ as, KeepsRule a := by
  have hpasses : (fun a b => checkArgument path action a = .ok b) = fun a b => KeepsRule a ∧ a = b := by
    funext a b
    rw [checkArgument_eq_ok_iff, and_comm]
    rfl
  rw [mapM_eq_ok_iff, hpasses, List.forall₂_and_left, List.forall₂_eq_eq_eq, and_comm]

/-- A response fails its check exactly if it is nullable. -/
theorem responseName_eq_error_iff {response : Text} {required : Bool} (h : IsIdentifier response) :
    responseName path action (responseToken response required) = .error e ↔
      required = false ∧ e = .nullableResponse path action response := by
  cases required with
  | true => simp [responseName_responseToken h]
  | false =>
    have hlast : response.getLast? ≠ some '!' := fun hlast =>
      h.isLiteral.notMem (by decide) (List.mem_of_getLast? hlast)
    simp [responseName, responseToken, TypeRef.mark, hlast, eq_comm]

/-- A field keeps the rules of its arguments and that of its response. -/
theorem FieldDecl.keepsRules_iff :
    f.KeepsRules ↔ (∀ a ∈ f.args, KeepsRule a.toArgument) ∧ f.required = true :=
  ⟨fun h => ⟨h.input, h.response⟩, fun h => ⟨h.2, h.1⟩⟩

/-- A field is refused for what it breaks. -/
theorem FieldDecl.checked_eq_error_iff (h : f.IsProper) :
    f.checked origin = .error e ↔ f.Breaks origin.path e := by
  unfold FieldDecl.checked
  rw [bind_eq_error_iff, checkArguments_eq_error_iff]
  constructor
  · rintro (⟨a, ha, rfl⟩ | ⟨args, hargs, hrest⟩)
    · exact .input ha
    · obtain ⟨-, hkeeps⟩ := checkArguments_eq_ok_iff.1 hargs
      rcases bind_eq_error_iff.1 hrest with hresponse | ⟨response, -, hpure⟩
      · obtain ⟨hrequired, rfl⟩ := (responseName_eq_error_iff h.response).1 hresponse
        exact .response (forall_inOrder.1 hkeeps) hrequired
      · cases hpure
  · rintro (⟨ha⟩ | ⟨hargs, hrequired⟩)
    · exact .inl ⟨_, ha, rfl⟩
    · refine .inr ⟨_, checkArguments_eq_ok_iff.2 ⟨rfl, forall_inOrder.2 hargs⟩, ?_⟩
      exact bind_eq_error_iff.2 (.inl ((responseName_eq_error_iff h.response).2 ⟨hrequired, rfl⟩))

/-- A field that breaks no rule keeps them. -/
theorem FieldDecl.exists_breaks_iff : (∃ e, f.Breaks path e) ↔ ¬f.KeepsRules := by
  rw [keepsRules_iff]
  constructor
  · rintro ⟨_, ⟨ha⟩ | ⟨-, hrequired⟩⟩ ⟨hargs, hkeeps⟩
    · obtain ⟨a, ha, hbreaks⟩ := exists_isFirst_iff.1 ⟨_, ha⟩
      exact hbreaks (forall_inOrder.2 hargs a ha)
    · exact Bool.noConfusion (hkeeps.symm.trans hrequired)
  · intro hbreaks
    by_cases hargs : ∀ a ∈ f.args, KeepsRule a.toArgument
    · exact ⟨_, .response hargs (Bool.eq_false_iff.2 fun hrequired => hbreaks ⟨hargs, hrequired⟩)⟩
    · have hsome : ∃ a ∈ inOrder (f.args.map (·.toArgument)), ¬KeepsRule a := by
        simpa [← forall_inOrder] using hargs
      obtain ⟨a, ha⟩ := exists_isFirst_iff.2 hsome
      exact ⟨_, .input ha⟩

/-- Extraction fails for the first field that breaks a rule, in the order of extraction. -/
theorem actions_eq_error_iff (h : ∀ f ∈ fs, f.IsProper) (hskips : ∀ f ∈ fs, f.SkipsDefaults)
    {bits : List Bit} (hlayout : IsLayout fs bits) :
    actions origin (flatten (written bits)) = .error e ↔
      ∃ f, IsFirst (¬·.KeepsRules) (extracted fs) f ∧ f.Breaks origin.path e := by
  have hfails : ∀ f ∈ extracted fs, (∃ e, f.checked origin = .error e) ↔ ¬f.KeepsRules := by
    intro f hf
    simp only [FieldDecl.checked_eq_error_iff (h f (mem_extracted.1 hf)), FieldDecl.exists_breaks_iff]
  rw [actions_of_isLayout h hskips hlayout, mapM_eq_error_iff]
  refine exists_congr fun f => ?_
  rw [isFirst_congr hfails]
  exact and_congr_right fun hfirst => FieldDecl.checked_eq_error_iff (h f (mem_extracted.1 hfirst.mem))

end

/-- However fields are laid out, extraction fails exactly if one of them breaks a rule. The error is that of
the first field with arguments that breaks one, or, if there is none, of the first without arguments. -/
theorem extraction_fails_iff (origin : Origin) {fs : List FieldDecl} (h : ∀ f ∈ fs, f.IsProper)
    (hskips : ∀ f ∈ fs, f.SkipsDefaults) {bits : List Bit} (hlayout : IsLayout fs bits) {name : Text}
    (hname : IsIdentifier name) (rest : Text) :
    ∃ result, (flat? (blockText name (written bits) rest)).map (actions origin) = some result ∧
      ((∃ e, result = .error e) ↔ ∃ f ∈ fs, ¬f.KeepsRules) ∧
      ∀ e, result = .error e ↔
        (∃ f, IsFirst (¬·.KeepsRules) (fs.filter (·.args ≠ [])) f ∧ f.Breaks origin.path e) ∨
          (∀ f ∈ fs, f.args ≠ [] → f.KeepsRules) ∧
            ∃ f, IsFirst (¬·.KeepsRules) (fs.filter (·.args = [])) f ∧ f.Breaks origin.path e := by
  refine ⟨_, by rw [flat?_blockText h hlayout hname, Option.map_some], ?_, fun e => ?_⟩
  · have hfirst : (∃ e, actions origin (flatten (written bits)) = .error e) ↔
        ∃ f, IsFirst (¬·.KeepsRules) (extracted fs) f := by
      simp only [actions_eq_error_iff h hskips hlayout]
      constructor
      · rintro ⟨e, f, hfirst, -⟩
        exact ⟨f, hfirst⟩
      · rintro ⟨f, hfirst⟩
        obtain ⟨e, hbreaks⟩ := FieldDecl.exists_breaks_iff.2 hfirst.holds
        exact ⟨e, f, hfirst, hbreaks⟩
    rw [hfirst, exists_isFirst_iff]
    simp only [mem_extracted]
  · rw [actions_eq_error_iff h hskips hlayout]
    -- no field with arguments breaks a rule before one without is looked at
    have hcalled : (∀ f ∈ fs.filter (·.args ≠ []), ¬¬f.KeepsRules) ↔
        ∀ f ∈ fs, f.args ≠ [] → f.KeepsRules := by
      simp [List.mem_filter]
    simp only [extracted, isFirst_append, hcalled, or_and_right, and_assoc, exists_or,
      exists_and_left]

private def nullablePing : FieldDecl := ⟨"ping".toList, [], "Ping".toList, false, []⟩

private def kindArgument : ArgumentDecl :=
  ⟨⟨⟨"Int".toList, false, false, false⟩, "kind".toList⟩, none, []⟩

private def dataArgument : ArgumentDecl :=
  ⟨⟨⟨"UserData".toList, true, false, false⟩, "input".toList⟩, none, []⟩

private def nullableSave : FieldDecl where
  name := "save".toList
  args := [kindArgument, dataArgument]
  response := "SaveResponse".toList
  required := false
  directives := []

/-- White space for a type block with both fields. -/
private def saveSpaces : List (List Bit) :=
  [blanks "\n  ", [], blanks " ", blanks "\n ", [], [], [], blanks " ", [.comma], [], blanks " ",
    blanks "\n", [], [], blanks " ", blanks "\n"]

/-- Three rules are broken. The error is that of the argument, although the first field breaks a rule as
well and the response of the second one stands in the same field. -/
theorem extraction_fails_iff_save :
    (flat? ("type Mutation \x7b\n  ping: Ping\n  ".toList ++
        "save(kind: Int, input: UserData\n!): SaveResponse\n\x7d\n".toList)).map (actions default) =
      some (.error (.inputType default "save".toList "UserData".toList)) := by
  have hproper : ∀ f ∈ [nullablePing, nullableSave], f.IsProper := by
    have hkind : kindArgument.IsProper := by
      refine ⟨by decide, ⟨by decide, by decide⟩, ?_, List.forall_mem_nil _⟩
      rintro d ⟨⟩
    have hdata : dataArgument.IsProper := by
      refine ⟨by decide, ⟨by decide, by decide⟩, ?_, List.forall_mem_nil _⟩
      rintro d ⟨⟩
    simp only [List.forall_mem_cons]
    refine ⟨⟨by decide, List.forall_mem_nil _, by decide, List.forall_mem_nil _⟩,
      ⟨by decide, ?_, by decide, List.forall_mem_nil _⟩, List.forall_mem_nil _⟩
    exact List.forall_mem_cons.2 ⟨hkind, List.forall_mem_singleton.2 hdata⟩
  have hskips : ∀ f ∈ [nullablePing, nullableSave], f.SkipsDefaults := by
    have hnone (a : ArgumentDecl) (h : a.default = none) : ∀ d ∈ a.default, d.IsSkipped := by simp [h]
    refine List.forall_mem_cons.2 ⟨List.forall_mem_nil _, List.forall_mem_singleton.2 ?_⟩
    exact List.forall_mem_cons.2 ⟨hnone _ rfl, List.forall_mem_singleton.2 (hnone _ rfl)⟩
  -- the kernel is slow to decode strings, so lists of characters take their place
  have hread : AreRead (layOut (interiorParts [nullablePing, nullableSave]) saveSpaces) := by
    unfold saveSpaces blanks nullablePing nullableSave kindArgument dataArgument
    repeat rw [String.toList_ofList]
    decide +kernel
  have hlayout : IsLayout [nullablePing, nullableSave]
      (layOut (interiorParts [nullablePing, nullableSave]) saveSpaces) :=
    ⟨fills_layOut (by decide) (by decide), hread⟩
  have htext : "type Mutation \x7b\n  ping: Ping\n  ".toList ++
      "save(kind: Int, input: UserData\n!): SaveResponse\n\x7d\n".toList =
      blockText "Mutation".toList
        (written (layOut (interiorParts [nullablePing, nullableSave]) saveSpaces)) "\n".toList := by
    unfold saveSpaces blanks nullablePing nullableSave kindArgument dataArgument
    repeat rw [String.toList_ofList]
    decide +kernel
  have hname : IsIdentifier "Mutation".toList := by decide
  obtain ⟨result, hresult, -, hfirst⟩ :=
    extraction_fails_iff default hproper hskips hlayout hname "\n".toList
  have horder : inOrder (nullableSave.args.map (·.toArgument)) =
      [dataArgument.toArgument, kindArgument.toArgument] := by
    cbv
  have hbreaks : ¬KeepsRule dataArgument.toArgument := by
    unfold KeepsRule
    decide
  rw [htext, hresult]
  refine congrArg some ((hfirst _).2 (.inl ⟨nullableSave, ?_, .input (a := dataArgument.toArgument) ?_⟩))
  · exact ⟨[], [], rfl, fun hkeeps => Bool.noConfusion hkeeps.response, List.forall_mem_nil _⟩
  · rw [horder]
    exact ⟨[], [kindArgument.toArgument], rfl, hbreaks, List.forall_mem_nil _⟩

end Scaffold.Schema
