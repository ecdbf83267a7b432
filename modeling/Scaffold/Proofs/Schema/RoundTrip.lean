import Mathlib.Data.List.Permutation
import Scaffold.Proofs.Schema.Extraction
import Scaffold.Proofs.Schema.Layout

/-!
# Extraction undoes printing

The actions of a schema text are those of its declared fields, in whatever layout the fields are
printed (`actions_of_isLayout`). If the fields keep the rules then there is one action for each of them
(`extraction_undoes_printing`).
-/

namespace Scaffold.Schema

open Text

/-! ## What a field declares -/

/-- The action that a field declares. -/
def FieldDecl.action (origin : Origin) (f : FieldDecl) : Action :=
  ⟨f.name, inOrder (f.args.map (·.toArgument)), f.response, origin.kind, origin.owner⟩

/-- The action that a field declares, or the first rule that it breaks. -/
def FieldDecl.checked (origin : Origin) (f : FieldDecl) : Except SchemaError Action := do
  let args ← (inOrder (f.args.map (·.toArgument))).mapM (checkArgument origin.path f.name)
  let response ← responseName origin.path f.name (responseToken f.response f.required)
  return ⟨f.name, args, response, origin.kind, origin.owner⟩

/-- Whether a field keeps the rules: its response must not be null, and an argument `input` has an input
type. -/
structure FieldDecl.KeepsRules (f : FieldDecl) : Prop where
  response : f.required
  input : ∀ a ∈ f.args, a.name = "input".toList → occursIn "Input".toList a.typeName

/-- Whether all default values of a field are skipped. -/
def FieldDecl.SkipsDefaults (f : FieldDecl) : Prop := ∀ a ∈ f.args, ∀ d ∈ a.default, d.IsSkipped

/-- Whether bits are a layout of fields in the interior of a type block. -/
structure IsLayout (fs : List FieldDecl) (bits : List Bit) : Prop where
  fills : Fills (interiorParts fs) bits
  read : AreRead bits

section

variable {origin : Origin} {f : FieldDecl} {fs : List FieldDecl} {bits : List Bit}

/-- An argument passes its check unless it is an input without an input type. -/
theorem checkArgument_eq_ok_iff {path : Path} {action : Text} {a b : Argument} :
    checkArgument path action a = .ok b ↔
      a = b ∧ (a.name = "input".toList → occursIn "Input".toList a.typeName) := by
  unfold checkArgument
  split_ifs with h
  · obtain ⟨hname, hinput⟩ : a.name = "input".toList ∧ occursIn "Input".toList a.typeName = false := by
      simpa using h
    refine iff_of_false (by simp) fun hkeeps => ?_
    rw [hkeeps.2 hname] at hinput
    exact Bool.noConfusion hinput
  · rw [Except.ok.injEq, eq_comm]
    refine (and_iff_left fun hname => ?_).symm
    simpa [hname] using h

/-- A required response passes its check and loses its mark. -/
theorem responseName_responseToken {path : Path} {action response : Text} (h : IsIdentifier response) :
    responseName path action (responseToken response true) = .ok response := by
  have hlast : (response ++ ['!']).getLast? = some '!' := List.getLast?_concat
  simp [responseName, responseToken, TypeRef.mark, hlast, h.ne_nil]

/-- A field that keeps the rules declares its action. -/
theorem FieldDecl.checked_eq_ok (h : f.IsProper) (hrules : f.KeepsRules) :
    f.checked origin = .ok (f.action origin) := by
  have hargs : (inOrder (f.args.map (·.toArgument))).mapM (checkArgument origin.path f.name) =
      .ok (inOrder (f.args.map (·.toArgument))) := by
    refine mapM_eq_ok_iff.2 (List.forall₂_same.2 fun a ha => checkArgument_eq_ok_iff.2 ⟨rfl, ?_⟩)
    obtain ⟨decl, hdecl, rfl⟩ := List.mem_map.1 ((List.mergeSort_perm _ _).mem_iff.1 ha)
    exact hrules.input decl hdecl
  have hresponse : f.required = true := hrules.response
  unfold FieldDecl.checked
  rw [hargs, hresponse, responseName_responseToken h.response]
  rfl

/-- A field of flat text is checked like the declared one. -/
theorem toAction_of_isField (h : f.IsProper) (hskips : f.SkipsDefaults) {field : RawField}
    (hfield : IsField f field) : f.checked origin = field.toAction origin := by
  unfold FieldDecl.checked RawField.toAction
  rw [hfield.name, hfield.response, readArguments_of_holds h.args hskips hfield.args]

/-- Extraction takes each field once. -/
theorem perm_extracted (fs : List FieldDecl) : (extracted fs).Perm fs := by
  have hnot : fs.filter (·.args = []) = fs.filter fun f => !decide (f.args ≠ []) := by simp
  rw [extracted, hnot]
  exact List.filter_append_perm _ fs

theorem mem_extracted : f ∈ extracted fs ↔ f ∈ fs := (perm_extracted fs).mem_iff

/-! ## Actions of layouts -/

/-- The flat text of a schema that is one type block. -/
theorem flat?_blockText (h : ∀ f ∈ fs, f.IsProper) (hlayout : IsLayout fs bits) {name : Text}
    (hname : IsIdentifier name) (rest : Text) :
    flat? (blockText name (written bits) rest) = some (flatten (written bits)) := by
  have hdepth : depthAfter? 0 bits = some 0 :=
    (depthAfter?_of_fills hlayout.fills (tidy_interiorParts h).isProper 0).trans
      (balanced_interiorParts h 0)
  rw [flat?, interior?_blockText hname hlayout.read hdepth, Option.map_some]

/-- Fields are checked in the order of extraction, up to the first that breaks a rule. -/
theorem actions_of_isLayout (h : ∀ f ∈ fs, f.IsProper) (hskips : ∀ f ∈ fs, f.SkipsDefaults)
    (hlayout : IsLayout fs bits) :
    actions origin (flatten (written bits)) = (extracted fs).mapM (·.checked origin) := by
  have hfields := forall₂_fields h hlayout.fills hlayout.read
  have hmem : ∀ f ∈ extracted fs, f ∈ fs := fun f hf => mem_extracted.1 hf
  refine (mapM_eq_of_forall₂ (((List.forall₂_and_left _ _).2 ⟨hmem, hfields⟩).imp ?_)).symm
  rintro f field ⟨hf, hfield⟩
  exact toAction_of_isField (h f hf) (hskips f hf) hfield

/-- Fields that keep the rules have their actions, in the order of extraction. -/
theorem actions_eq_ok_of_isLayout (h : ∀ f ∈ fs, f.IsProper) (hrules : ∀ f ∈ fs, f.KeepsRules)
    (hskips : ∀ f ∈ fs, f.SkipsDefaults) (hlayout : IsLayout fs bits) :
    actions origin (flatten (written bits)) = .ok ((extracted fs).map (·.action origin)) := by
  rw [actions_of_isLayout h hskips hlayout]
  refine mapM_eq_ok_iff.2 (List.forall₂_map_right_iff.2 (List.forall₂_same.2 fun f hf => ?_))
  exact FieldDecl.checked_eq_ok (h f (mem_extracted.1 hf)) (hrules f (mem_extracted.1 hf))

end

/-- Extraction undoes printing: however declared fields are laid out, a type block of theirs has one
action for each of them, with its arguments in the order of their texts. Actions of fields with
arguments come first. -/
theorem extraction_undoes_printing (origin : Origin) {fs : List FieldDecl} (h : ∀ f ∈ fs, f.IsProper)
    (hrules : ∀ f ∈ fs, f.KeepsRules) (hskips : ∀ f ∈ fs, f.SkipsDefaults) {bits : List Bit}
    (hlayout : IsLayout fs bits) {name : Text} (hname : IsIdentifier name) (rest : Text) :
    (flat? (blockText name (written bits) rest)).map (actions origin) =
      some (.ok ((extracted fs).map (·.action origin))) := by
  rw [flat?_blockText h hlayout hname, Option.map_some, actions_eq_ok_of_isLayout h hrules hskips hlayout]

private def ping : FieldDecl := ⟨"ping".toList, [], "PingResponse".toList, true, []⟩

private def limitOfTen : ArgumentDecl :=
  ⟨⟨⟨"Int".toList, false, false, false⟩, "limit".toList⟩, some ⟨true, [.token "10".toList]⟩, []⟩

private def userInput : ArgumentDecl :=
  ⟨⟨⟨"UserInput".toList, true, true, true⟩, "input".toList⟩, none, [⟨"checked".toList, none⟩]⟩

private def users : FieldDecl where
  name := "users".toList
  args := [limitOfTen, userInput]
  response := "UsersResponse".toList
  required := true
  directives := [⟨"cost".toList, some ("weight".toList, "2".toList)⟩]

/-- White space for a type block with both fields. -/
private def rosterSpaces : List (List Bit) :=
  [blanks "\n  " ++ [.comment " all users: (and more)".toList] ++ blanks "\n  ",
    blanks " ", blanks " ", blanks " ",
    blanks "\n  " ++ [.block "The users, \x7bpaged\x7d.".toList] ++ blanks "\n ",
    [], blanks "\n    ", [], blanks " ", [], blanks "\r\n\t",
    [.comma] ++ blanks " " ++ [.quoted "whom: to find".toList], [], blanks " ", blanks " ", [],
    blanks " ", [], [], blanks "\n  ", [], blanks " ", [], blanks " ", blanks " ", [], [], blanks " ",
    [], blanks "\n"]

private def roster : Text :=
  "type Query \x7b\n  # all users: (and more)\n  ping : PingResponse !\n".toList ++
    "  \"\"\"The users, \x7bpaged\x7d.\"\"\"\n  users(\n".toList ++
    "    limit: Int =\r\n\t10, \"whom: to find\" input: [ UserInput! ]! @checked\n".toList ++
    "  ): UsersResponse! @cost (weight: 2)\n\x7d\n".toList

theorem extraction_undoes_printing_roster :
    (flat? roster).map (actions default) =
      some (.ok [
        ⟨"users".toList,
          [⟨⟨"UserInput".toList, true, true, true⟩, "input".toList⟩,
            ⟨⟨"Int".toList, false, false, false⟩, "limit".toList⟩],
          "UsersResponse".toList, .query, default⟩,
        ⟨"ping".toList, [], "PingResponse".toList, .query, default⟩]) := by
  have hlimit : limitOfTen.IsProper := by
    refine ⟨by decide, ⟨by decide, by decide⟩, ?_, by simp [limitOfTen]⟩
    rintro d ⟨⟩
    exact .literal (by decide)
  have hchecked : Directive.IsProper ⟨"checked".toList, none⟩ := ⟨by decide, by simp⟩
  have hinput : userInput.IsProper := by
    refine ⟨by decide, ⟨by decide, by decide⟩, ?_, ?_⟩
    · rintro d ⟨⟩
    · exact List.forall_mem_singleton.2 hchecked
  have hcost : Directive.IsProper ⟨"cost".toList, some ("weight".toList, "2".toList)⟩ := by
    refine ⟨by decide, ?_⟩
    rintro key value ⟨⟩
    exact ⟨by decide, by decide⟩
  have hproper : ∀ f ∈ [ping, users], f.IsProper := by
    simp only [List.forall_mem_cons]
    refine ⟨⟨by decide, by simp [ping], by decide, by simp [ping]⟩,
      ⟨by decide, ?_, by decide, ?_⟩, by simp⟩
    · exact List.forall_mem_cons.2 ⟨hlimit, List.forall_mem_singleton.2 hinput⟩
    · exact List.forall_mem_singleton.2 hcost
  have hrules : ∀ f ∈ [ping, users], f.KeepsRules := by
    simp only [List.forall_mem_cons]
    exact ⟨⟨rfl, by simp [ping]⟩, ⟨rfl, by decide⟩, by simp⟩
  have hskips : ∀ f ∈ [ping, users], f.SkipsDefaults := by
    have hten : ∀ t, Part.token t ∈ [.token "10".toList] → ':' ∉ t := by
      intro t ht
      rw [Part.token.inj (List.mem_singleton.1 ht)]
      decide
    have hlimitSkipped : ∀ d ∈ limitOfTen.default, d.IsSkipped := by
      rintro d ⟨⟩
      exact ⟨rfl, hten⟩
    have hinputSkipped : ∀ d ∈ userInput.default, d.IsSkipped := by rintro d ⟨⟩
    refine List.forall_mem_cons.2 ⟨by simp [FieldDecl.SkipsDefaults, ping], ?_⟩
    refine List.forall_mem_singleton.2 (List.forall_mem_cons.2 ⟨hlimitSkipped, ?_⟩)
    exact List.forall_mem_singleton.2 hinputSkipped
  -- the kernel is slow to decode strings, so lists of characters take their place
  have hread : AreRead (layOut (interiorParts [ping, users]) rosterSpaces) := by
    unfold rosterSpaces blanks ping users limitOfTen userInput
    repeat rw [String.toList_ofList]
    decide +kernel
  have hlayout : IsLayout [ping, users] (layOut (interiorParts [ping, users]) rosterSpaces) :=
    ⟨fills_layOut (by decide) (by decide), hread⟩
  have htext : blockText "Query".toList
      (written (layOut (interiorParts [ping, users]) rosterSpaces)) "\n".toList = roster := by
    unfold roster rosterSpaces blanks ping users limitOfTen userInput
    repeat rw [String.toList_ofList]
    decide +kernel
  have hactions : (extracted [ping, users]).map (·.action default) = [
      ⟨"users".toList,
        [⟨⟨"UserInput".toList, true, true, true⟩, "input".toList⟩,
          ⟨⟨"Int".toList, false, false, false⟩, "limit".toList⟩],
        "UsersResponse".toList, .query, default⟩,
      ⟨"ping".toList, [], "PingResponse".toList, .query, default⟩] := by
    cbv
  rw [← hactions, ← htext]
  exact extraction_undoes_printing default hproper hrules hskips hlayout (by decide) _

end Scaffold.Schema
