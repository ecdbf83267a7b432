import Scaffold.Proofs.Go.Writing
import Scaffold.Proofs.Service.Layout
import Scaffold.Schema.Envelope

/-!
# Generated functions

What the generator writes for an action is Go code of its own. Its signature can be written in front of
any body (`isSignature_signatureTail`), and its stub is the text of a whole function
(`whole_stubFunction`), provided that the action is put together from names.
-/

namespace Scaffold.Service

open Text Go Naming

/-! ## Types -/

/-- An action whose parts are names. -/
structure IsNamed (a : Action) : Prop where
  name : IsName a.name
  args : ∀ arg ∈ a.args, IsName arg.name ∧ IsName arg.typeName
  responseType : IsName a.responseType

/-- Nothing goes on with a word. -/
private def notWord (c : Char) : Bool := !isWordChar c

/-- Nothing goes on with white space. -/
private def notGap (c : Char) : Bool := !isGap c

/-- A Go type, as it can be written behind white space or a mark. -/
private structure IsType (t : Text) : Prop where
  writes : Writes t [] [] notWord
  head : t.head?.any notGap

/-- A name starts with no gap. -/
private theorem head_name {name : Text} (h : IsName name) : name.head?.any notGap := by
  obtain ⟨c, tail, rfl⟩ := List.exists_cons_of_ne_nil h.ne_nil
  simp [notGap, isGap_of_name h List.mem_cons_self]

/-- What holds of every character that is no gap holds of the first one. -/
private theorem head_any {t : Text} (h : t.head?.any notGap) {p : Char → Bool}
    (hp : ∀ c, isGap c = false → p c) : t.head?.any p := by
  cases t with
  | nil => simp at h
  | cons c t => exact hp c (by simpa [notGap] using h)

private theorem head_append {t : Text} {p : Char → Bool} (h : t.head?.any p) (u : Text) :
    (t ++ u).head?.any p := by
  cases t with
  | nil => simp at h
  | cons c t => exact h

/-- The type of a model is a type. -/
private theorem isType_modelType {name : Text} (h : IsName name) : IsType (modelType name) := by
  have hpackage : Writes "model.".toList [] [] (markOf '.').admits :=
    writes_lex (by decide) (by decide) (by decide)
  have hname := isName_recase h
  exact ⟨hpackage.append (writes_name hname) (head_any (head_name hname) fun _ _ => rfl), rfl⟩

/-- The type of every scalar is a type. -/
private theorem isType_scalars : ∀ row ∈ scalars, IsType row.2 := by
  have hword {w : Text} (h : IsName w) : IsType w := ⟨writes_name h, head_name h⟩
  intro row hrow
  simp only [scalars, List.mem_cons, List.not_mem_nil, or_false] at hrow
  -- all scalars are written as names, but for `Upload`, which is qualified
  rcases hrow with rfl | rfl | rfl | rfl | rfl | rfl
  · exact hword (by decide)
  · exact hword (by decide)
  · exact hword (by decide)
  · exact hword (by decide)
  · exact hword (by decide)
  · exact ⟨writes_lex (l := ⟨.word, "Upload".toList⟩) (by decide) (by decide) (by decide), rfl⟩

/-- A type is a scalar or the type of a model. -/
private theorem isType_scalarType {name : Text} (h : IsName name) : IsType (scalarType name) := by
  rcases scalarType_cases name with hscalar | hmodel
  · exact isType_scalars _ hscalar
  · rw [hmodel]
    exact isType_modelType h

private theorem IsType.pointer {t : Text} (h : IsType t) : IsType ('*' :: t) := by
  have hstar : Writes ['*'] [] [] (markOf '*').admits :=
    writes_lex (by decide) (by decide) (by decide)
  exact ⟨hstar.append h.writes (head_any h.head fun _ _ => rfl), rfl⟩

private theorem IsType.slice {t : Text} (h : IsType t) : IsType ("[]".toList ++ t) := by
  have hslice : Writes "[]".toList [] [] (markOf ']').admits :=
    writes_lex (by decide) (by decide) (by decide)
  exact ⟨hslice.append h.writes (head_any h.head fun _ _ => rfl), rfl⟩

private theorem IsType.optional {t : Text} (h : IsType t) (typeName : Text) (required : Bool) :
    IsType (optionalType t typeName required) := by
  unfold optionalType
  split
  · exact h
  · exact h.pointer

/-- The type of a parameter is a type, as an element and as a slice. -/
private theorem isType_parameterType {t : TypeRef} (h : IsName t.typeName) :
    IsType (parameterType t) := by
  have helement := (isType_scalarType h).optional t.typeName t.required
  simp only [parameterType]
  split
  · exact helement.slice.optional t.typeName t.isListRequired
  · exact helement

/-- Without a mark at its end, a response type stands for itself. -/
theorem responseStruct_of_isName {response : Text} (h : IsName response) :
    responseStruct response = modelType response := by
  have hmark : dropEndWhile (· == '!') response = response := by
    have hne : ∀ c ∈ response.reverse, ¬ (c == '!') = true := by
      intro c hc heq
      have hname := h.chars c (by simpa using hc)
      rw [beq_iff_eq.1 heq] at hname
      exact absurd hname (by decide)
    have hdrop : response.reverse.dropWhile (· == '!') = response.reverse := by
      cases hrev : response.reverse with
      | nil => rfl
      | cons c rest => exact List.dropWhile_cons_of_neg (hne c (by simp [hrev]))
    rw [dropEndWhile, hdrop, List.reverse_reverse]
  rw [responseStruct, hmark]

/-- The struct of a response is a type. -/
private theorem isType_responseStruct {response : Text} (h : IsName response) :
    IsType (responseStruct response) := by
  rw [responseStruct_of_isName h]
  exact isType_modelType h

/-! ## Signatures -/

/-- The parameters and results of an action, as they stand in front of a body. -/
def signatureTail (a : Action) : Text :=
  '(' :: parameters a ++ ") (".toList ++ responsePointer a.responseType ++ ", error) ".toList

/-- The type of a method ends with the brace that opens its body. -/
theorem typeText_eq (a : Action) : typeText a = signatureTail a ++ ['{'] := by
  have hclose : ", error) \x7b".toList = ", error) ".toList ++ ['{'] := by decide
  exact (congrArg (('(' :: parameters a ++ ") (".toList ++ responsePointer a.responseType) ++ ·)
    hclose).trans (List.append_assoc _ _ _).symm

/-- What follows the context in a parameter list does not continue its type. -/
private theorem head_argumentParameters (args : List Argument) (rest : Text) :
    (argumentParameters args ++ (") (".toList ++ rest)).head?.any notWord := by
  cases args with
  | nil =>
    have hclose : notWord ')' = true := by decide
    simpa [argumentParameters] using hclose
  | cons arg args =>
    have hcomma : notWord ',' = true := by decide
    simpa [argumentParameters] using hcomma

/-- Parameters are read as they are written, up to what follows the list. -/
private theorem writes_argumentParameters {args : List Argument}
    (h : ∀ arg ∈ args, IsName arg.name ∧ IsName arg.typeName) {rest : Text}
    {next : Char → Bool} (hrest : Writes rest [')'] [] next) (hhead : rest.head?.any notGap) :
    Writes (argumentParameters args ++ (") (".toList ++ rest)) [')'] [] next := by
  induction args with
  | nil =>
    have hopen : Writes ") (".toList [')'] [')'] (markOf '(').admits :=
      writes_lex (by decide) (by decide) (by decide)
    exact hopen.append hrest (head_any hhead fun _ _ => rfl)
  | cons arg args ih =>
    obtain ⟨hname, htype⟩ := h arg (by simp)
    have htype' := isType_parameterType (t := arg.toTypeRef) htype
    have hname' := isName_recase hname
    have hcomma : Writes ", ".toList [] [] notGap :=
      writes_lex (l := ⟨.blank, [' ']⟩) (by decide) (by decide) (by decide)
    have hspace : Writes [' '] [] [] notGap :=
      writes_lex (l := ⟨.blank, [' ']⟩) (by decide) (by decide) (by decide)
    have hargs := ih fun b hb => h b (by simp [hb])
    -- from the back to the front: the type, the space, the name and the comma
    have htypes := (htype'.writes.frame [')']).append hargs (head_argumentParameters args rest)
    have hspaces := (hspace.frame [')']).append htypes (head_append htype'.head _)
    have hnames := ((writes_name hname').frame [')']).append hspaces (head_append (t := [' ']) (by decide) _)
    have hcommas := (hcomma.frame [')']).append hnames (head_append (head_name hname') _)
    simpa [argumentParameters] using hcommas

private theorem no_brace_name {name : Text} (h : IsName name) : '{' ∉ name := by
  intro hmem
  exact absurd (h.chars _ hmem) (by decide)

/-- The type of a model opens no brace. -/
private theorem no_brace_modelType {name : Text} (h : IsName name) : '{' ∉ modelType name := by
  simp [modelType, modelPackage, no_brace_name (isName_recase h)]

private theorem no_brace_responseStruct {response : Text} (h : IsName response) :
    '{' ∉ responseStruct response := by
  rw [responseStruct_of_isName h]
  exact no_brace_modelType h

private theorem no_brace_scalarType {name : Text} (h : IsName name) : '{' ∉ scalarType name := by
  rcases scalarType_cases name with hscalar | hmodel
  · have hall : ∀ row ∈ scalars, '{' ∉ row.2 := by decide
    exact hall _ hscalar
  · rw [hmodel]
    exact no_brace_modelType h

private theorem no_brace_optionalType {t : Text} (h : '{' ∉ t) (typeName : Text) (required : Bool) :
    '{' ∉ optionalType t typeName required := by
  unfold optionalType
  split
  · exact h
  · simpa using h

/-- The type of a parameter opens no brace. -/
private theorem no_brace_parameterType {t : TypeRef} (h : IsName t.typeName) :
    '{' ∉ parameterType t := by
  have helement := no_brace_optionalType (no_brace_scalarType h) t.typeName t.required
  simp only [parameterType]
  split
  · exact no_brace_optionalType (by simpa using helement) t.typeName t.isListRequired
  · exact helement

private theorem no_brace_argumentParameters {args : List Argument}
    (h : ∀ arg ∈ args, IsName arg.name ∧ IsName arg.typeName) :
    '{' ∉ argumentParameters args := by
  intro hmem
  obtain ⟨arg, harg, hmem⟩ := List.mem_flatMap.1 hmem
  obtain ⟨hname, htype⟩ := h arg harg
  have htype' := no_brace_parameterType (t := arg.toTypeRef) htype
  simp [no_brace_name (isName_recase hname), htype'] at hmem

/-- A signature is read as it is written, behind the name and in front of the brace. -/
private theorem writes_signatureTail {a : Action} (h : IsNamed a) :
    Writes (signatureTail a) [] [] notGap := by
  have hopen : Writes ['('] [] [')'] (markOf '(').admits :=
    writes_lex (by decide) (by decide) (by decide)
  have hcontext : Writes "ctx context.Context".toList [] [] notWord :=
    writes_lex (l := ⟨.word, "Context".toList⟩) (by decide) (by decide) (by decide)
  have herror : Writes ", error) ".toList [')'] [] notGap :=
    writes_lex (l := ⟨.blank, [' ']⟩) (by decide) (by decide) (by decide)
  have hresponse := (isType_responseStruct h.responseType).pointer
  have hresults := (hresponse.writes.frame [')']).append herror (by decide)
  have hargs := writes_argumentParameters h.args hresults (head_append hresponse.head _)
  have hparameters := (hcontext.frame [')']).append hargs (head_argumentParameters a.args _)
  have hall := hopen.append hparameters
    (head_append (t := "ctx context.Context".toList) (by decide) _)
  have htext : signatureTail a = ['('] ++ ("ctx context.Context".toList ++
      (argumentParameters a.args ++ (") (".toList ++
        ('*' :: responseStruct a.responseType ++ ", error) ".toList)))) := by
    unfold signatureTail parameters responsePointer
    simp only [List.append_assoc, List.cons_append, List.nil_append]
  rw [htext]
  exact hall

/-- The signature of an action can be written in front of a body. -/
theorem isSignature_signatureTail {a : Action} (h : IsNamed a) :
    IsSignature (signatureTail a) := by
  refine ⟨⟨notGap, writes_signatureTail h, by decide⟩, ?_, ?_⟩
  · have hargs := no_brace_argumentParameters h.args
    have hresponse : '{' ∉ responseStruct a.responseType := no_brace_responseStruct h.responseType
    have hcontext : '{' ∉ '(' :: "ctx context.Context".toList := by decide
    have hresults : '{' ∉ ") (".toList := by decide
    have herror : '{' ∉ ", error) ".toList := by decide
    unfold signatureTail parameters responsePointer
    rw [← List.cons_append]
    simp only [List.mem_append, not_or]
    exact ⟨⟨⟨⟨hcontext, hargs⟩, hresults⟩, by simpa using hresponse⟩, herror⟩
  · rfl

/-! ## Stubs -/

/-- No word can continue behind a mark. -/
private theorem Writes.notWord {t : Text} {before after : List Char} {c : Char}
    (h : Writes t before after (markOf c).admits) (hc : c ≠ '/') :
    Writes t before after notWord := by
  obtain ⟨ls, htext, hls, hnest, hreads⟩ := h
  refine ⟨ls, htext, hls, hnest, fun d s _ => hreads d s ?_⟩
  simpa [Lexeme.admits, markOf] using hc

/-- The declaration of the variable `result` without the white space around it. -/
private def resultCore (t : TypeRef) : Text :=
  let goType := scalarType t.typeName
  if t.typeName = [] then "var result interface\x7b\x7d".toList
  else
    match isScalar t.typeName, t.isList with
    | true, true => "result := []".toList ++ goType ++ "\x7b\x7d".toList
    | true, false => "var result ".toList ++ goType
    | false, true => "result := []*".toList ++ goType ++ "\x7b\x7d".toList
    | false, false => "result := ".toList ++ goType ++ "\x7b\x7d".toList

/-- A line behind a tab, with its newline. -/
private theorem indent_eq {front front' back back' : Text} (goType : Text)
    (hfront : front = '\t' :: front') (hback : back = back' ++ ['\n']) :
    front ++ goType ++ back = ['\t'] ++ (front' ++ goType ++ back' ++ ['\n']) := by
  rw [hfront, hback]
  simp

/-- The declaration of a result is its core on an indented line. -/
private theorem resultDeclaration_eq (t : TypeRef) :
    resultDeclaration t = ['\t'] ++ (resultCore t ++ ['\n']) := by
  have hslice : "\tresult := []".toList = '\t' :: "result := []".toList := by decide
  have hvar : "\tvar result ".toList = '\t' :: "var result ".toList := by decide
  have hpointers : "\tresult := []*".toList = '\t' :: "result := []*".toList := by decide
  have hvalue : "\tresult := ".toList = '\t' :: "result := ".toList := by decide
  have hbraces : "\x7b\x7d\n".toList = "\x7b\x7d".toList ++ ['\n'] := by decide
  have hline : "\n".toList = [] ++ ['\n'] := by decide
  unfold resultDeclaration resultCore
  simp only
  split
  · decide
  · cases isScalar t.typeName <;> cases t.isList
    · exact indent_eq _ hvalue hbraces
    · exact indent_eq _ hpointers hbraces
    · have hindent := indent_eq (scalarType t.typeName) hvar hline
      rwa [List.append_nil] at hindent
    · exact indent_eq _ hslice hbraces

/-- A declaration around a type is read as it is written. -/
private theorem writes_typed {front back goType : Text} {l : Lexeme} (htype : IsType goType)
    (hfront : Writes front [] [] l.admits) (hnext : ∀ c, isGap c = false → l.admits c)
    (hback : Writes back [] [] notWord) (hhead : back.head?.any notWord) :
    Writes (front ++ goType ++ back) [] [] notWord := by
  rw [List.append_assoc]
  exact hfront.append (htype.writes.append hback hhead) (head_any (head_append htype.head _) hnext)

/-- The declaration of a result is read as it is written. -/
private theorem writes_resultCore {t : TypeRef} (h : t.typeName = [] ∨ IsName t.typeName) :
    Writes (resultCore t) [] [] notWord ∧ (resultCore t).head?.any notGap := by
  unfold resultCore
  simp only
  -- one case for each form of a declaration: empty, a slice, a scalar, pointers, a struct
  split_ifs with hnil
  · exact ⟨Writes.notWord (c := '}') (writes_lex (by decide) (by decide) (by decide)) (by decide),
      by decide⟩
  · have htype := isType_scalarType (h.resolve_left hnil)
    have hbraces : Writes "\x7b\x7d".toList [] [] notWord :=
      Writes.notWord (c := '}') (writes_lex (by decide) (by decide) (by decide)) (by decide)
    have hspace (c : Char) (hc : isGap c = false) : (Lexeme.mk .blank [' ']).admits c := by
      simpa [Lexeme.admits] using hc
    split
    · exact ⟨writes_typed (l := markOf ']') htype (writes_lex (by decide) (by decide) (by decide))
        (fun _ _ => rfl) hbraces (by decide),
        head_append (head_append (t := "result := []".toList) (by decide) _) _⟩
    · refine ⟨?_, head_append (t := "var result ".toList) (by decide) _⟩
      have hvar : Writes "var result ".toList [] [] (Lexeme.mk .blank [' ']).admits :=
        writes_lex (by decide) (by decide) (by decide)
      exact hvar.append htype.writes (head_any htype.head hspace)
    · exact ⟨writes_typed (l := markOf '*') htype (writes_lex (by decide) (by decide) (by decide))
        (fun _ _ => rfl) hbraces (by decide),
        head_append (head_append (t := "result := []*".toList) (by decide) _) _⟩
    · exact ⟨writes_typed htype (writes_lex (by decide) (by decide) (by decide)) hspace hbraces
        (by decide), head_append (head_append (t := "result := ".toList) (by decide) _) _⟩

/-- The body of a stub can be written as it is. -/
theorem isBody_stubBody {a : Action} {t : TypeRef} (h : IsNamed a)
    (ht : t.typeName = [] ∨ IsName t.typeName) : IsBody (stubBody a t) := by
  have hopening : Writes ("\n\t".toList ++ stubPanic ++
      "\n\n\ttimeStart := time.Now()\n\tsuccess := false\n".toList ++ ['\t']) [] [] notGap := by
    unfold stubPanic
    repeat rw [String.toList_ofList]
    exact writes_lex (l := ⟨.blank, ['\n', '\t']⟩) (by decide) (by decide) (by decide)
  obtain ⟨hcore, hhead⟩ := writes_resultCore ht
  have hresponse : Writes (['\n'] ++ "\tresponse := ".toList) [] [] notGap :=
    writes_lex (l := ⟨.blank, [' ']⟩) (by decide) (by decide) (by decide)
  have hstruct := isType_responseStruct h.responseType
  have hopen : Writes "\x7b\n\t\tResult:      ".toList [] ['}'] notGap :=
    writes_lex (l := ⟨.blank, "      ".toList⟩) (by decide) (by decide) (by decide)
  have hvalue : Writes (resultValue t) ['}'] ['}'] notWord ∧ (resultValue t).head?.any notGap := by
    unfold resultValue
    split
    · exact ⟨writes_lex (l := ⟨.word, "result".toList⟩) (by decide) (by decide) (by decide),
        by decide⟩
    · exact ⟨writes_lex (l := ⟨.word, "result".toList⟩) (by decide) (by decide) (by decide),
        by decide⟩
  have hclose : Writes
      (",\n\t\tSuccess:     success,\n\t\tElapsedTime: time.Since(timeStart).String(),\n\t\x7d\n".toList ++
        "\treturn &response, nil\n".toList) ['}'] [] notGap := by
    repeat rw [String.toList_ofList]
    exact writes_lex (l := ⟨.blank, ['\n']⟩) (by decide) (by decide) (by decide)
  -- put together from the end, since each text has to fit the one behind it
  have hvalues := hvalue.1.append hclose (by decide)
  have hopens := hopen.append hvalues (head_append hvalue.2 _)
  have hstructs := hstruct.writes.append hopens
    (head_append (t := "\x7b\n\t\tResult:      ".toList) (by decide) _)
  have hresponses := hresponse.append hstructs (head_append hstruct.head _)
  have hcores := hcore.append hresponses (head_append (t := ['\n']) (by decide) _)
  have hall := hopening.append hcores (head_append hhead _)
  have hbody := hall.isBody (by decide)
  unfold stubBody
  rw [resultDeclaration_eq]
  simp only [List.append_assoc] at hbody ⊢
  exact hbody

/-- The function that a stub is the text of. -/
def stubFunction (a : Action) (t : TypeRef) : Function where
  leadingComment := none
  opening := "func ".toList
  name := functionName a
  parameters := signatureTail a ++ ['{']
  body := stubBody a t

/-- A signature is the keyword, the name, the rest and a brace. -/
theorem signature_eq (a : Action) :
    signature a = "func ".toList ++ functionName a ++ (signatureTail a ++ ['{']) := by
  rw [signature, typeText_eq]

/-- The function of a stub is written as the stub. -/
theorem verbatim_stubFunction (a : Action) (t : TypeRef) :
    verbatim (stubFunction a t) = stub a t := by
  have hend : "\x7d\n\n".toList = ['}'] ++ "\n\n".toList := by decide
  rw [stub, signature_eq, hend]
  unfold verbatim Function.text Function.signature stubFunction
  simp only [Option.elim_none, List.nil_append, List.append_assoc]

/-- The function of a stub can be moved as a whole. -/
theorem whole_stubFunction {a : Action} {t : TypeRef} (h : IsNamed a)
    (ht : t.typeName = [] ∨ IsName t.typeName) :
    Whole (stubFunction a t) ∧ Sturdy (lex (stubFunction a t).text) :=
  whole_of_writes (by simp) (isName_functionName h.name) (isSignature_signatureTail h)
    (isBody_stubBody h ht) rfl

end Scaffold.Service
