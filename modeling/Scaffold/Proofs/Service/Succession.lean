import Scaffold.Proofs.Service.Clause
import Scaffold.Proofs.Service.Drift
import Scaffold.Proofs.Table

/-!
# Succession

The function that a regenerated service file has for an action is the *successor* of the old function of
its name. It has the body of the function that it succeeds, if that was no stub (`sameBody_successor`),
and it succeeds itself (`fate_successor`): what a run leaves, the next run keeps.
-/

namespace Scaffold.Service

open Text Go Naming

/-! ## Bodies -/

/-- Two functions with one body, up to white space at its end. -/
def SameBody (f g : Function) : Prop := trimEnd f.body = trimEnd g.body

/-- Whether a function answers with a response. -/
def answers (f : Function) : Bool := occursIn responseReturn f.body

private theorem getLast?_responseReturn : responseReturn.getLast? = some 'e' := by decide

private theorem getLast?_stubPanic : stubPanic.getLast? = some ')' := by decide

/-- White space at the end of a body is not looked at. -/
theorem SameBody.answers {f g : Function} (h : SameBody f g) : answers f = answers g := by
  rw [Bool.eq_iff_iff, Service.answers, Service.answers, occursIn_iff, occursIn_iff,
    ← infix_trimEnd_iff getLast?_responseReturn (by decide), h,
    infix_trimEnd_iff getLast?_responseReturn (by decide)]

/-- A stub panics at once. -/
theorem isStub_iff {f : Function} : isStub f ↔ stubPanic <+: trim f.body := by
  rw [isStub, after?_isSome, trim, prefix_trimEnd_iff getLast?_stubPanic (by decide)]

/-- Being a stub depends on the body only. -/
theorem SameBody.isStub {f g : Function} (h : SameBody f g) : isStub f = isStub g := by
  rw [Bool.eq_iff_iff, isStub_iff, isStub_iff, ← trimStart_trimEnd, h, trimStart_trimEnd]

/-- A drifted function has its old body. -/
theorem sameBody_driftedFunction (f : Function) (a : Action) : SameBody (driftedFunction f a) f := by
  have hline : ∀ c ∈ ['\n'], isBlank c := by decide
  show trimEnd (trimEnd f.body ++ ['\n']) = trimEnd f.body
  rw [trimEnd_append_of_blank hline, trimEnd_trimEnd]

theorem isStub_stubFunction (a : Action) (t : TypeRef) : isStub (stubFunction a t) := by
  have hblank : ∀ c ∈ "\n\t".toList, isBlank c := by decide
  have hpanic : trimStart stubPanic = stubPanic := by decide
  have hne : stubPanic ≠ [] := by decide
  rw [isStub, after?_isSome]
  show stubPanic <+: trimStart (stubBody a t)
  unfold stubBody
  simp only [List.append_assoc]
  rw [trimStart_append_of_blank hblank, trimStart_append_of_ne_nil hpanic hne]
  exact List.prefix_append _ _

theorem answers_stubFunction (a : Action) (t : TypeRef) : answers (stubFunction a t) := by
  have hreturn : responseReturn <:+: "\treturn &response, nil\n".toList := by decide
  rw [answers, occursIn_iff]
  show responseReturn <:+: stubBody a t
  exact hreturn.trans (List.suffix_append _ _).isInfix

/-! ## Successors -/

/-- The function that is written for an action over the old function of its name. -/
def successor (responses : Schema.Registry) (a : Action) (old : Option Function) : Function :=
  match old.filter (!isStub ·) with
  | some f => if trim f.signature = trim (signature a) then f else driftedFunction f a
  | none => stubFunction a (Schema.resultOf responses a.responseType)

variable {responses : Schema.Registry} {a : Action} {old : Option Function}

/-- What becomes of an action is the text of the successor. -/
theorem fate_text (responses : Schema.Registry) (a : Action) (old : Option Function) :
    (fate responses a old).text = verbatim (successor responses a old) := by
  unfold fate successor
  cases old.filter (!isStub ·) with
  | none => exact (verbatim_stubFunction a _).symm
  | some f =>
    simp only
    split_ifs
    · rfl
    · rw [verbatim_driftedFunction, Fate.text]

/-- A successor is a stub, the old function, or the old function under a new signature. -/
theorem successor_cases (responses : Schema.Registry) (a : Action) (old : Option Function) :
    (old.filter (!isStub ·) = none ∧
      successor responses a old = stubFunction a (Schema.resultOf responses a.responseType)) ∨
    ∃ f, old = some f ∧ isStub f = false ∧
      (trim f.signature = trim (signature a) ∧ successor responses a old = f ∨
        trim f.signature ≠ trim (signature a) ∧
          successor responses a old = driftedFunction f a) := by
  unfold successor
  cases hold : old.filter (!isStub ·) with
  | none => exact .inl ⟨rfl, rfl⟩
  | some f =>
    obtain ⟨hf, hstub⟩ := Option.filter_eq_some_iff.1 hold
    refine .inr ⟨f, hf, by simpa using hstub, ?_⟩
    by_cases hsignature : trim f.signature = trim (signature a)
    · exact .inl ⟨hsignature, if_pos hsignature⟩
    · exact .inr ⟨hsignature, if_neg hsignature⟩

/-- An implementation keeps its body. -/
theorem sameBody_successor (responses : Schema.Registry) (a : Action) {f : Function}
    (hf : isStub f = false) :
    SameBody (successor responses a (some f)) f := by
  rcases successor_cases responses a (some f) with ⟨hnone, -⟩ | ⟨g, ⟨⟩, -, ⟨-, hkept⟩ | ⟨-, hdrift⟩⟩
  · simp [hf] at hnone
  · rw [hkept]
    rfl
  · rw [hdrift]
    exact sameBody_driftedFunction f a

/-- A successor has the name of its action's function. -/
theorem name_successor (h : ∀ f ∈ old, f.name = functionName a) :
    (successor responses a old).name = functionName a := by
  rcases successor_cases responses a old with ⟨-, hstub⟩ | ⟨f, rfl, -, ⟨-, hkept⟩ | ⟨-, hdrift⟩⟩
  · rw [hstub]
    rfl
  · rw [hkept]
    exact h f rfl
  · rw [hdrift]
    rfl

/-- A successor answers. -/
theorem answers_successor (h : ∀ f ∈ old, answers f) : answers (successor responses a old) := by
  rcases successor_cases responses a old with ⟨-, hstub⟩ | ⟨f, rfl, -, ⟨-, hkept⟩ | ⟨-, hdrift⟩⟩
  · rw [hstub]
    exact answers_stubFunction a _
  · rw [hkept]
    exact h f rfl
  · rw [hdrift, (sameBody_driftedFunction f a).answers]
    exact h f rfl

/-- A successor can be moved as a whole. -/
theorem whole_successor (ha : IsNamed a)
    (ht : ∀ t ∈ responses.values, IsName t.typeName)
    (h : ∀ f ∈ old, Whole f ∧ Sturdy (lex f.text)) :
    Whole (successor responses a old) ∧ Sturdy (lex (successor responses a old).text) := by
  have hresult : (Schema.resultOf responses a.responseType).typeName = [] ∨
      IsName (Schema.resultOf responses a.responseType).typeName := by
    unfold Schema.resultOf
    cases hget : responses.get? a.responseType with
    | none => exact .inl rfl
    | some t => exact .inr (ht t (Table.mem_values_of_get? hget))
  rcases successor_cases responses a old with ⟨-, hstub⟩ | ⟨f, rfl, -, ⟨-, hkept⟩ | ⟨-, hdrift⟩⟩
  · rw [hstub]
    exact whole_stubFunction ha hresult
  · rw [hkept]
    exact h f rfl
  · obtain ⟨hwhole, hsturdy⟩ := h f rfl
    rw [hdrift]
    exact whole_driftedFunction hwhole hsturdy ha

/-- A successor succeeds itself, and does not drift again. -/
theorem fate_successor (responses : Schema.Registry) (a : Action) (old : Option Function) :
    successor responses a (some (successor responses a old)) = successor responses a old ∧
      ∀ text, fate responses a (some (successor responses a old)) ≠ .drifted text := by
  -- a function with a body of its own that has the wanted signature is kept as it is
  have hkeep {f : Function} (hf : isStub f = false) (hsignature : trim f.signature = trim (signature a)) :
      successor responses a (some f) = f ∧ ∀ text, fate responses a (some f) ≠ .drifted text := by
    have hfilter : (some f).filter (!isStub ·) = some f := by simp [Option.filter, hf]
    unfold successor fate
    rw [hfilter]
    simp only [if_pos hsignature]
    exact ⟨trivial, fun text => by nofun⟩
  rcases successor_cases responses a old with
    ⟨-, hstub⟩ | ⟨f, -, hf, ⟨hsignature, hkept⟩ | ⟨-, hdrift⟩⟩
  · have hisStub := isStub_stubFunction a (Schema.resultOf responses a.responseType)
    have hfilter : (some (stubFunction a (Schema.resultOf responses a.responseType))).filter
        (!isStub ·) = none := by simp [Option.filter, hisStub]
    rw [hstub]
    unfold successor fate
    rw [hfilter]
    exact ⟨rfl, fun text => by nofun⟩
  · rw [hkept]
    exact hkeep hf hsignature
  · have hisStub : isStub (driftedFunction f a) = false := by
      rwa [(sameBody_driftedFunction f a).isStub]
    rw [hdrift]
    exact hkeep hisStub (congrArg trim (signature_driftedFunction f a))

/-! ## Signatures -/

/-- What begins and ends without white space is trimmed. -/
private theorem trim_of_ends {s : Text} {c d : Char} (hhead : s.head? = some c)
    (hlast : s.getLast? = some d) (hc : isBlank c = false) (hd : isBlank d = false) : trim s = s := by
  obtain ⟨rest, rfl⟩ : ∃ rest, s = c :: rest := by
    cases s with
    | nil => cases hhead
    | cons e rest => exact ⟨rest, by rw [Option.some.inj hhead]⟩
  rw [trim, trimStart_cons_of_not_blank hc, trimEnd_eq_self hlast hd]

/-- What was read as a signature starts with the keyword and ends with a brace. -/
theorem trim_signature_of_whole {f : Function} (h : Whole f) : trim f.signature = f.signature := by
  obtain ⟨d, -, -, hf⟩ := h.exists_reads
  rw [hf]
  refine trim_of_ends (c := 'f') (d := '{') rfl ?_ (by decide) (by decide)
  simp [Function.signature, Declaration.function]

theorem trim_signature (a : Action) : trim (signature a) = signature a := by
  rw [signature_eq, ← List.append_assoc]
  exact trim_of_ends (c := 'f') (d := '{') rfl List.getLast?_concat (by decide) (by decide)

/-- A successor has the signature that the action asks for. -/
theorem signature_successor (h : ∀ f ∈ old, Whole f) :
    (successor responses a old).signature = signature a := by
  rcases successor_cases responses a old with
    ⟨-, hstub⟩ | ⟨f, rfl, -, ⟨hsignature, hkept⟩ | ⟨-, hdrift⟩⟩
  · rw [hstub]
    exact (signature_eq a).symm
  · rw [hkept, ← trim_signature_of_whole (h f rfl), hsignature, trim_signature]
  · rw [hdrift]
    exact signature_driftedFunction f a

end Scaffold.Service
