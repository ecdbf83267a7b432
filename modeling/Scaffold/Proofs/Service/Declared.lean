import Scaffold.Proofs.Go.Recognition
import Scaffold.Proofs.Service.Merging

/-!
# Declared functions

Regeneration is to find the functions that a service file declares. It looks for the keyword outside
brackets and takes the first brace behind it for the start of a body, so a type of functions can pass for
the start of the next function, and a result type with braces for a body. Nothing else goes wrong: the
functions read are those declared exactly if none of this is mistaken (`declared_functions_iff`), and
then no implementation gives way to a stub.
-/

namespace Scaffold.Service

open Text Go Naming

/-- The functions that are read off a Go source are those that it declares exactly if no brace opens
outside brackets in front of the body of a function and no function is read in another declaration. Then
the other declarations are all that stands between them, and each implementation whose action is there
is written again, if no other function answers under its name. -/
theorem declared_functions_iff {src : Source} {content : Text} (h : src.Spells content) :
    let file := File.parse content
    let declared := src.functions.map (·.function none)
    (file.functions.map (fun f => (f.name, f.text)) =
          src.functions.map (fun d => (d.name.text, textOf d.lexemes)) ∧
        file.declarations = src.texts ↔ Clear src.last src.items) ∧
      (Clear src.last src.items →
        file = { header := some (textOf src.header), package := some src.package
                 functions := declared, declarations := src.texts } ∧
        ∀ (s : Setting) (responses : Schema.Registry) (g : Group),
          (regenerate s responses g (some content)).content =
            layout (textOf src.header) src.texts (written responses g declared) ∧
          ∀ f ∈ declared, answers f → isStub f = false →
            (∀ f' ∈ declared, answers f' → f'.name = f.name → f' = f) →
            f.name ∈ g.actions.map functionName →
            ∃ f' ∈ written responses g declared,
              f'.name = f.name ∧ SameBody f' f ∧ isStub f' = false) := by
  intro file declared
  refine ⟨⟨fun hread => h.functions_iff.1 hread.1, fun hclear => ?_⟩, fun hclear => ?_⟩
  · refine ⟨h.functions_iff.2 hclear, ?_⟩
    show (File.parse content).declarations = src.texts
    rw [h.parse_of_clear hclear]
  · have hfile : File.parse content = _ := h.parse_of_clear hclear
    have hheader : (File.parse content).header = some (textOf src.header) := by rw [hfile]
    refine ⟨hfile, fun s responses g => ⟨?_, fun f hf hanswers hstub hunique hclaimed => ?_⟩⟩
    · rw [regenerate_content, oldFile_of_header hheader, hfile]
      rfl
    · obtain ⟨f', hf', hname, hbody⟩ :=
        exists_successor responses hf hanswers hstub hunique hclaimed
      exact ⟨f', hf', hname, hbody, hbody.isStub.trans hstub⟩

/-- A type of functions. -/
private def handlerType : List Lexeme := lex "type Handler func() error".toList

/-- The implementation of an action. -/
private def findFunction : Declaration where
  receiver := [⟨.blank, [' ']⟩]
  name := ⟨.word, "FindQuery".toList⟩
  parameters := lex "() ".toList
  body := lex "\n\treturn &response, nil\n".toList

/-- A source with declarations below each other. -/
private def sourceOf (items : List Item) : Source where
  header := lex "package user".toList
  package := "user".toList
  items := items.map (⟨.blank, "\n\n".toList⟩, ·)
  last := [⟨.blank, ['\n']⟩]

/-- The source with the type in front of the function. -/
private def typeFirst : Source := sourceOf [.other handlerType, .function findFunction]

/-- The source with the function in front of the type. -/
private def functionFirst : Source := sourceOf [.function findFunction, .other handlerType]

/-- The text of a source. -/
private def fileOf (src : Source) : Text := textOf (src.header ++ listed src.items src.last)

/-- The function type is a declaration that is no function. -/
private theorem isOther_handlerType : IsOther handlerType where
  nested := by decide
  keyword := ⟨⟨.word, "type".toList⟩, handlerType.tail, by decide, rfl, by decide⟩
  ends := ⟨handlerType.dropLast, ⟨.word, "error".toList⟩, by decide, rfl⟩

/-- The function nests as a declaration does. -/
private theorem nests_findFunction : findFunction.Nests where
  receiver := .none (by decide)
  receiver_nested := by decide
  name := rfl
  parameters := by decide
  body := by decide

/-- A source of proper items spells its file if the file is lexed as them. -/
private theorem spells_sourceOf {items : List Item} (hitems : ∀ i ∈ items, i.IsProper)
    (hlex : lex (fileOf (sourceOf items)) = (sourceOf items).header ++
      listed (sourceOf items).items (sourceOf items).last)
    (hsturdy : Sturdy (lex (fileOf (sourceOf items)))) :
    (sourceOf items).Spells (fileOf (sourceOf items)) where
  lex := hlex
  header := by
    have hclauses : IsClauses ([] ++ packageWord :: ([⟨.blank, [' ']⟩] ++ [⟨.word, "user".toList⟩]))
        "user".toList := .package (by simp) (by decide) (by decide)
    exact hclauses
  space := by simp [sourceOf]
  proper := by simpa [sourceOf] using hitems
  last := by simp [sourceOf]
  sturdy := hsturdy

private theorem spells_typeFirst : typeFirst.Spells (fileOf typeFirst) :=
  spells_sourceOf (by simpa [Item.IsProper] using ⟨isOther_handlerType, nests_findFunction⟩)
    (by decide) (by decide)

private theorem spells_functionFirst : functionFirst.Spells (fileOf functionFirst) :=
  spells_sourceOf (by simpa [Item.IsProper] using ⟨nests_findFunction, isOther_handlerType⟩)
    (by decide) (by decide)

/-- A group whose only action is that of the function. -/
private def findGroup : Group where
  owner := ⟨"shop".toList, "user".toList⟩
  kind := .query
  hasUpload := false
  actions := [{ name := "find".toList, args := [], responseType := "FindResponse".toList
                kind := .query, owner := ⟨"shop".toList, "user".toList⟩ }]

/-- With the function first, it is read and written again. -/
theorem declared_functions_iff_functionFirst :
    functionFirst.Spells (fileOf functionFirst) ∧
      Clear functionFirst.last functionFirst.items ∧
      ∃ f ∈ written .empty findGroup (functionFirst.functions.map (·.function none)),
        f.name = "FindQuery".toList ∧ SameBody f (findFunction.function none) ∧ isStub f = false := by
  obtain ⟨hiff, hwritten⟩ := declared_functions_iff spells_functionFirst
  have hclear : Clear functionFirst.last functionFirst.items :=
    hiff.1 ⟨by decide, by decide⟩
  refine ⟨spells_functionFirst, hclear, ?_⟩
  refine ((hwritten hclear).2 default .empty findGroup).2 (findFunction.function none) ?_ ?_ ?_ ?_ ?_
  · decide
  · decide
  · decide
  · decide
  · decide

/-- An implementation can give way to a stub: the type passes for the start of its function. -/
theorem function_lost_to_type :
    typeFirst.Spells (fileOf typeFirst) ∧
      typeFirst.functions.map (·.name.text) = ["FindQuery".toList] ∧
      (File.parse (fileOf typeFirst)).functions.map Function.name = ["error".toList] ∧
      (regenerate default .empty findGroup (some (fileOf typeFirst))).tally = ⟨1, 0, 0, 0⟩ :=
  ⟨spells_typeFirst, by decide, by decide, by decide⟩

end Scaffold.Service
