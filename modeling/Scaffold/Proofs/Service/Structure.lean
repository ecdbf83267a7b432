import Scaffold.Proofs.Service.Merging

/-!
# The structure of a regenerated file

What regeneration writes is known as it will be read again. Over a plain file, the reader finds the old
header; the helpers in the order they had, each with its text and the comment above it, and behind them
one function for each action; and all other declarations as one text, with blank lines where functions
stood (`regenerate_structure`). That needs more than the texts being there: what was written in one
place must neither run into nor attach itself to what stands beside it in another.
-/

namespace Scaffold.Service

open Text Go Naming

/-- Every action is counted once. -/
theorem tally_total (fates : List Fate) (carried : Nat) :
    (tally fates carried).stubs + (tally fates carried).kept + (tally fates carried).drifted =
      fates.length := by
  induction fates with
  | nil => rfl
  | cons fate fates ih =>
    simp only [tally, List.countP_cons, List.length_cons] at ih ⊢
    cases fate <;> simp <;> omega

variable {responses : Schema.Registry} {g : Group} {content : Text}

/-- Each action has a successor with the name and the signature that it asks for. -/
theorem exists_successors (hg : HasNamedActions responses g) {fs : List Function}
    (hfs : ∀ f ∈ fs, Whole f) :
    ∃ successors, written responses g fs = helpers (g.actions.map functionName) fs ++ successors ∧
      successors.map Function.name = g.actions.map functionName ∧
      successors.map Function.signature = g.actions.map signature := by
  refine ⟨_, (written_eq hg fs).trans (congrArg (· ++ _) (carried_eq_helpers _ fs)), ?_, ?_⟩
  · rw [List.map_map]
    exact List.map_congr_left fun a _ => name_successor fun f hf => (of_get?_previous hf).2.2
  · rw [List.map_map]
    exact List.map_congr_left fun a _ => signature_successor fun f hf => hfs f (of_get?_previous hf).1

/-- Over a plain file each action becomes a stub, is kept or drifts; and the new file is read as the old
header, the old helpers with a function for each action behind them, and the old declarations with blank
lines between them. -/
theorem regenerate_structure (s : Setting) (hg : HasNamedActions responses g) (hplain : Plain content) :
    let old := File.parse content
    let out := regenerate s responses g (some content)
    let new := File.parse out.content
    out.tally.stubs + out.tally.kept + out.tally.drifted = g.actions.length ∧
      new.header = old.header ∧
      (∃ successors, new.functions = helpers (g.actions.map functionName) old.functions ++ successors ∧
        successors.map Function.name = g.actions.map functionName ∧
        successors.map Function.signature = g.actions.map signature) ∧
      new.declarations =
        if old.declarations = [] then [] else [join blankLine old.declarations] := by
  intro old out new
  obtain ⟨⟨header, package, hheader, -, hisHeader⟩, hblocks, hfs⟩ := hplain.tidy
  have hold : oldFile (some content) = old := oldFile_of_header hheader
  have hparse : new =
      { header := some header, package := some package, functions := written responses g old.functions
        declarations := if old.declarations = [] then [] else [join blankLine old.declarations] } := by
    have hisHeader' : IsHeaderText ((oldFile (some content)).header.getD (freshClause s g)) package := by
      rw [hold, hheader]
      exact hisHeader
    have hnew : File.parse out.content = _ :=
      parse_regenerate hg hisHeader' (hold ▸ hblocks) (hold ▸ hfs)
    rw [hold, hheader] at hnew
    exact hnew
  refine ⟨?_, ?_, ?_, ?_⟩
  · have hfates : out.tally.stubs + out.tally.kept + out.tally.drifted = _ := tally_total _ _
    rw [hfates, claim_eq, List.length_map, ← List.length_map, map_fst_claims]
  · rw [hparse, hheader]
  · rw [hparse]
    exact exists_successors hg fun f hf => (hfs f hf).1
  · rw [hparse]

/-- A group with three queries for wares. -/
private def wares : Group where
  owner := ⟨"shop".toList, "wares".toList⟩
  kind := .query
  hasUpload := false
  actions :=
    [⟨"countWares".toList, [], "CountResponse".toList, .query, default⟩,
      ⟨"findWare".toList, [⟨⟨"ID".toList, true, false, false⟩, "id".toList⟩], "WareResponse".toList,
        .query, default⟩,
      ⟨"listWares".toList, [], "WaresResponse".toList, .query, default⟩]

/-- Two of the queries are implemented, one of them for other parameters than it has by now. Between the
functions stand a constant and a variable, with a helper behind. -/
private def waresFile : Text :=
  ("package wares\n\nimport \"context\"\n\n// At most so many.\nconst limit = 10\n\n" ++
    "// Counts what is there.\n" ++
    "func CountWaresQuery(ctx context.Context) (*model.CountResponse, error) \x7b\n" ++
    "\treturn &response, nil\n\x7d\n\nvar cache = map[string]int\x7b\x7d\n\n" ++
    "func FindWareQuery(ctx context.Context) (*model.WareResponse, error) \x7b\n" ++
    "\treturn &response, nil\n\x7d\n\n// Twice as many.\nfunc double(n int) int \x7b\n" ++
    "\treturn 2 * n\n\x7d\n").toList

private def double : Function where
  leadingComment := some "// Twice as many.".toList
  opening := "func ".toList
  name := "double".toList
  parameters := "(n int) int \x7b".toList
  body := "\n\treturn 2 * n\n".toList

/-- A helper, two declarations and three actions. -/
theorem regenerate_structure_wares :
    let new := File.parse (regenerate default .empty wares (some waresFile)).content
    Plain waresFile ∧
      (∃ successors, new.functions = [double] ++ successors ∧
        successors.map Function.name =
          ["CountWaresQuery".toList, "FindWareQuery".toList, "ListWaresQuery".toList]) ∧
      new.declarations = [join blankLine
        ["// At most so many.\nconst limit = 10".toList, "var cache = map[string]int\x7b\x7d".toList]] := by
  -- the kernel is slow to decode strings, so a list of characters takes the place of the text
  have hfile : Plain waresFile ∧
      helpers (wares.actions.map functionName) (File.parse waresFile).functions = [double] ∧
      (File.parse waresFile).declarations =
        ["// At most so many.\nconst limit = 10".toList, "var cache = map[string]int\x7b\x7d".toList] := by
    unfold waresFile double wares
    repeat rw [String.toList_append]
    repeat rw [String.toList_ofList]
    decide +kernel
  have hnames : wares.actions.map functionName =
      ["CountWaresQuery".toList, "FindWareQuery".toList, "ListWaresQuery".toList] := by decide
  have hnamed : HasNamedActions .empty wares := by
    refine ⟨?_, by rw [hnames]; decide, nofun⟩
    simp only [wares, List.forall_mem_cons]
    exact ⟨⟨by decide, nofun, by decide⟩, ⟨by decide, by decide, by decide⟩,
      ⟨by decide, nofun, by decide⟩, nofun⟩
  obtain ⟨hplain, hhelpers, hblocks⟩ := hfile
  obtain ⟨-, -, hfunctions, hdeclarations⟩ := regenerate_structure default hnamed hplain
  rw [hhelpers, hnames] at hfunctions
  obtain ⟨successors, hsplit, hnamesOf, -⟩ := hfunctions
  rw [hblocks, if_neg (by simp)] at hdeclarations
  exact ⟨hplain, ⟨successors, hsplit, hnamesOf⟩, hdeclarations⟩

end Scaffold.Service
