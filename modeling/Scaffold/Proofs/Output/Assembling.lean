import Scaffold.Output.CombinedSchema
import Scaffold.Proofs.Project.Reading
import Scaffold.Proofs.Schema.Closing
import Scaffold.Proofs.Schema.LeadingComments

/-!
# Reading the combined schema

The combined schema has a block for each kind, and what is read from a block is what was put into it: the
bodies of the documents of that kind, in their order, each on lines of its own
(`interior?_combinedSchema`). No document reaches into the next one, or takes the brace behind the last
one, since the end of a line seals its body.
-/

namespace Scaffold.Output

open Text Schema Project

/-! ## Blocks and what is in them -/

/-- The part of an interior that is put into a block. -/
def body (interior : Text) : Text := trimEnd (interior.dropWhile fun c => c = '\n' || c = '\r')

/-- The bodies of the documents of one kind, without those that are empty. -/
def bodies (documents : List Document) (kind : Kind) : List Text :=
  ((documents.filter (·.kind = kind)).map fun d => body d.interior).filter (· ≠ [])

/-- The interior of a block: each body ends with a newline, and the first stands below the header. -/
def rootInterior (documents : List Document) (kind : Kind) : Text :=
  '\n' :: (bodies documents kind).flatMap (· ++ ['\n'])

/-- The lines of a document are its body, and nothing if that is empty. -/
theorem interiorLines_eq (interior : Text) :
    interiorLines interior = if body interior = [] then [] else body interior ++ ['\n'] := by
  unfold interiorLines body
  split <;> simp_all

/-- The lines of all documents are their bodies that are not empty, a line break behind each. -/
theorem flatMap_interiorLines (documents : List Document) :
    documents.flatMap (fun d => interiorLines d.interior) =
      ((documents.map fun d => body d.interior).filter (· ≠ [])).flatMap (· ++ ['\n']) := by
  induction documents with
  | nil => rfl
  | cons d documents ih =>
    rw [List.flatMap_cons, ih, interiorLines_eq]
    by_cases hbody : body d.interior = [] <;> simp [hbody]

/-- The block of a kind is a block around the bodies of its documents. -/
theorem typeBlock_eq (documents : List Document) (kind : Kind) :
    typeBlock documents kind = blockText kind.typeName (rootInterior documents kind) ['\n'] := by
  unfold typeBlock
  rw [flatMap_interiorLines]
  simp [blockText, rootInterior, bodies]

theorem blockText_append (name interior rest t : Text) :
    blockText name interior rest ++ t = blockText name interior (rest ++ t) := by
  simp [blockText]

/-! ## Documents -/

/-- Whether an interior was found in a text that goes on with the closing brace of the block. -/
def IsBlockInterior (interior : Text) : Prop :=
  ∃ source rest, interior? source = some interior ∧
    firstBlock? source = some (interior ++ '}' :: rest)

/-- Where an interior was found is of no account. -/
theorem isBlockInterior_iff {interior : Text} :
    IsBlockInterior interior ↔ ∃ rest, closeBlock 0 0 (interior ++ '}' :: rest) = interior := by
  constructor
  · rintro ⟨source, rest, hinterior, hblock⟩
    rw [interior?_eq, hblock, Option.map_some, Option.some.injEq] at hinterior
    exact ⟨rest, hinterior⟩
  · rintro ⟨rest, hclosed⟩
    have hname : IsIdentifier "Query".toList := by decide
    exact ⟨blockText "Query".toList interior rest, rest, interior?_blockText_of_closeBlock hname hclosed,
      blockFrom?_blockText hname.ne_nil hname.isWord interior rest⟩

/-- If their blocks are closed, the bodies of the documents of a kind close no block. -/
theorem isSealed_rootInterior {documents : List Document} {kind : Kind}
    (h : ∀ d ∈ documents, IsBlockInterior d.interior ∧ DescriptionsClosed d.interior) :
    IsSealed (rootInterior documents kind) := by
  refine isSealed_newline.append (isSealed_flatMap fun text htext => ?_)
  obtain ⟨hmem, -⟩ := List.mem_filter.1 htext
  obtain ⟨d, hd, rfl⟩ := List.mem_map.1 hmem
  obtain ⟨hinterior, hdescriptions⟩ := h d (List.mem_filter.1 hd).1
  obtain ⟨rest, hclosed⟩ := isBlockInterior_iff.1 hinterior
  -- trimming a body takes nothing but line ends from its start
  refine isSealed_trimmed hclosed hdescriptions fun c hc => ?_
  obtain rfl | rfl : c = '\n' ∨ c = '\r' := by simpa using hc
  · decide
  · decide

/-- The combined schema is a block for each kind. If all documents were found in blocks that are closed and
have no description that is open at the end of its line, then from the header of each block on, the bodies
of the documents of its kind are read back. -/
theorem interior?_combinedSchema {m : Model}
    (h : ∀ d ∈ m.documents, IsBlockInterior d.interior ∧ DescriptionsClosed d.interior) :
    let query := rootInterior m.documents .query
    let mutation := rootInterior m.documents .mutation
    let subscription := rootInterior m.documents .subscription
    let fromSubscription := blockText "Subscription".toList subscription "\n".toList
    let fromMutation := blockText "Mutation".toList mutation ("\n\n".toList ++ fromSubscription)
    let fromQuery := blockText "Query".toList query ("\n\n".toList ++ fromMutation)
    combinedSchema m.documents = fromQuery ∧ interior? fromQuery = some query ∧
      interior? fromMutation = some mutation ∧ interior? fromSubscription = some subscription := by
  intro query mutation subscription fromSubscription fromMutation fromQuery
  have hread {name : Text} (hname : IsIdentifier name) (kind : Kind) (rest : Text) :
      interior? (blockText name (rootInterior m.documents kind) rest) =
        some (rootInterior m.documents kind) :=
    interior?_blockText_of_closeBlock hname ((isSealed_rootInterior h).closeBlock_eq rest)
  refine ⟨?_, hread (by decide) _ _, hread (by decide) _ _, hread (by decide) _ _⟩
  have hjoin : combinedSchema m.documents = typeBlock m.documents .query ++ ('\n' ::
      (typeBlock m.documents .mutation ++ ('\n' :: typeBlock m.documents .subscription))) := by
    simp [combinedSchema, Kind.all, Text.join]
  rw [hjoin, typeBlock_eq, typeBlock_eq, typeBlock_eq, blockText_append, blockText_append]
  rfl

/-- The fields of a query file whose last line ends in a comment with quotes and a brace. -/
private def remarkedBits : List Bit :=
  "\n  a: A! ".toList.map .solid ++ [.comment " the \"last\" \x7d ".toList, .solid '\n']

/-- The fields of a query file that begins with a description and ends with a block string. -/
private def describedBits : List Bit :=
  .solid '\r' :: .solid '\n' :: .quoted "opens \x7b".toList :: "b: B! ".toList.map .solid ++
    [.block "type Old \x7b # \"two\" ".toList]

private def remarkedModel : Model where
  files := []
  documents := [⟨.query, ⟨[]⟩, written remarkedBits⟩, ⟨.mutation, ⟨[]⟩, []⟩,
    ⟨.query, ⟨[]⟩, written describedBits⟩]
  responses := .empty

/-- Bodies with comments, quotes and braces at their ends. -/
theorem interior?_combinedSchema_remarked :
    (∀ d ∈ remarkedModel.documents, IsBlockInterior d.interior ∧ DescriptionsClosed d.interior) ∧
      interior? (combinedSchema remarkedModel.documents) = some (
        "\n  a: A! # the \"last\" \x7d\n".toList ++
          "\"opens \x7b\"b: B! \"\"\"type Old \x7b # \"two\" \"\"\"\n".toList) := by
  have hclosed : ∀ bits ∈ [remarkedBits, [], describedBits], AreClosed bits ∧
      closeBlock 0 0 (written bits ++ ['}']) = written bits := by
    unfold remarkedBits describedBits
    repeat rw [String.toList_ofList]
    decide
  have hdocument (bits : List Bit) (hmem : bits ∈ [remarkedBits, [], describedBits]) :
      IsBlockInterior (written bits) ∧ DescriptionsClosed (written bits) := by
    obtain ⟨hbits, hblock⟩ := hclosed bits hmem
    exact ⟨isBlockInterior_iff.2 ⟨[], hblock⟩, descriptionsClosed_written hbits⟩
  have hall : ∀ d ∈ remarkedModel.documents,
      IsBlockInterior d.interior ∧ DescriptionsClosed d.interior := by
    simpa [remarkedModel] using
      ⟨hdocument remarkedBits (by simp), hdocument [] (by simp), hdocument describedBits (by simp)⟩
  obtain ⟨hschema, hquery, -⟩ := interior?_combinedSchema hall
  refine ⟨hall, ?_⟩
  rw [hschema, hquery]
  unfold remarkedModel remarkedBits describedBits
  repeat rw [String.toList_ofList]
  decide

end Scaffold.Output
