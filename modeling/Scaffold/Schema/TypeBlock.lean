import Scaffold.Schema.Documentation
import Scaffold.Text.Letter

/-!
# The type block of a schema file

A schema file contributes what stands between the braces of its first type. The block starts behind
the first *header*, the word `type`, a name, and the rest of the line up to an opening brace, that
does not begin inside documentation; it ends at the brace that closes it, where braces inside
documentation do not count.
-/

namespace Scaffold.Schema

open Text

/-- A type header. Its value is the name of the type, and it ends behind the opening brace. -/
def typeHeader : Pattern Text := fun before s => do
  guard (!before.any isWord)
  let gap ← after? "type".toList s
  guard (gap.head?.any isBlank)
  let (name, rest) ← word? (gap.dropWhile isBlank)
  match rest.dropWhile (fun c => c ≠ '{' && c ≠ '\n') with
  | '{' :: inside => some (name, inside)
  | _ => none

/-- What follows the first header that a reader meets. The headers of the whole text are told apart
without regard to documentation, and the first `header` characters belong to one that began
earlier; the first `doc` characters belong to documentation that began earlier. -/
def blockFrom? : (header doc : Nat) → (before : Option Char) → Text → Option Text
  | _, _, _, [] => none
  | header, doc, before, c :: s =>
    let found := if header = 0 then typeHeader before (c :: s) else none
    let header' := found.elim (header - 1) fun (_, inside) => s.length - inside.length
    match doc, found with
    | 0, some (_, inside) => some inside
    | 0, none =>
      blockFrom? header' ((docRest? (c :: s)).elim 0 (s.length - ·.length)) (some c) s
    | doc + 1, _ => blockFrom? header' doc (some c) s

/-- The text up to the brace that closes a block, `depth` further blocks deep. The first `doc`
characters belong to documentation. A block that is not closed runs to the end of the text. -/
def closeBlock : (doc depth : Nat) → Text → Text
  | _, _, [] => []
  | doc + 1, depth, c :: s => c :: closeBlock doc depth s
  | 0, depth, c :: s =>
    match docRest? (c :: s) with
    | some rest => c :: closeBlock (s.length - rest.length) depth s
    | none =>
      if c = '{' then c :: closeBlock 0 (depth + 1) s
      else if c = '}' then
        match depth with
        | 0 => []
        | depth + 1 => c :: closeBlock 0 depth s
      else c :: closeBlock 0 depth s

def interior? (s : Text) : Option Text := (blockFrom? 0 0 none s).map (closeBlock 0 0)

end Scaffold.Schema
