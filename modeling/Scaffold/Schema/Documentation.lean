import Scaffold.Text.Scan

/-!
# Documentation in schemas

Three kinds of regions of a schema document it and say nothing to a program: a comment from `#` to
the end of its line, a block string between `"""` and `"""`, and a description between double
quotes. `docRest?` recognises a region at a cursor, as a reader going from left to right does;
`stripDocs` takes the regions out of a text, one kind after the other.
-/

namespace Scaffold.Schema

open Text

/-- The three quotes at both ends of a block string. -/
def blockQuotes : Text := "\"\"\"".toList

/-- What follows a description whose opening quote has been read. A backslash takes the next
character with it, and a description that is not closed ends before the end of its line. -/
def descriptionRest : Text → Text
  | [] => []
  | ['\\'] => []
  | '\\' :: _ :: s => descriptionRest s
  | '"' :: s => s
  | '\n' :: s => '\n' :: s
  | _ :: s => descriptionRest s

/-- What follows the region of documentation at the start of a text, if there is one. A block string
that is not closed runs to the end of the text. -/
def docRest? : Text → Option Text
  | '#' :: s => some (s.dropWhile (· ≠ '\n'))
  | '"' :: s =>
    match after? blockQuotes ('"' :: s) with
    | some inside => some ((cutAt? blockQuotes inside).elim [] (·.2))
    | none => some (descriptionRest s)
  | _ => none

/-- A closed block string. -/
def blockString : Pattern Unit := fun _ s => do
  let inside ← after? blockQuotes s
  let (_, rest) ← cutAt? blockQuotes inside
  some ((), rest)

/-- A description closed on its line, without any regard to backslashes. -/
def description : Pattern Unit := fun _ s =>
  match s with
  | '"' :: inside =>
    match inside.dropWhile (fun c => c ≠ '"' && c ≠ '\n') with
    | '"' :: rest => some ((), rest)
    | _ => none
  | _ => none

/-- A comment up to the end of its line. -/
def lineComment : Pattern Unit := fun _ s =>
  match s with
  | '#' :: inside => some ((), inside.dropWhile (· ≠ '\n'))
  | _ => none

def stripDocs (s : Text) : Text :=
  eraseAll lineComment (eraseAll description (eraseAll blockString s))

end Scaffold.Schema
