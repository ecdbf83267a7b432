import Scaffold.Schema.Model

/-!
# The combined schema

One schema for the whole project: a block for each root type, and in it the interiors of all files
of that kind.
-/

namespace Scaffold.Output

open Text

/-- The lines that an interior gives to a block: without newlines in front and white space at the
end, and none at all if nothing is left. -/
def interiorLines (interior : Text) : Text :=
  match trimEnd (interior.dropWhile fun c => c = '\n' || c = '\r') with
  | [] => []
  | body => body ++ ['\n']

/-- The block of one root type. -/
def typeBlock (documents : List Document) (kind : Kind) : Text :=
  "type ".toList ++ kind.typeName ++ " \x7b\n".toList ++
    (documents.filter (·.kind = kind)).flatMap (fun d => interiorLines d.interior) ++
    "\x7d\n".toList

def combinedSchema (documents : List Document) : Text :=
  Text.join ['\n'] (Kind.all.map (typeBlock documents))

end Scaffold.Output
