import Scaffold.Go.Lexeme

/-!
# Go files

What regeneration has to know of a Go file: its header, which is the package clause with the imports
behind it; its functions, each with the comment right above it; and everything else that stands at
the top level, as text between functions. The reader goes by lexemes, so that braces in comments
and literals count for nothing.
-/

namespace Scaffold.Go

open Text

/-! ## Groups of lexemes -/

/-- The lexemes before and after the mark that closes a group, `depth` groups deep. -/
def splitClose (opening closing : Char) : (depth : Nat) → List Lexeme →
    Option (List Lexeme × List Lexeme)
  | _, [] => none
  | depth, l :: ls =>
    if l.kind = .mark closing then
      match depth with
      | 0 => some ([], ls)
      | depth + 1 =>
        (splitClose opening closing depth ls).map fun (front, rest) => (l :: front, rest)
    else
      let depth := if l.kind = .mark opening then depth + 1 else depth
      (splitClose opening closing depth ls).map fun (front, rest) => (l :: front, rest)

/-- The lexemes before and after the first brace that opens outside parentheses and brackets, of
which `depth` are open. -/
def splitBody : (depth : Nat) → List Lexeme → Option (List Lexeme × List Lexeme)
  | _, [] => none
  | depth, l :: ls =>
    match l.kind, depth with
    | .mark '{', 0 => some ([], ls)
    | kind, depth =>
      let depth :=
        if kind = .mark '(' || kind = .mark '[' then depth + 1
        else if kind = .mark ')' || kind = .mark ']' then depth - 1
        else depth
      (splitBody depth ls).map fun (front, rest) => (l :: front, rest)

/-! ## The header -/

/-- Where the reader of a header stands. -/
inductive HeaderState where
  /-- Before the word `package`. -/
  | start
  /-- Before the name of the package. -/
  | package
  /-- Behind the package clause or an import. -/
  | clause
  /-- Behind the word `import`. -/
  | keyword
  /-- Behind a name, or a dot, that an import gives to its package. -/
  | name
  /-- Inside a list of imports, with `depth` further parentheses open. -/
  | list (depth : Nat)
  deriving DecidableEq, Repr

/-- The number of lexemes of a header, if there is one. Of them `seen` have been read, and `done` is
the number up to the end of the last clause. An import that is not finished spoils the header,
unless nothing at all follows its keyword. -/
def headerLength? : HeaderState → (seen done : Nat) → List Lexeme → Option Nat
  | .clause, _, done, [] | .keyword, _, done, [] => some done
  | _, _, _, [] => none
  | state, seen, done, l :: ls =>
    if l.isTrivia then headerLength? state (seen + 1) done ls
    else
      match state with
      | .start =>
        if l.isWord "package".toList then headerLength? .package (seen + 1) done ls else none
      | .package =>
        if l.kind = .word then headerLength? .clause (seen + 1) (seen + 1) ls else none
      | .clause =>
        if l.isWord "import".toList then headerLength? .keyword (seen + 1) done ls else some done
      | .keyword =>
        if l.kind = .mark '(' then headerLength? (.list 0) (seen + 1) done ls
        else if l.kind = .literal then headerLength? .clause (seen + 1) (seen + 1) ls
        else headerLength? .name (seen + 1) done ls
      | .name =>
        if l.kind = .literal then headerLength? .clause (seen + 1) (seen + 1) ls else none
      | .list depth =>
        if l.kind = .mark '(' then headerLength? (.list (depth + 1)) (seen + 1) done ls
        else if l.kind = .mark ')' then
          match depth with
          | 0 => headerLength? .clause (seen + 1) (seen + 1) ls
          | depth + 1 => headerLength? (.list depth) (seen + 1) done ls
        else headerLength? (.list depth) (seen + 1) done ls

/-! ## Functions -/

/-- A function or method at the top level of a file. -/
structure Function where
  /-- The comments right above the declaration, without a blank line between. -/
  leadingComment : Option Text
  /-- From `func` to the name: the receiver of a method stands there. -/
  opening : Text
  name : Text
  /-- From behind the name to the opening brace of the body. -/
  parameters : Text
  /-- What stands between the braces. -/
  body : Text
  deriving DecidableEq, Repr, Inhabited

namespace Function

/-- The declaration up to the opening brace of its body. -/
def signature (f : Function) : Text := f.opening ++ f.name ++ f.parameters

/-- The declaration from `func` to the closing brace. -/
def text (f : Function) : Text := f.signature ++ f.body ++ ['}']

/-- The declaration under another name. -/
def renamed (f : Function) (name : Text) : Text :=
  f.opening ++ name ++ f.parameters ++ f.body ++ ['}']

end Function

/-- The lexemes of a receiver, with what stands before and behind it, if the lexemes start with one;
what follows starts with neither white space nor a comment. -/
def splitReceiver? (ls : List Lexeme) : Option (List Lexeme × List Lexeme) :=
  let space := ls.takeWhile Lexeme.isTrivia
  match ls.dropWhile Lexeme.isTrivia with
  | [] => none
  | l :: rest =>
    if l.kind = .mark '(' then do
      let (inside, rest) ← splitClose '(' ')' 0 rest
      return (space ++ l :: inside ++ ⟨.mark ')', [')']⟩ :: rest.takeWhile Lexeme.isTrivia,
        rest.dropWhile Lexeme.isTrivia)
    else some (space, l :: rest)

/-- The text of comments above a declaration, if there are any. -/
def commentText? (lead : List Lexeme) : Option Text :=
  let comments := if lead.getLast?.any (·.kind = .blank) then lead.dropLast else lead
  if comments = [] then none else some (textOf comments)

/-- The function whose keyword is `func`, with `lead` above it and the lexemes `ls` behind it, and
what follows the function. -/
def function? (lead : List Lexeme) (func : Lexeme) (ls : List Lexeme) :
    Option (Function × List Lexeme) := do
  let (receiver, rest) ← splitReceiver? ls
  let name ← rest.head?
  guard (name.kind = .word)
  let (parameters, rest) ← splitBody 0 rest.tail
  let (body, rest) ← splitClose '{' '}' 0 rest
  return ({ leadingComment := commentText? lead
            opening := textOf (func :: receiver)
            name := name.text
            parameters := textOf parameters ++ ['{']
            body := textOf body }, rest)

/-- A function with the numbers of lexemes before it and up to its end. The comment above it belongs
to it. -/
structure Placed where
  function : Function
  start : Nat
  stop : Nat
  deriving DecidableEq, Repr

/-- Whether white space lets a comment belong to what follows it: no blank line. -/
def isTight (l : Lexeme) : Bool := l.text.count '\n' ≤ 1

/-- The functions from the cursor on. The first `skip` lexemes belong to an earlier function, `depth`
groups are open, `lead` are the comments right above the cursor with the white space between them,
and `seen` lexemes stand before the cursor. -/
def placedFrom : (skip depth : Nat) → (lead : List Lexeme) → (seen : Nat) → List Lexeme →
    List Placed
  | _, _, _, _, [] => []
  | skip + 1, depth, _, seen, _ :: ls => placedFrom skip depth [] (seen + 1) ls
  | 0, depth, lead, seen, l :: ls =>
    match l.kind with
    | .blank =>
      placedFrom 0 depth (if lead = [] || !isTight l then [] else lead ++ [l]) (seen + 1) ls
    | .comment => placedFrom 0 depth (if depth = 0 then lead ++ [l] else []) (seen + 1) ls
    | .literal => placedFrom 0 depth [] (seen + 1) ls
    | .mark c =>
      if c = '{' || c = '(' || c = '[' then placedFrom 0 (depth + 1) [] (seen + 1) ls
      else if c = '}' || c = ')' || c = ']' then placedFrom 0 (depth - 1) [] (seen + 1) ls
      else placedFrom 0 depth [] (seen + 1) ls
    | .word =>
      let found := if depth = 0 && l.text = "func".toList then function? lead l ls else none
      match found with
      | some (f, rest) =>
        ⟨f, seen - lead.length, seen + 1 + (ls.length - rest.length)⟩ ::
          placedFrom (ls.length - rest.length) depth [] (seen + 1) ls
      | none => placedFrom 0 depth [] (seen + 1) ls

def placed (ls : List Lexeme) : List Placed := placedFrom 0 0 [] 0 ls

/-! ## Files -/

/-- A Go file as regeneration sees it. -/
structure File where
  /-- Everything up to the end of the last import, or of the package clause. -/
  header : Option Text
  package : Option Text
  functions : List Function
  /-- The other texts of the top level, without the white space around them. -/
  declarations : List Text
  deriving DecidableEq, Repr, Inhabited

/-- The lexemes between two positions; none if the second is not behind the first. -/
def slice (ls : List Lexeme) (start stop : Nat) : List Lexeme := (ls.take stop).drop start

/-- The texts between functions, from the position `cursor` on. -/
def gapTexts (ls : List Lexeme) (cursor : Nat) : List Placed → List Text
  | [] => [textOf (ls.drop cursor)]
  | p :: ps => textOf (slice ls cursor p.start) :: gapTexts ls (max cursor p.stop) ps

/-- The texts between functions that are not blank. -/
def declarationTexts (ls : List Lexeme) (cursor : Nat) (ps : List Placed) : List Text :=
  ((gapTexts ls cursor ps).map trim).filter (· ≠ [])

namespace File

/-- Reads a file from its lexemes. -/
def ofLexemes (ls : List Lexeme) : File :=
  let length? := headerLength? .start 0 0 ls
  let names := (ls.filter (!·.isTrivia)).map Lexeme.text
  let found := placed ls
  { header := length?.map fun n => textOf (ls.take n)
    package := if length?.isSome then names[1]? else none
    functions := found.map Placed.function
    declarations := declarationTexts ls (length?.getD 0) found }

/-- Reads a file. Every text is a file, if only one of declarations. -/
def parse (s : Text) : File := ofLexemes (lex s)

end File

end Scaffold.Go
