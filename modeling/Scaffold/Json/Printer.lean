import Scaffold.Text.Basic

/-!
# Printing JSON

JSON values without numbers, and their layout on lines: one item or member a line, two spaces of
indentation for each level, and nothing between the brackets of an empty list or object. The members
of an object stay in the order in which they were given.
-/

namespace Scaffold

/-- A JSON value without numbers. -/
inductive Json where
  | boolean (b : Bool)
  | string (t : Text)
  | list (items : List Json)
  | object (members : List (Text × Json))
  deriving Repr, Inhabited

namespace Json

def hexDigit (n : Nat) : Char := (Nat.digitChar n)

/-- How a character stands in a string: quotes, backslashes and control characters are escaped. -/
def escapeChar (c : Char) : Text :=
  match c with
  | '"' => ['\\', '"']
  | '\\' => ['\\', '\\']
  | '\x08' => ['\\', 'b']
  | '\x0c' => ['\\', 'f']
  | '\n' => ['\\', 'n']
  | '\r' => ['\\', 'r']
  | '\t' => ['\\', 't']
  | c =>
    if c.toNat < 32 then
      ['\\', 'u', '0', '0', hexDigit (c.toNat / 16), hexDigit (c.toNat % 16)]
    else [c]

def quote (t : Text) : Text := '"' :: t.flatMap escapeChar ++ ['"']

/-- A new line that is indented `level` times. -/
def lineBreak (level : Nat) : Text := '\n' :: List.replicate (2 * level) ' '

mutual

/-- A value that stands `level` levels deep. -/
def printAt (level : Nat) : Json → Text
  | boolean true => "true".toList
  | boolean false => "false".toList
  | string t => quote t
  | list [] => "[]".toList
  | list (item :: items) =>
    '[' :: lineBreak (level + 1) ++ printAt (level + 1) item ++ printItems (level + 1) items ++
      lineBreak level ++ [']']
  | object [] => "\x7b\x7d".toList
  | object ((key, value) :: members) =>
    '{' :: lineBreak (level + 1) ++ quote key ++ ": ".toList ++ printAt (level + 1) value ++
      printMembers (level + 1) members ++ lineBreak level ++ ['}']

def printItems (level : Nat) : List Json → Text
  | [] => []
  | item :: items => ',' :: lineBreak level ++ printAt level item ++ printItems level items

/-- The members of an object after the first. -/
def printMembers (level : Nat) : List (Text × Json) → Text
  | [] => []
  | (key, value) :: members =>
    ',' :: lineBreak level ++ quote key ++ ": ".toList ++ printAt level value ++
      printMembers level members

end

def print (value : Json) : Text := printAt 0 value

end Json

end Scaffold
