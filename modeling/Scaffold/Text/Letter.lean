import Scaffold.Text.Basic
import Scaffold.Text.LetterTable

/-!
# Classes of characters

White space, letter case, numbers and word characters, each for all of Unicode: ASCII is decided
here, everything else by the ranges of `Scaffold.Text.LetterTable`.
-/

namespace Scaffold.Text

/-- Whether a list of rows `(first, last, step)` covers the code point `n`. -/
def covers (rows : List (Nat × Nat × Nat)) (n : Nat) : Bool :=
  rows.any fun (first, last, step) => first ≤ n && n ≤ last && (n - first) % step == 0

def isAscii (c : Char) : Bool := c.toNat < 128

/-- White space: the six controls and blanks of ASCII, the next-line control, and the spaces and
separators beyond. -/
def isBlank (c : Char) : Bool :=
  let n := c.toNat
  (9 ≤ n && n ≤ 13) || n == 32 || n == 133 || n == 160 || n == 5760 || (8192 ≤ n && n ≤ 8202) ||
    n == 8232 || n == 8233 || n == 8239 || n == 8287 || n == 12288

def isLower (c : Char) : Bool := if isAscii c then c.isLower else covers LetterTable.lower c.toNat

def isUpper (c : Char) : Bool := if isAscii c then c.isUpper else covers LetterTable.upper c.toNat

/-- A number: a digit, or a sign that stands for a number, such as one half. -/
def isNumber (c : Char) : Bool := if isAscii c then c.isDigit else covers LetterTable.number c.toNat

/-- A character of a word: a letter, a mark, a decimal digit or an underscore. -/
def isWord (c : Char) : Bool :=
  if isAscii c then c.isAlphanum || c == '_' else covers LetterTable.word c.toNat

/-- The capital form of a character, which can take several characters. -/
def capital (c : Char) : Text :=
  if isAscii c then [c.toUpper]
  else
    match LetterTable.longCapital.lookup c.toNat with
    | some image => image.map Char.ofNat
    | none =>
      match LetterTable.capital.find? fun (first, last, step, _) =>
          first ≤ c.toNat && c.toNat ≤ last && (c.toNat - first) % step == 0 with
      | some (first, _, _, image) => [Char.ofNat (c.toNat - first + image)]
      | none => [c]

def trimStart (s : Text) : Text := s.dropWhile isBlank

def trimEnd (s : Text) : Text := dropEndWhile isBlank s

def trim (s : Text) : Text := trimEnd (trimStart s)

/-- The longest word in front of `s`, if it is not empty, and what follows it. -/
def word? (s : Text) : Option (Text × Text) :=
  match s.takeWhile isWord with
  | [] => none
  | w => some (w, s.dropWhile isWord)

end Scaffold.Text
