import Scaffold.Schema.TypeBlock

/-!
# Flat text

The interior of a type block with all layout taken out: no documentation, no commas, and a single
separator `#` where white space stood, unless a neighbouring mark makes it superfluous. Fields are
read from flat text, so that the same fields in another layout read the same.
-/

namespace Scaffold.Schema

open Text

/-- The character that stands for white space. -/
def separator : Char := '#'

/-- Puts one separator in the place of each run of white space. -/
def collapse : (inGap : Bool) → Text → Text
  | _, [] => []
  | inGap, c :: s =>
    if isBlank c then
      if inGap then collapse true s else separator :: collapse true s
    else c :: collapse false s

/-- Drops a separator where it stands behind a character of `opening` or before one of `closing`. -/
def dropSeparators (opening closing : Char → Bool) : (opened : Bool) → Text → Text
  | _, [] => []
  | opened, c :: s =>
    if c = separator && (opened || s.head?.any closing) then dropSeparators opening closing false s
    else c :: dropSeparators opening closing (opening c) s

/-- The marks that need no separator on either side. -/
def isMark (c : Char) : Bool := c = '(' || c = ')' || c = ':'

/-- The flat text of an interior. -/
def flatten (interior : Text) : Text :=
  let plain := (stripDocs interior).filter (· ≠ ',')
  let marked := dropSeparators isMark (fun c => isMark c || c = '!') false (collapse false plain)
  dropSeparators (· = '[') (· = ']') false marked

def flat? (s : Text) : Option Text := (interior? s).map flatten

end Scaffold.Schema
