import Scaffold.Toml.Value

/-!
# TOML scalars

Strings in their four spellings, numbers, moments and the two truth values. Each reader takes a
scalar from the front of a text and gives it with the rest, or refuses.
-/

namespace Scaffold.Toml

open Text

/-- A reader takes a value from the front of a text. -/
abbrev Reader (α : Type) := Text → Option (α × Text)

def isSpace (c : Char) : Bool := c = ' ' || c = '\t'

def skipSpace (s : Text) : Text := s.dropWhile isSpace

/-- What follows a newline, with or without a carriage return. -/
def newline? : Text → Option Text
  | '\n' :: s => some s
  | '\r' :: '\n' :: s => some s
  | _ => none

/-- A character that may stand in a comment or a literal string: no control but the tab. -/
def isPlain (c : Char) : Bool := c = '\t' || (32 ≤ c.toNat && c.toNat ≠ 127)

/-! ## Strings -/

/-- The value of a hexadecimal digit. -/
def hexDigit? (c : Char) : Option Nat :=
  if c.isDigit then some (c.toNat - 48)
  else if 'a' ≤ c && c ≤ 'f' then some (c.toNat - 87)
  else if 'A' ≤ c && c ≤ 'F' then some (c.toNat - 55)
  else none

/-- The character with a code point in hexadecimal digits. -/
def charOfHex? (ds : Text) : Option Char := do
  let ns ← ds.mapM hexDigit?
  let n := ns.foldl (fun n d => 16 * n + d) 0
  if n.isValidChar then some (Char.ofNat n) else none

def shortEscapes : List (Char × Char) :=
  [('b', '\x08'), ('t', '\t'), ('n', '\n'), ('f', '\x0c'), ('r', '\r'), ('"', '"'), ('\\', '\\')]

/-- The character that an escape stands for, from behind its backslash. -/
def escape? : Reader Char
  | 'u' :: s => if s.length < 4 then none else (charOfHex? (s.take 4)).map (·, s.drop 4)
  | 'U' :: s => if s.length < 8 then none else (charOfHex? (s.take 8)).map (·, s.drop 8)
  | c :: s => (shortEscapes.lookup c).map (·, s)
  | [] => none

/-- The rest of a basic string, up to and with its closing quote. -/
def basicRest? (fuel : Nat) : Reader Text := fun s =>
  match fuel, s with
  | 0, _ | _, [] => none
  | fuel + 1, c :: s =>
    if c = '"' then some ([], s)
    else if c = '\\' then do
      let (d, s) ← escape? s
      let (front, rest) ← basicRest? fuel s
      return (d :: front, rest)
    else if isPlain c then do
      let (front, rest) ← basicRest? fuel s
      return (c :: front, rest)
    else none

/-- The rest of a literal string, up to and with its closing quote. -/
def literalRest? (s : Text) : Option (Text × Text) := do
  let rest ← after? ['\''] (s.dropWhile fun c => isPlain c && c ≠ '\'')
  some (s.takeWhile fun c => isPlain c && c ≠ '\'', rest)

/-- The end of a string of many lines: three quotes, in front of which two more belong to the
string. -/
def closing? (quote : Char) (s : Text) : Option (Text × Text) :=
  let quotes := s.takeWhile (· = quote)
  if quotes.length < 3 then none
  else some (quotes.take (min (quotes.length - 3) 2), s.drop (min quotes.length 5))

/-- The text without white space and newlines in front. -/
def skipLines (fuel : Nat) (s : Text) : Text :=
  match fuel, newline? (skipSpace s) with
  | fuel + 1, some rest => skipLines fuel rest
  | _, _ => skipSpace s

/-- What follows a backslash at the end of a line, from the next character on that is no white
space. -/
def joinedLine? (s : Text) : Option Text :=
  (newline? (skipSpace s)).map fun s => skipLines s.length s

/-- The rest of a string of many lines. A newline counts as one character in both its forms; only a
basic string has escapes. -/
def multilineRest? (basic : Bool) (fuel : Nat) : Reader Text := fun s =>
  match fuel, s with
  | 0, _ | _, [] => none
  | fuel + 1, c :: s =>
    match closing? (if basic then '"' else '\'') (c :: s), newline? (c :: s) with
    | some found, _ => some found
    | none, some s => do
      let (front, rest) ← multilineRest? basic fuel s
      return ('\n' :: front, rest)
    | none, none =>
      if basic && c = '\\' then
        match joinedLine? s with
        | some s => multilineRest? basic fuel s
        | none => do
          let (d, s) ← escape? s
          let (front, rest) ← multilineRest? basic fuel s
          return (d :: front, rest)
      else if isPlain c then do
        let (front, rest) ← multilineRest? basic fuel s
        return (c :: front, rest)
      else none

/-- A string of one line in quotes, as it can also stand for a key. -/
def quoted? : Reader Text
  | '"' :: s => basicRest? (s.length + 1) s
  | '\'' :: s => literalRest? s
  | _ => none

/-- A string in any spelling. A newline behind three opening quotes does not belong to it. -/
def string? (s : Text) : Option (Text × Text) :=
  match after? "\"\"\"".toList s, after? "'''".toList s with
  | some s, _ => multilineRest? true (s.length + 1) ((newline? s).getD s)
  | none, some s => multilineRest? false (s.length + 1) ((newline? s).getD s)
  | none, none => quoted? s

/-! ## Numbers -/

/-- Digits of which `isDigit` tells, with single underscores between them. -/
def digitRun? (isDigit : Char → Bool) (s : Text) : Option (Text × Text) :=
  let run := s.takeWhile fun c => isDigit c || c = '_'
  let groups := splitOn '_' run
  if run = [] || groups.contains [] then none
  else some (groups.flatten, s.drop run.length)

/-- A sign, if there is one. -/
def sign : Text → Text × Text
  | '+' :: s => (['+'], s)
  | '-' :: s => (['-'], s)
  | s => ([], s)

def valueOf (base : Nat) (ds : Text) : Nat :=
  ds.foldl (fun n c => base * n + (hexDigit? c).getD 0) 0

/-- The largest number of magnitude that an integer can have, and one more for negative ones. -/
def integerBound : Nat := 9223372036854775808

/-- A decimal integer without a superfluous zero in front, and its digits. -/
def decimal? (s : Text) : Option (Text × Text) := do
  let (ds, rest) ← digitRun? Char.isDigit s
  guard (ds.length = 1 || ds.head? ≠ some '0')
  some (ds, rest)

/-- An integer in a base other than ten, from behind its mark. -/
def based? (base : Nat) (s : Text) : Option Text := do
  let inBase (c : Char) : Bool := (hexDigit? c).any (· < base)
  let (ds, rest) ← digitRun? inBase s
  guard (valueOf base ds < integerBound)
  some rest

def fraction? (s : Text) : Option (Text × Text) := do
  digitRun? Char.isDigit (← after? ['.'] s)

/-- The exponent of a float. -/
def exponent? : Reader Int
  | c :: s =>
    if c = 'e' || c = 'E' then do
      let (mark, s) := sign s
      let (ds, rest) ← digitRun? Char.isDigit s
      let n := valueOf 10 ds
      some (if mark = ['-'] then -(n : Int) else n, rest)
    else none
  | [] => none

/-- Whether the number with digits `ds` and exponent `e` is too large for a float: it is not less
than the middle between the largest float and the next power of two. -/
def overflows (ds : Text) (e : Int) : Bool :=
  let ds := ds.dropWhile (· = '0')
  let magnitude : Int := ds.length + e
  if ds = [] || magnitude < 300 then false
  else if magnitude > 320 then true
  else
    let bound := Nat.pow 2 1024 - Nat.pow 2 970
    if 0 ≤ e then bound ≤ valueOf 10 ds * Nat.pow 10 e.toNat
    else bound * Nat.pow 10 e.natAbs ≤ valueOf 10 ds

/-- The rest behind a decimal number, which is an integer or a float. -/
def decimalNumber? (s : Text) : Option Text := do
  let (mark, s) := sign s
  let (ds, rest) ← decimal? s
  match fraction? rest with
  | some (fs, rest) =>
    let (e, rest) := (exponent? rest).getD (0, rest)
    guard (mark = ['-'] || !overflows (ds ++ fs) (e - fs.length))
    some rest
  | none =>
    match exponent? rest with
    | some (e, rest) => do
      guard (mark = ['-'] || !overflows ds e)
      some rest
    | none => do
      guard (valueOf 10 ds < integerBound || (mark = ['-'] && valueOf 10 ds = integerBound))
      some rest

/-- The rest behind one of the floats that have names. -/
def namedFloat? (s : Text) : Option Text :=
  let (_, s) := sign s
  (after? "inf".toList s).orElse fun _ => after? "nan".toList s

/-- The rest behind a number. -/
def numberRest? (s : Text) : Option Text :=
  match s with
  | '0' :: 'x' :: s => based? 16 s
  | '0' :: 'o' :: s => based? 8 s
  | '0' :: 'b' :: s => based? 2 s
  | s => (namedFloat? s).orElse fun _ => decimalNumber? s

/-! ## Moments -/

/-- A number of exactly `n` digits. -/
def fixed? (n : Nat) : Reader Nat := fun s =>
  let ds := s.take n
  if ds.length = n && ds.all Char.isDigit then some (valueOf 10 ds, s.drop n) else none

/-- The number of days of a month. -/
def daysOfMonth (year month : Nat) : Nat :=
  match month with
  | 2 => if year % 4 = 0 && (year % 100 ≠ 0 || year % 400 = 0) then 29 else 28
  | 4 | 6 | 9 | 11 => 30
  | _ => 31

/-- The rest behind a date of the calendar. -/
def dateRest? (s : Text) : Option Text := do
  let (year, s) ← fixed? 4 s
  let (month, s) ← fixed? 2 (← after? ['-'] s)
  let (day, s) ← fixed? 2 (← after? ['-'] s)
  guard (1 ≤ month && month ≤ 12 && 1 ≤ day && day ≤ daysOfMonth year month)
  some s

/-- The rest behind a time of the day, with a fraction of a second if there is one. -/
def timeRest? (s : Text) : Option Text := do
  let (hour, s) ← fixed? 2 s
  let (minute, s) ← fixed? 2 (← after? [':'] s)
  let (second, s) ← fixed? 2 (← after? [':'] s)
  guard (hour < 24 && minute < 60 && second ≤ 60)
  match s with
  | '.' :: c :: s => if c.isDigit then some (s.dropWhile Char.isDigit) else none
  | '.' :: [] => none
  | s => some s

/-- The rest behind an offset from universal time. -/
def offsetRest? : Text → Option Text
  | c :: s =>
    if c = 'Z' || c = 'z' then some s
    else if c = '+' || c = '-' then do
      let (hour, s) ← fixed? 2 s
      let (minute, s) ← fixed? 2 (← after? [':'] s)
      guard (hour < 24 && minute < 60)
      some s
    else none
  | [] => none

/-- The rest behind a moment: a date, a time, or both with an offset if there is one. -/
def momentRest? (s : Text) : Option Text :=
  match dateRest? s with
  | some rest =>
    let timed := match rest with
      | c :: s => if c = 'T' || c = 't' || c = ' ' then timeRest? s else none
      | [] => none
    match timed with
    | some s => some ((offsetRest? s).getD s)
    | none => some rest
  | none => timeRest? s

/-! ## All of them -/

/-- A scalar. A text that starts like a moment is one. -/
def scalar? (s : Text) : Option (Value × Text) :=
  let taken (rest : Text) : Text := s.take (s.length - rest.length)
  match s with
  | '"' :: _ | '\'' :: _ => (string? s).map fun (t, rest) => (.string t, rest)
  | _ =>
    match after? "true".toList s, after? "false".toList s with
    | some rest, _ => some (.boolean true, rest)
    | none, some rest => some (.boolean false, rest)
    | none, none =>
      match momentRest? s with
      | some rest => some (.moment (taken rest), rest)
      | none => (numberRest? s).map fun rest => (.number (taken rest), rest)

end Scaffold.Toml
