import Scaffold.Toml.Scalar

/-!
# TOML documents

A document is a list of lines: comments, headers that open a table, and keys with values that go
into the open table. A document is read as a whole or refused as a whole.
-/

namespace Scaffold.Toml

open Text

/-- What follows the end of a line, with white space and a comment in front of it. -/
def endOfLine? (s : Text) : Option Text :=
  let s := match skipSpace s with
    | '#' :: s => s.dropWhile isPlain
    | s => s
  if s = [] then some [] else newline? s

/-- The text without white space, newlines and comments in front. -/
def skipGaps (fuel : Nat) (s : Text) : Text :=
  match fuel with
  | 0 => s
  | fuel + 1 =>
    match skipSpace s with
    | '#' :: inside =>
      match newline? (inside.dropWhile isPlain) with
      | some rest => skipGaps fuel rest
      | none => '#' :: inside
    | s =>
      match newline? s with
      | some rest => skipGaps fuel rest
      | none => s

/-- A character of a key that needs no quotes. -/
def isBare (c : Char) : Bool := c.isAlphanum || c = '_' || c = '-'

/-- One key without dots. -/
def simpleKey? (s : Text) : Option (Text × Text) :=
  (quoted? s).orElse fun _ =>
    match s.takeWhile isBare with
    | [] => none
    | key => some (key, s.dropWhile isBare)

/-- How deep arrays and inline tables may stand inside one another, and how many simple keys a key
may have. -/
def depthLimit : Nat := 79

/-- Simple keys with dots between them, at most `limit` of them, and white space anywhere around
them. -/
def keys? (limit : Nat) (s : Text) : Option (List Text × Text) :=
  match limit with
  | 0 => none
  | limit + 1 => do
    let (key, rest) ← simpleKey? (skipSpace s)
    match skipSpace rest with
    | '.' :: rest => do
      let (keys, rest) ← keys? limit rest
      return (key :: keys, rest)
    | rest => return ([key], rest)

def key? (s : Text) : Option (List Text × Text) := keys? depthLimit s

/-- The items of an array from behind its bracket or a comma, where `value` reads an item. -/
def items? (value : Reader Value) (fuel : Nat) (s : Text) : Option (List Value × Text) :=
  match fuel with
  | 0 => none
  | fuel + 1 =>
    match skipGaps (s.length + 1) s with
    | ']' :: rest => some ([], rest)
    | s => do
      let (v, rest) ← value s
      match skipGaps (rest.length + 1) rest with
      | ',' :: rest => do
        let (vs, rest) ← items? value fuel rest
        return (v :: vs, rest)
      | ']' :: rest => return ([v], rest)
      | _ => none

/-- The pairs of an inline table from behind its brace or a comma, added to `es`. -/
def pairs? (value : Reader Value) (fuel : Nat) (es : Entries) (s : Text) :
    Option (Entries × Text) :=
  match fuel with
  | 0 => none
  | fuel + 1 => do
    let (path, rest) ← key? s
    let (v, rest) ← value (skipSpace (← after? ['='] rest))
    let es ← addValue es path.dropLast (path.getLast?.getD []) v
    match skipSpace rest with
    | ',' :: rest => pairs? value fuel es rest
    | '\x7d' :: rest => return (es, rest)
    | _ => none

/-- A value, with at most `depth` arrays and inline tables inside one another. -/
def value? : (depth : Nat) → Reader Value
  | depth, '[' :: s =>
    match depth with
    | 0 => none
    | depth + 1 => (items? (value? depth) (s.length + 1) s).map fun (vs, rest) => (.array vs, rest)
  | depth, '\x7b' :: s =>
    match depth with
    | 0 => none
    | depth + 1 =>
      match skipSpace s with
      | '\x7d' :: rest => some (.table .inline [], rest)
      | s => (pairs? (value? depth) (s.length + 1) [] s).map fun (es, rest) =>
          (.table .inline es, rest)
  | _, s => scalar? s

/-- A document that has been read up to some line. The open table is kept apart, and is put into its
place when the next one opens. -/
structure Progress where
  root : Entries
  /-- The keys that lead to the open table; none lead to the root. -/
  path : List Text
  /-- The open table is an element of an array of tables. -/
  isElement : Bool
  opened : Entries

def Progress.start : Progress := ⟨[], [], false, []⟩

/-- The root with the open table in its place. -/
def Progress.close (p : Progress) : Option Entries :=
  match p.path.getLast? with
  | none => some p.opened
  | some key =>
    let place (_ : Origin) (es : Entries) : Option Entries :=
      if p.isElement then
        match es.lookup key with
        | none => some (es.set key (.tables [p.opened]))
        | some (.tables earlier) => some (es.set key (.tables (p.opened :: earlier)))
        | some _ => none
      else some (es.set key (.table .header p.opened))
    descend .passage place p.path.dropLast .header p.root

/-- Opens the table of a header. A table that was only passed on the way to another one is opened as
it is; any other value under the key forbids the header. -/
def Progress.openTable (p : Progress) (path : List Text) : Option Progress := do
  let root ← p.close
  let key := path.getLast?.getD []
  let check (_ : Origin) (es : Entries) : Option Entries :=
    match es.lookup key with
    | none | some (.table .passage _) => some es
    | some _ => none
  let root ← descend .passage check path.dropLast .header root
  let opened := match reach path root with
    | some (.table _ es) => es
    | _ => []
  return ⟨root, path, false, opened⟩

/-- Opens a new element of an array of tables. -/
def Progress.openElement (p : Progress) (path : List Text) : Option Progress := do
  let root ← p.close
  let key := path.getLast?.getD []
  let check (_ : Origin) (es : Entries) : Option Entries :=
    match es.lookup key with
    | none | some (.tables _) => some es
    | some _ => none
  let root ← descend .passage check path.dropLast .header root
  return ⟨root, path, true, []⟩

/-- Reads a line and what belongs to it; a line can be empty. -/
def line? (p : Progress) (s : Text) : Option (Progress × Text) :=
  match s with
  | '[' :: '[' :: s => do
    let (path, rest) ← key? s
    let rest ← endOfLine? (← after? "]]".toList rest)
    return (← p.openElement path, rest)
  | '[' :: s => do
    let (path, rest) ← key? s
    let rest ← endOfLine? (← after? [']'] rest)
    return (← p.openTable path, rest)
  | s =>
    match endOfLine? s with
    | some rest => some (p, rest)
    | none => do
      let (path, rest) ← key? s
      let (v, rest) ← value? depthLimit (skipSpace (← after? ['='] rest))
      let rest ← endOfLine? rest
      let opened ← addValue p.opened path.dropLast (path.getLast?.getD []) v
      return (⟨p.root, p.path, p.isElement, opened⟩, rest)

/-- Reads all lines. -/
def lines? (fuel : Nat) (p : Progress) (s : Text) : Option Progress :=
  match fuel with
  | 0 => none
  | fuel + 1 =>
    match skipSpace s with
    | [] => some p
    | s => do
      let (p, rest) ← line? p s
      lines? fuel p rest

/-- The table that a document describes. A byte order mark in front does not belong to it. -/
def parse? (s : Text) : Option Entries := do
  let s := (after? ['\ufeff'] s).getD s
  (← lines? (s.length + 1) .start s).close

end Scaffold.Toml
