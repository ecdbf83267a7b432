import Scaffold.Text.Basic

/-!
# TOML values

A TOML document is a table of values. The tables of a document grow while it is read, and each
remembers how it came about, since that decides what may still be added to it: a header can be
written once, dotted keys add only to tables that dotted keys made, and an inline table is closed.
-/

namespace Scaffold.Toml

/-- How a table came about. -/
inductive Origin where
  /-- By a header of its own, or as an element of an array of tables. -/
  | header
  /-- On the way to the table of a longer header. -/
  | passage
  /-- On the way to the value of a dotted key. -/
  | dotted
  /-- Between braces. -/
  | inline
  deriving DecidableEq, Repr

/-- A TOML value. Numbers and moments are kept as they were written. -/
inductive Value where
  | string (s : Text)
  | boolean (b : Bool)
  | number (lexeme : Text)
  | moment (lexeme : Text)
  | array (items : List Value)
  | table (origin : Origin) (entries : List (Text × Value))
  /-- An array of tables that headers in double brackets made, the last table first. -/
  | tables (items : List (List (Text × Value)))
  deriving Repr

/-- The entries of a table, in the order in which they were added. -/
abbrev Entries := List (Text × Value)

/-- Puts a value under a key, in the place of the old one if there is one. -/
def Entries.set (es : Entries) (key : Text) (v : Value) : Entries :=
  match es with
  | [] => [(key, v)]
  | (k, old) :: es => if k = key then (k, v) :: es else (k, old) :: Entries.set es key v

/-- Whether dotted keys, or else headers, may go through a table. -/
def Origin.lets (origin through : Origin) : Bool :=
  match through with
  | .dotted => origin = .dotted || origin = .passage
  | _ => origin ≠ .inline

/-- Goes along a path of keys and changes the entries at its end with `f`, which is told how the
table there came about. Tables that are missing on the way are made, with origin `fresh`; from an
array of tables the way leads on through its last one. -/
def descend (fresh : Origin) (f : Origin → Entries → Option Entries) :
    List Text → Origin → Entries → Option Entries
  | [], origin, es => f origin es
  | key :: path, _, es =>
    match es.lookup key with
    | none => do return es.set key (.table fresh (← descend fresh f path fresh []))
    | some (.table origin inner) =>
      if origin.lets fresh then do
        return es.set key (.table origin (← descend fresh f path origin inner))
      else none
    | some (.tables (last :: earlier)) => do
      return es.set key (.tables ((← descend fresh f path .header last) :: earlier))
    | some _ => none

/-- The value at the end of a path of keys. -/
def reach : List Text → Entries → Option Value
  | [], _ => none
  | [key], es => es.lookup key
  | key :: path, es =>
    match es.lookup key with
    | some (.table _ inner) => reach path inner
    | some (.tables (last :: _)) => reach path last
    | _ => none

/-- Adds the value of a key, which is new, to a table. A dotted key adds to the table that its path
leads to, which dotted keys must have made. -/
def addValue (es : Entries) (path : List Text) (key : Text) (v : Value) : Option Entries :=
  descend .dotted
    (fun origin es =>
      if (path = [] || origin = .dotted) && (es.lookup key).isNone then some (es.set key v)
      else none)
    path .header es

end Scaffold.Toml
