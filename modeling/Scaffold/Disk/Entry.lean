import Scaffold.Table
import Scaffold.Text.Basic

/-!
# Entries and file trees

A file system as a value: a directory holds entries under their names, in the order of the names. A
location is the list of names that lead to an entry from the root.
-/

namespace Scaffold

/-- What a file holds: a text, or bytes that are no text. -/
inductive Content where
  | text (t : Text)
  | binary (bytes : List UInt8)
  deriving DecidableEq, Repr

def Text.ofUtf8? (bytes : List UInt8) : Option Text :=
  (String.fromUTF8? ⟨bytes.toArray⟩).map String.toList

/-- The content that bytes are: a text, if they encode one. -/
def Content.ofBytes (bytes : List UInt8) : Content :=
  match Text.ofUtf8? bytes with
  | some t => .text t
  | none => .binary bytes

/-- What stands under a name of a directory. -/
inductive Entry where
  | file (content : Content)
  | link (target : Text)
  /-- A directory, with its entries under their names. -/
  | directory (entries : List (Text × Entry))
  deriving Repr

/-- The names that lead to an entry. -/
abbrev Location := List Text

namespace Entry

def emptyDirectory : Entry := .directory []

instance : Inhabited Entry := ⟨emptyDirectory⟩

/-- The entries of a directory; nothing else has any. -/
def entries : Entry → List (Text × Entry)
  | .directory entries => entries
  | _ => []

def isDirectory : Entry → Bool
  | .directory _ => true
  | _ => false

@[simp]
theorem entries_directory (entries : List (Text × Entry)) : (directory entries).entries = entries :=
  rfl

/-- What stands at a location, seen from an entry. -/
def find? (e : Entry) : Location → Option Entry
  | [] => some e
  | n :: l =>
    match Table.getRow? n e.entries with
    | some next => next.find? l
    | none => none

/-- An entry with `new` at a location. What is no directory on the way becomes one. -/
def place (e : Entry) (l : Location) (new : Entry) : Entry :=
  match l with
  | [] => new
  | n :: l =>
    let next := (Table.getRow? n e.entries).getD emptyDirectory
    .directory (Table.putRow n (next.place l new) e.entries)

/-- An entry without what stands at a location below it. -/
def remove (e : Entry) : Location → Entry
  | [] => e
  | n :: l =>
    match Table.getRow? n e.entries with
    | none => e
    | some next =>
      .directory <|
        if l = [] then Table.eraseRow n e.entries else Table.putRow n (next.remove l) e.entries

mutual

/-- All that stands below an entry, with its location there: a directory before its entries. -/
def listing : Entry → List (Location × Entry)
  | .file _ => []
  | .link _ => []
  | .directory entries => listingOfRows entries

/-- All that stands under names and below them. -/
def listingOfRows : List (Text × Entry) → List (Location × Entry)
  | [] => []
  | (n, e) :: rest =>
    ([n], e) :: e.listing.map (fun (l, e) => (n :: l, e)) ++ listingOfRows rest

end

/-- The files below an entry, with their locations there. -/
def files (e : Entry) : List (Location × Content) :=
  e.listing.filterMap fun
    | (l, .file content) => some (l, content)
    | _ => none

/-! ## What is found -/

@[simp]
theorem find?_nil (e : Entry) : e.find? [] = some e := rfl

theorem find?_cons (e : Entry) (n : Text) (l : Location) :
    e.find? (n :: l) = (Table.getRow? n e.entries).bind (·.find? l) := by
  rw [find?]
  split <;> simp_all

theorem find?_append (e : Entry) (l l' : Location) :
    e.find? (l ++ l') = (e.find? l).bind (·.find? l') := by
  induction l generalizing e with
  | nil => rfl
  | cons n l ih =>
    simp only [List.cons_append, find?_cons, Option.bind_assoc]
    exact congrArg _ (funext ih)

end Entry

/-- A file system: its root is a directory. Relative paths start there. -/
structure Tree where
  entries : List (Text × Entry)
  deriving Repr

namespace Tree

def empty : Tree := ⟨[]⟩

instance : Inhabited Tree := ⟨empty⟩

def root (t : Tree) : Entry := .directory t.entries

def find? (t : Tree) (l : Location) : Option Entry := t.root.find? l

/-- The tree with an entry at a location, in the place of what stood there. -/
def place (t : Tree) (l : Location) (e : Entry) : Tree := ⟨(t.root.place l e).entries⟩

/-- The tree without what stands at a location; the root stays, without entries. -/
def remove (t : Tree) (l : Location) : Tree := if l = [] then empty else ⟨(t.root.remove l).entries⟩

def listing (t : Tree) : List (Location × Entry) := t.root.listing

end Tree

end Scaffold
