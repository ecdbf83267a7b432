import Scaffold.Config.Basic
import Scaffold.Toml.Document

/-!
# Configurations in TOML

A configuration is written as a document with the sections `project`, `paths`, `scan` and
`generation`. A section can also be an array, whose items are the entries in their fixed order.
Unknown keys mean nothing; a known key with a value of another type spoils the document.
-/

namespace Scaffold.Config

open Toml

/-- The values of a section, found by their keys or, in an array, by their places. -/
structure Section where
  find? : (place : Nat) → (key : Text) → Option Value

/-- The section that a value describes. A moment describes one without entries. -/
def section? : Value → Option Section
  | .table _ es => some ⟨fun _ key => es.lookup key⟩
  | .array items => some ⟨fun place _ => items[place]?⟩
  | .tables items => some ⟨fun place _ => (items.reverse[place]?).map (.table .header)⟩
  | .moment _ => some ⟨fun _ _ => none⟩
  | _ => none

/-- Reads an entry of a section, which has a default. -/
def Section.value {α : Type} (s : Section) (place : Nat) (key : String) (read : Value → Option α)
    (default : α) : Option α :=
  match s.find? place key.toList with
  | none => some default
  | some v => read v

def readText? : Value → Option Text
  | .string t => some t
  | _ => none

def readPath? (v : Value) : Option Path := (readText? v).map Path.mk

def readBool? : Value → Option Bool
  | .boolean b => some b
  | _ => none

/-- A list of texts. -/
def readTexts? : Value → Option (List Text)
  | .array items => items.mapM readText?
  | .tables [] => some []
  | _ => none

def readProject? (v : Value) : Option (Option Text) := do
  let s ← section? v
  s.value 0 "go_module" (fun v => (readText? v).map some) none

/-- The section of paths. -/
def readPaths? (v : Value) : Option Paths := do
  let s ← section? v
  let d : Paths := {}
  return { modulesDir := ← s.value 0 "modules_dir" readText? d.modulesDir
           schemasDir := ← s.value 1 "schemas_dir" readText? d.schemasDir
           schemaOutput := ← s.value 2 "schema_output" readPath? d.schemaOutput
           resolverOutput := ← s.value 3 "resolver_output" readPath? d.resolverOutput }

/-- The section of scan rules. -/
def readScan? (v : Value) : Option ScanRules := do
  let s ← section? v
  let flag := fun v => (readBool? v).map some
  return { extraIgnore := ← s.value 0 "extra_ignore" readTexts? []
           followSymlinks := ← s.value 1 "follow_symlinks" flag none
           respectGitignore := ← s.value 2 "respect_gitignore" flag none }

/-- The section of generated code. -/
def readImports? (v : Value) : Option Imports := do
  let s ← section? v
  let d : Imports := {}
  return { upload := ← s.value 0 "upload_import" readText? d.upload
           extraService := ← s.value 1 "extra_service_imports" readTexts? d.extraService }

/-- The configuration that a document describes. -/
def ofToml? (source : Text) : Option Config := do
  let s ← section? (.table .header (← parse? source))
  return { goModule := ← s.value 0 "project" readProject? none
           paths := ← s.value 1 "paths" readPaths? {}
           scan := ← s.value 2 "scan" readScan? {}
           imports := ← s.value 3 "generation" readImports? {} }

end Scaffold.Config
