import Scaffold.Output.Setting
import Scaffold.Schema.Model
import Scaffold.Service.Signature

/-!
# The resolver file

The Go server calls one method for each query and mutation. The resolver file holds these methods,
in the order of the actions' names, and each of them passes its call on to the function of the
action in the package of its module.
-/

namespace Scaffold.Output

open Naming Service

/-- What the resolver file ends with. -/
def resolverFooter : Text :=
  ("// Mutation returns MutationResolver implementation.\n" ++
    "func (r *Resolver) Mutation() MutationResolver \x7b return &mutationResolver\x7br\x7d \x7d\n\n" ++
    "// Query returns QueryResolver implementation.\n" ++
    "func (r *Resolver) Query() QueryResolver \x7b return &queryResolver\x7br\x7d \x7d\n\n" ++
    "type mutationResolver struct\x7b *Resolver \x7d\n" ++
    "type queryResolver struct\x7b *Resolver \x7d\n").toList

/-- The import paths of all modules, each once and in order. -/
def moduleImports (s : Setting) (files : List SchemaFile) : List Text :=
  (Table.ofList (files.map fun f => (s.moduleImport f.moduleDir, ()))).keys

/-- The header of the resolver file. -/
def resolverHeader (s : Setting) (m : Schema.Model) : Text :=
  "package graph\n\nimport (\n".toList ++ importLine s.modelImport ++
    importLine "context".toList ++ (moduleImports s m.files).flatMap importLine ++
    (if m.hasUpload then importLine s.uploadImport else []) ++ ")\n\n".toList

/-- The type that has the methods of a kind; subscriptions have none. -/
def receiver? : Kind → Option Text
  | .query => some "queryResolver".toList
  | .mutation => some "mutationResolver".toList
  | .subscription => none

/-- The method of an action. -/
def method (a : Action) : Text :=
  match receiver? a.kind with
  | none => []
  | some receiver =>
    "func (r *".toList ++ receiver ++ ") ".toList ++ capitalize a.name ++ typeText a ++
      "\n\treturn ".toList ++ a.owner.package ++ '.' :: functionName a ++
      '(' :: callArguments a ++ ")\n\x7d\n\n".toList

def resolverFile (s : Setting) (m : Schema.Model) : Text :=
  resolverHeader s m ++ m.actionTable.values.flatMap method ++ resolverFooter

end Scaffold.Output
