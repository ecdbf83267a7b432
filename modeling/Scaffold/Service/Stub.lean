import Scaffold.Go.File
import Scaffold.Service.Group
import Scaffold.Service.Signature

/-!
# Stubs

A service function that nobody has written yet: it panics, and the code behind the panic shows how
the response is put together. A function counts as unimplemented as long as it starts with the
panic.
-/

namespace Scaffold.Service

open Naming

/-- The statement that every stub starts with. -/
def stubPanic : Text := "panic(fmt.Errorf(\"not implemented\"))".toList

/-- Whether a function is a stub that nobody has touched. -/
def isStub (f : Go.Function) : Bool := (Text.after? stubPanic (Text.trimStart f.body)).isSome

def freshImports (s : Setting) (hasUpload : Bool) : List Text :=
  s.modelImport :: (if hasUpload then [s.uploadImport] else []) ++
    ["context".toList, "fmt".toList, "time".toList] ++ s.config.imports.extraService

def freshHeader (s : Setting) (g : Group) : Text :=
  "package ".toList ++ g.owner.package ++ "\n\nimport (\n".toList ++
    (freshImports s g.hasUpload).flatMap importLine ++ ")\n\n".toList

/-- Whether a schema type is a scalar with a Go type of its own. -/
def isScalar (typeName : Text) : Bool := (scalars.lookup typeName).isSome

/-- The declaration of the variable `result`. -/
def resultDeclaration (t : TypeRef) : Text :=
  let goType := scalarType t.typeName
  if t.typeName = [] then "\tvar result interface\x7b\x7d\n".toList
  else
    match isScalar t.typeName, t.isList with
    | true, true => "\tresult := []".toList ++ goType ++ "\x7b\x7d\n".toList
    | true, false => "\tvar result ".toList ++ goType ++ "\n".toList
    | false, true => "\tresult := []*".toList ++ goType ++ "\x7b\x7d\n".toList
    | false, false => "\tresult := ".toList ++ goType ++ "\x7b\x7d\n".toList

/-- How the response takes the result: lists and required scalars by value, all else by address. -/
def resultValue (t : TypeRef) : Text :=
  if t.isList || (t.required && isScalar t.typeName) then "result".toList else "&result".toList

/-- The body of a stub, between its braces. -/
def stubBody (a : Action) (t : TypeRef) : Text :=
  "\n\t".toList ++ stubPanic ++ "\n\n\ttimeStart := time.Now()\n\tsuccess := false\n".toList ++
    resultDeclaration t ++ "\tresponse := ".toList ++ responseStruct a.responseType ++
    "\x7b\n\t\tResult:      ".toList ++ resultValue t ++
    ",\n\t\tSuccess:     success,\n\t\tElapsedTime: time.Since(timeStart).String(),\n\t\x7d\n".toList ++
    "\treturn &response, nil\n".toList

def stub (a : Action) (t : TypeRef) : Text :=
  signature a ++ stubBody a t ++ "\x7d\n\n".toList

end Scaffold.Service
