import Scaffold.Naming.GoType

/-!
# Signatures of service functions

Each action has a Go function that does its work. Its name, parameters and results follow from the
action, and the resolver method of the action calls it with the same parameters.
-/

namespace Scaffold.Service

open Naming

/-- The name of the function for an action: the name of the action and that of its kind. -/
def functionName (a : Action) : Text := capitalize a.name ++ capitalize a.kind.name

/-- The parameters that an argument list adds. -/
def argumentParameters (args : List Argument) : Text :=
  args.flatMap fun arg =>
    ", ".toList ++ recase arg.name ++ ' ' :: parameterType arg.toTypeRef

/-- The parameters of the function, with the context in front. -/
def parameters (a : Action) : Text := "ctx context.Context".toList ++ argumentParameters a.args

def callArguments (a : Action) : Text :=
  "ctx".toList ++ a.args.flatMap fun arg => ", ".toList ++ recase arg.name

/-- The parameters and results of an action, as they follow the name of a function. -/
def typeText (a : Action) : Text :=
  '(' :: parameters a ++ ") (".toList ++ responsePointer a.responseType ++ ", error) \x7b".toList

def signature (a : Action) : Text := "func ".toList ++ functionName a ++ typeText a

end Scaffold.Service
