import Scaffold.Disk.Cause
import Scaffold.Disk.Path

/-!
# Errors

Every way in which a run can fail, as a cause with its data. Each error has a stable code and a
message; an error that a file operation caused keeps that cause. The four kinds of errors belong to
reading schemas, finding files, writing artifacts and loading the configuration.
-/

namespace Scaffold

/-- A schema file breaks a rule that the generated code depends on. -/
inductive SchemaError where
  | unreadable (path : Path) (cause : Cause)
  | missingTypeBlock (path : Path)
  /-- The argument `input` of an action has a type whose name lacks `Input`. -/
  | inputType (path : Path) (action typeName : Text)
  /-- The response of an action may be null. -/
  | nullableResponse (path : Path) (action token : Text)
  /-- The type of a `result` field is no scalar of the short list and its name lacks `Result`. -/
  | resultType (path : Path) (response result : Text)
  /-- A response with a `result` field lacks another field of the envelope. -/
  | missingField (path : Path) (response field : Text)
  | unexpectedLayout (path : Path)
  deriving DecidableEq, Repr

/-- The files of the project cannot be listed. -/
inductive ScanError where
  | invalidRoot (root : Path)
  | invalidPattern (pattern reason : Text)
  | walk (root : Path) (reason : Text)
  deriving DecidableEq, Repr

/-- An artifact cannot be compared with the disk or written to it. -/
inductive EmitError where
  | unreadable (path : Path) (cause : Cause)
  | unwritable (path : Path) (cause : Cause)
  | commit (staged path : Path) (cause : Cause)
  deriving DecidableEq, Repr

/-- The configuration cannot be used. -/
inductive ConfigError where
  | unreadable (path : Path) (cause : Cause)
  | malformed
  | missingGoModule (root : Path)
  deriving DecidableEq, Repr

/-- A failed run. -/
inductive Error where
  | schema (e : SchemaError)
  | scan (e : ScanError)
  | emit (e : EmitError)
  | config (e : ConfigError)
  deriving DecidableEq, Repr

def quoted (t : Text) : Text := '\'' :: t ++ ['\'']

/-- What follows a message to give the cause behind it. -/
def because (cause : Cause) : Text := ": ".toList ++ cause.message

namespace SchemaError

/-- The stable code of an error. -/
def code : SchemaError → Text
  | unreadable .. => "SCHEMA_READ".toList
  | missingTypeBlock .. => "SCHEMA_MISSING_TYPE_BLOCK".toList
  | inputType .. => "SCHEMA_INVALID_INPUT_ARGUMENT".toList
  | nullableResponse .. => "SCHEMA_INVALID_RESPONSE".toList
  | resultType .. => "SCHEMA_INVALID_RESULT".toList
  | missingField .. => "SCHEMA_MISSING_ENVELOPE_FIELD".toList
  | unexpectedLayout .. => "SCHEMA_UNEXPECTED_LAYOUT".toList

/-- The message of an error. -/
def message : SchemaError → Text
  | unreadable path cause => "failed to read schema file ".toList ++ path.text ++ because cause
  | missingTypeBlock path =>
    "no top-level `type <Name> \x7b` block found in ".toList ++ path.text
  | inputType path action typeName =>
    "argument `input` of action ".toList ++ quoted action ++ " in ".toList ++ path.text ++
      " has type ".toList ++ quoted typeName ++
      "; the type name must contain 'Input' (e.g. 'ActionInput')".toList
  | nullableResponse path action token =>
    "response ".toList ++ quoted token ++ " of action ".toList ++ quoted action ++
      " in ".toList ++ path.text ++
      " must be declared non-null (e.g. 'ActionResponse!')".toList
  | resultType path response result =>
    "result ".toList ++ quoted result ++ " of response ".toList ++ quoted response ++
      " in ".toList ++ path.text ++
      " must contain 'Result' (e.g. 'ActionResult') or be one of Int, Boolean, String".toList
  | missingField path response field =>
    "response ".toList ++ quoted response ++ " in ".toList ++ path.text ++
      " is missing the ".toList ++ quoted field ++ " field".toList
  | unexpectedLayout path =>
    "schema file ".toList ++ path.text ++
      " is not laid out as <modules>/<project>/<package>/...".toList

def cause? : SchemaError → Option Cause
  | unreadable _ cause => some cause
  | _ => none

end SchemaError

namespace ScanError

/-- The stable code of an error. -/
def code : ScanError → Text
  | invalidRoot .. => "SCAN_INVALID_ROOT".toList
  | invalidPattern .. => "SCAN_INVALID_PATTERN".toList
  | walk .. => "SCAN_WALK".toList

/-- The message of an error. -/
def message : ScanError → Text
  | invalidRoot root =>
    "scan root ".toList ++ root.text ++ " does not exist or is not a directory".toList
  | invalidPattern pattern reason =>
    "invalid ignore pattern ".toList ++ quoted pattern ++ ": ".toList ++ reason
  | walk root reason => "walk failed under ".toList ++ root.text ++ ": ".toList ++ reason

end ScanError

namespace EmitError

/-- The stable code of an error. -/
def code : EmitError → Text
  | unreadable .. => "EMIT_READ".toList
  | unwritable .. => "EMIT_WRITE".toList
  | commit .. => "EMIT_COMMIT".toList

/-- The message of an error. -/
def message : EmitError → Text
  | unreadable path cause =>
    "failed to read existing artifact ".toList ++ path.text ++ because cause
  | unwritable path cause => "failed to write artifact ".toList ++ path.text ++ because cause
  | commit staged path cause =>
    "failed to move ".toList ++ staged.text ++ " into place at ".toList ++ path.text ++
      because cause

def cause : EmitError → Cause
  | unreadable _ cause | unwritable _ cause | commit _ _ cause => cause

end EmitError

namespace ConfigError

/-- The stable code of an error. -/
def code : ConfigError → Text
  | unreadable .. => "CONFIG_IO".toList
  | malformed => "CONFIG_PARSE".toList
  | missingGoModule .. => "CONFIG_MISSING_GO_MODULE".toList

/-- The message of an error. -/
def message : ConfigError → Text
  | unreadable path cause => "failed to read config ".toList ++ path.text ++ because cause
  | malformed => "invalid config".toList
  | missingGoModule root =>
    "no Go module path configured: set [project] go_module in resolvgen.toml ".toList ++
      "or add a go.mod under ".toList ++ root.text

def cause? : ConfigError → Option Cause
  | unreadable _ cause => some cause
  | _ => none

end ConfigError

namespace Error

/-- The stable code of an error. -/
def code : Error → Text
  | schema e => e.code
  | scan e => e.code
  | emit e => e.code
  | config e => e.code

/-- The message of an error. -/
def message : Error → Text
  | schema e => e.message
  | scan e => e.message
  | emit e => e.message
  | config e => e.message

/-- The file operation behind an error. -/
def cause? : Error → Option Cause
  | schema e => e.cause?
  | scan _ => none
  | emit e => some e.cause
  | config e => e.cause?

end Error

end Scaffold
