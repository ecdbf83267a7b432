import Scaffold.Json.Printer
import Scaffold.Schema.Model

/-!
# Models in JSON

The files and responses of a model as a JSON value, for readers outside this library. The members
have a fixed order.
-/

namespace Scaffold.Json

/-- The members that describe a type, apart from its name. -/
def typeMembers (t : TypeRef) : List (Text × Json) :=
  [("required".toList, boolean t.required), ("is_list".toList, boolean t.isList),
    ("is_list_required".toList, boolean t.isListRequired)]

def ofArgument (a : Argument) : Json :=
  object (("name".toList, string a.name) :: ("type_name".toList, string a.typeName) ::
    typeMembers a.toTypeRef)

def ofModule (m : ModuleRef) : Json :=
  object [("project".toList, string m.project), ("package".toList, string m.package)]

def ofAction (a : Action) : Json :=
  object [("name".toList, string a.name), ("args".toList, list (a.args.map ofArgument)),
    ("response_type_name".toList, string a.responseType), ("kind".toList, string a.kind.name),
    ("module".toList, ofModule a.owner)]

def ofFile (f : SchemaFile) : Json :=
  object [("kind".toList, string f.kind.name), ("module".toList, ofModule f.owner),
    ("path".toList, string f.path.text), ("module_dir".toList, string f.moduleDir),
    ("has_upload_field".toList, boolean f.hasUpload),
    ("actions".toList, list (f.actions.map ofAction))]

def ofResult (t : TypeRef) : Json :=
  object [("type_name".toList, string t.typeName), ("is_list".toList, boolean t.isList),
    ("is_list_required".toList, boolean t.isListRequired),
    ("required".toList, boolean t.required)]

def ofModel (m : Schema.Model) : Json :=
  object [("files".toList, list (m.files.map ofFile)),
    ("responses".toList, object (m.responses.rows.map fun (name, t) => (name, ofResult t)))]

end Scaffold.Json
