import SchemaBridge.Json
import SchemaBridge.Plugin.Generator
import SchemaBridge.Spelling

/-!
# Listing types as JSON

One `.json` file for every file. It lists the outermost enums, and then each message, the enums nested
in it and the messages nested in it. A nested type has its enclosing message as the last part of its
package.
-/

namespace SchemaBridge.Plugin

/-- A listed type: an enum or a message in a package, which may be a message. -/
inductive ListedType where
  | enum (package : String) (e : EnumDescriptor)
  | message (package : String) (m : MessageDescriptor)

/-- The package of the types nested in a message. -/
def innerPackage (package name : String) : String :=
  if package.isEmpty then name else package ++ "." ++ name

mutual

/-- A message and all types nested in it. -/
def listMessage (package : String) : MessageDescriptor → List ListedType
  | m@⟨name, _, nested, enums, _, _, _, _⟩ =>
    let inner := innerPackage package (name.getD "")
    .message package m :: (enums.map (.enum inner) ++ listMessages inner nested)

def listMessages (package : String) : List MessageDescriptor → List ListedType
  | [] => []
  | m :: ms => listMessage package m ++ listMessages package ms

end

def listedTypes (file : FileDescriptor) : List ListedType :=
  let package := file.package.getD ""
  file.enums.map (.enum package) ++ listMessages package file.messages

namespace ListedType

def package : ListedType → String
  | .enum package _ | .message package _ => package

def name : ListedType → String
  | .enum _ e => e.name.getD ""
  | .message _ m => m.name.getD ""

end ListedType

def propertyJson (f : FieldDescriptor) : Json :=
  .object
    [("name", .text (f.name.getD "")),
     ("number", .number (f.number.getD 0).toInt),
     ("label", .text f.labelOrDefault.text),
     ("type", .text f.typeOrDefault.text),
     ("type_name", .text (withoutDots (f.typeName.getD "")))]

def valueJson (v : EnumValueDescriptor) : Json :=
  .object [("name", .text (v.name.getD "")), ("value", .number (v.number.getD 0).toInt)]

/-- The members of a JSON object that depend on what is listed. -/
def bodyJson : ListedType → List (String × Json)
  | .enum _ e => [("type", .text "Enum"), ("values", .array (e.values.map valueJson))]
  | .message _ m => [("type", .text "Message"), ("properties", .array (m.fields.map propertyJson))]

/-- The name of a package; the package without a name is the root. -/
def packageText (package : String) : String := if package.isEmpty then "<root>" else package

def listedJson (file : String) (t : ListedType) : Json :=
  .object <|
    [("package", .text (packageText t.package)),
     ("filename", .text file),
     ("name", .text t.name)] ++ bodyJson t

def typeListing : Generator := fun _ file =>
  let name := file.name.getD ""
  .ok [⟨name ++ ".json", (Json.array ((listedTypes file).map (listedJson name))).render⟩]

end SchemaBridge.Plugin
