import SchemaBridge.EnumGroup
import SchemaBridge.Schema
import SchemaBridge.Spelling
import SchemaBridge.Text.Lines

/-!
# Writing a proto3 file

`render` writes a schema as the text of a `.proto` file: a header, the package, the imports, and then
the messages and enums, with what is nested in a message indented by two spaces. Every enum is written
with a zero value in front.
-/

namespace SchemaBridge.ProtoText

open Text

/-- The first line of every generated file. -/
def header : String := "// This file was generated. DO NOT EDIT!"

def indent (line : String) : String := "  " ++ line

def commentLines (comments : List String) : List String := comments.map (commentLine "//")

/-! ## Types -/

/-- The spelling of a name in a file of package `package`. -/
def nameText (package : List String) (name : TypeName) : String :=
  if name.package = package then name.dottedPath else name.qualified

/-- The spelling of a type in a file of package `package`. -/
def typeText (package : List String) : TypeRef → String
  | .scalar s => s.toProto.protoKeyword?.getD "string"
  | .wellKnown w => w.protoName
  | .message name => nameText package name
  | .enum name => nameText package name
  | .named spelling => dotted (withoutDots spelling)

/-! ## Fields and enums -/

def labelText (f : Field) : String :=
  if f.repeated then "repeated " else if f.optional then "optional " else ""

/-- The lines of the field at position `index` of a message. -/
def fieldLines (package : List String) (index : Nat) (f : Field) : List String :=
  let ordinal := f.ordinal.getD (UInt32.ofNat (index + 1))
  commentLines f.comments ++
    [labelText f ++ typeText package f.type ++ " " ++ f.name ++ " = " ++
      toString ordinal.toNat ++ ";"]

def valueLines (v : EnumValue) : List String :=
  commentLines v.comments ++ [v.name ++ " = " ++ toString v.number.toInt ++ ";"]

def enumLines (e : EnumDef) : List String :=
  commentLines e.comments ++ ["enum " ++ e.name ++ " \x7b"] ++
    (e.zeroFirst.values.flatMap valueLines).map indent ++ ["\x7d"]

/-! ## Messages and files -/

mutual

def messageLines (package : List String) : Message → List String
  | ⟨name, fields, nested, enums, _, comments⟩ =>
    let fieldLines := (fields.mapIdx (fieldLines package)).flatten
    let inner := fieldLines ++ enums.flatMap enumLines ++ messagesLines package nested
    commentLines comments ++ ["message " ++ name ++ " \x7b"] ++ inner.map indent ++ ["\x7d"]

def messagesLines (package : List String) : List Message → List String
  | [] => []
  | m :: ms => messageLines package m ++ messagesLines package ms

end

/-- The lines before the first declaration of a file. -/
def headLines (s : Schema) : List String :=
  [header, "", "syntax = \"proto3\";"] ++
    (if s.package.isEmpty then [] else ["", "package " ++ ".".intercalate s.package ++ ";"]) ++
    (if s.imports.isEmpty then [] else "" :: s.imports.map fun i => "import \"" ++ i ++ "\";")

def fileLines (s : Schema) : List String :=
  headLines s ++ (s.messages.flatMap fun m => "" :: messageLines s.package m) ++
    s.enums.flatMap fun e => "" :: enumLines e

def render (s : Schema) : String := unlines (fileLines s)

end SchemaBridge.ProtoText
