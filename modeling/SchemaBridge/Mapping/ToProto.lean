import SchemaBridge.Loss
import SchemaBridge.Naming
import SchemaBridge.Resolve

/-!
# From ROS to proto3

`Schema.toProto` turns the messages of a file into proto3 messages: fields are numbered from one in
the order of declaration, scalars become scalars that proto3 has, and constants and bounds become
comments. The imports are computed from the types of the fields.
-/

namespace SchemaBridge

/-! ## Fields -/

def TypeRef.toProto : TypeRef → TypeRef
  | .scalar s => .scalar s.toProto
  | t => t

/-- A field as field number `ordinal` of a proto3 message; its bounds are left as comments. -/
def Field.toProto (ordinal : UInt32) (f : Field) : Field :=
  { f with
    type := f.type.toProto
    ordinal := some ordinal
    default := none
    bounds := []
    comments := f.comments ++ f.bounds.map Bound.text }

def Field.protoLosses (f : Field) : List LossCause :=
  (match f.type with
    | .scalar s => if s.keepsProto then [] else [.scalar s s.toProto]
    | _ => []) ++
    f.bounds.map .bound ++ (f.default.map .default).toList

/-- The file that a field's type is imported from. -/
def Field.protoImport? (package : List String) (outermost : List String) (f : Field) :
    Option String :=
  match f.type with
  | .message name =>
    if name.package = package ∧ name.name ∈ outermost then none
    else some (protoFileName name.package name.name)
  | .wellKnown w => some w.protoImport
  | _ => none

/-! ## Constants -/

def Constant.commentLines (c : Constant) : List String := c.comments ++ [c.name ++ " = " ++ c.value]

/-- The lines of the constants that stand just before field number `index`, counted from zero. -/
def linesBefore (constants : List Constant) (index : Nat) : List String :=
  (constants.filter (·.anchor = some index)).flatMap Constant.commentLines

/-- The lines of the constants that stand before none of the first `count` fields. -/
def linesAfter (constants : List Constant) (count : Nat) : List String :=
  (constants.filter fun c => ¬ c.anchor.any (· < count)).flatMap Constant.commentLines

/-! ## Messages and files -/

def Message.toProto (m : Message) : Message :=
  { name := m.name
    fields := m.fields.mapIdx fun i f =>
      let mapped := f.toProto (UInt32.ofNat (i + 1))
      { mapped with comments := linesBefore m.constants i ++ mapped.comments }
    enums := m.enums
    comments := m.comments ++ linesAfter m.constants m.fields.length }

def Message.protoLosses (m : Message) : List Loss :=
  (m.fields.flatMap fun f => f.protoLosses.map (Loss.inField m f)) ++
    m.constants.map fun c => Loss.inMessage m (.constant c)

/-- The files that a schema's types are imported from, sorted. -/
def Schema.protoImports (s : Schema) : List String :=
  sortedDistinct <| s.messages.flatMap fun m =>
    m.fields.filterMap (Field.protoImport? s.package (s.messages.map (·.name)))

/-- The file that a schema is written to: it is named after the first message. -/
def Schema.protoName (s : Schema) : String :=
  match s.messages with
  | [] => s.name
  | m :: _ => protoFileName s.package m.name

def Schema.toProto (table : SymbolTable) (s : Schema) : Except ConversionError Conversion := do
  let resolved ← s.resolve table
  pure
    { schema :=
        { name := resolved.protoName
          dialect := .proto3
          package := resolved.package
          imports := resolved.protoImports
          messages := resolved.messages.map Message.toProto
          enums := resolved.enums }
      losses := resolved.messages.flatMap Message.protoLosses }

end SchemaBridge
