import SchemaBridge.Descriptor.Codec
import SchemaBridge.Descriptor.Comments
import SchemaBridge.EnumGroup
import SchemaBridge.Schema
import SchemaBridge.Spelling

/-!
# Descriptors of schemas

`FileDescriptor.ofSchema` describes a schema as a proto3 file. Enums begin with a zero value, fields
without a number are numbered by their position, an optional field gets a oneof of its own, and
comments become locations.
-/

namespace SchemaBridge

/-! ## Fields and enums -/

def Scalar.descriptorType : Scalar → FieldTypeKind
  | bool => .bool
  | int32 => .int32
  | int64 => .int64
  | uint32 => .uint32
  | uint64 => .uint64
  | float32 => .float
  | float64 => .double
  | sint32 => .sint32
  | sint64 => .sint64
  | fixed32 => .fixed32
  | fixed64 => .fixed64
  | sfixed32 => .sfixed32
  | sfixed64 => .sfixed64
  | bytes => .bytes
  | _ => .string

def TypeRef.descriptorType : TypeRef → FieldTypeKind
  | .scalar s => s.toProto.descriptorType
  | .enum _ => .enum
  | _ => .message

/-- The spelling of a type in a descriptor; scalars have none. -/
def TypeRef.descriptorName? : TypeRef → Option String
  | .scalar _ => none
  | .message name => some ("." ++ name.qualified)
  | .enum name => some ("." ++ name.qualified)
  | .wellKnown w => some ("." ++ w.protoName)
  | .named spelling => some (dotted spelling)

/-- The descriptor of the field at position `index`, `oneofs` optional fields standing before it. -/
def Field.descriptor (f : Field) (index oneofs : Nat) : FieldDescriptor :=
  { name := some f.name
    number := some (f.ordinal.getD (UInt32.ofNat (index + 1))).toInt32
    label := some (if f.repeated then FieldLabel.repeated else FieldLabel.optional).number
    type := some f.type.descriptorType.number
    typeName := f.type.descriptorName?
    oneofIndex := if f.optional then some (Int32.ofNat oneofs) else none
    proto3Optional := if f.optional then some true else none }

def fieldDescriptors (fields : List Field) : List FieldDescriptor :=
  fields.mapIdx fun i f => f.descriptor i ((fields.take i).countP (·.optional))

def EnumValue.descriptor (v : EnumValue) : EnumValueDescriptor :=
  { name := some v.name, number := some v.number }

def EnumDef.descriptor (e : EnumDef) : EnumDescriptor :=
  { name := some e.name, values := e.zeroFirst.values.map EnumValue.descriptor }

/-- The locations of an enum at a path and of its values. -/
def EnumDef.locations (path : List Int32) (e : EnumDef) : List Location :=
  commentLocations path e.comments ++
    (e.zeroFirst.values.mapIdx fun i v =>
      commentLocations (childPath path .enumValue i) v.comments).flatten

/-- The locations of the enums at the paths `childPath path kind 0`, …. -/
def EnumDef.allLocations (path : List Int32) (kind : PathKind) (es : List EnumDef) : List Location :=
  (es.mapIdx fun i e => e.locations (childPath path kind i)).flatten

/-! ## Messages and files -/

namespace Message

mutual

def descriptor : Message → MessageDescriptor
  | ⟨name, fields, nested, enums, _, _⟩ =>
    { name := some name
      fields := fieldDescriptors fields
      nested := descriptors nested
      enums := enums.map EnumDef.descriptor
      oneofs := (fields.filter (·.optional)).map fun f => some ("_" ++ f.name) }

def descriptors : List Message → List MessageDescriptor
  | [] => []
  | m :: ms => descriptor m :: descriptors ms

end

def fieldLocations (path : List Int32) (fields : List Field) : List Location :=
  (fields.mapIdx fun i f => commentLocations (childPath path .messageField i) f.comments).flatten

mutual

/-- The locations of the message at a path and of all its parts. -/
def locations (path : List Int32) : Message → List Location
  | ⟨_, fields, nested, enums, _, comments⟩ =>
    commentLocations path comments ++ fieldLocations path fields ++
      allLocations path .messageNested 0 nested ++ EnumDef.allLocations path .messageEnum enums

/-- The locations of the messages at the paths `childPath path kind index`, …. -/
def allLocations (path : List Int32) (kind : PathKind) (index : Nat) : List Message → List Location
  | [] => []
  | m :: ms => locations (childPath path kind index) m ++ allLocations path kind (index + 1) ms

end

end Message

def Schema.locations (s : Schema) : List Location :=
  Message.allLocations [] .fileMessage 0 s.messages ++ EnumDef.allLocations [] .fileEnum s.enums

/-- A list, or nothing if it is empty. -/
def presentList? {α : Type} (l : List α) : Option (List α) := if l.isEmpty then none else some l

def FileDescriptor.ofSchema (s : Schema) : FileDescriptor :=
  let package := ".".intercalate s.package
  { name := some s.name
    package := if package.isEmpty then none else some package
    dependencies := s.imports
    messages := Message.descriptors s.messages
    enums := s.enums.map EnumDef.descriptor
    locations := presentList? s.locations
    language := some "proto3" }

def Schema.toDescriptor (s : Schema) : List UInt8 := (FileDescriptor.ofSchema s).encode

end SchemaBridge
