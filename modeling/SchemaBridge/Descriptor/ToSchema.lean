import SchemaBridge.Descriptor.Codec
import SchemaBridge.Descriptor.Comments
import SchemaBridge.Error
import SchemaBridge.Schema
import SchemaBridge.Spelling

/-!
# Schemas of descriptors

`FileDescriptor.toSchema` turns a descriptor into a schema and fails at the first construct that a
schema cannot hold: another language than proto3, services, extensions, oneofs, and all options but
`map_entry` and `packed`. `FileDescriptor.skeleton` keeps nothing but names and never fails. References
are left as they are spelled.
-/

namespace SchemaBridge

open Wire (Record)

/-! ## Constructs that a schema cannot hold -/

/-- The option that a record of options sets besides those of the tags `allowed`. -/
def unsupportedOption? (allowed : List Nat) (otherName : String) (options : Option Record) :
    Option Construct :=
  match options with
  | none => none
  | some r =>
    if Record.hasOther allowed r then
      some (.option (if (Record.varint? 3 r).isSome then "deprecated" else otherName))
    else none

def setsOptions (options : Option Record) : Bool := options.any fun r => !r.isEmpty

/-- The construct of a field that a schema cannot hold. -/
def FieldDescriptor.unsupported? (f : FieldDescriptor) : Option Construct :=
  if f.oneofIndex.isSome ∧ f.proto3Optional ≠ some true then some .oneof
  else if f.extendee.isSome then some .extension
  else unsupportedOption? [2] "field option" f.options

def EnumDescriptor.unsupported? (e : EnumDescriptor) : Option Construct :=
  if setsOptions e.options || e.values.any (setsOptions ·.options) then some (.option "enum option")
  else none

/-- The construct of a message, apart from its fields and nested types, that a schema cannot hold. -/
def MessageDescriptor.unsupported? (m : MessageDescriptor) : Option Construct :=
  if ¬ m.extensions.isEmpty ∨ m.extensionRanges ≠ 0 then some .extension
  else unsupportedOption? [7] "message option" m.options

/-- The construct of a file, apart from its types, that a schema cannot hold. -/
def FileDescriptor.unsupported? (f : FileDescriptor) : Option Construct :=
  let language := f.language.getD ""
  if language = "" then some (.fileSyntax "proto2")
  else if language ≠ "proto3" then some (.fileSyntax language)
  else if ¬ f.services.isEmpty then some .service
  else if ¬ f.extensions.isEmpty then some .extension
  else none

def refuse (file : String) (place : Place) : Option Construct → Except ConversionError Unit
  | some construct => .error (.unsupported construct file place)
  | none => .ok ()

/-! ## Fields and enums -/

/-- The type of a field that has the given type and spelling. -/
def FieldTypeKind.typeRef (spelling : String) : FieldTypeKind → TypeRef
  | double => .scalar .float64
  | float => .scalar .float32
  | int64 => .scalar .int64
  | uint64 => .scalar .uint64
  | int32 => .scalar .int32
  | fixed64 => .scalar .fixed64
  | fixed32 => .scalar .fixed32
  | bool => .scalar .bool
  | string => .scalar .string
  | bytes => .scalar .bytes
  | uint32 => .scalar .uint32
  | sfixed32 => .scalar .sfixed32
  | sfixed64 => .scalar .sfixed64
  | sint32 => .scalar .sint32
  | sint64 => .scalar .sint64
  | group | message | enum => .named spelling

def FieldDescriptor.field (f : FieldDescriptor) (comments : List String) : Field :=
  { name := f.name.getD ""
    type := f.typeOrDefault.typeRef (f.typeName.getD "")
    repeated := f.labelOrDefault = .repeated
    optional := f.proto3Optional = some true
    ordinal := f.number.map Int32.toUInt32
    default := f.defaultValue
    comments }

/-- The field that a descriptor describes, if a schema can hold it. -/
def FieldDescriptor.toField (file message : String) (comments : List String) (f : FieldDescriptor) :
    Except ConversionError Field := do
  refuse file (.field message (f.name.getD "")) f.unsupported?
  pure (f.field comments)

def EnumValueDescriptor.value (v : EnumValueDescriptor) (comments : List String) : EnumValue :=
  ⟨v.name.getD "", v.number.getD 0, comments⟩

/-- The enum at a path that a descriptor describes, if a schema can hold it. -/
def EnumDescriptor.toEnum (file : String) (locations : List Location) (path : List Int32)
    (e : EnumDescriptor) : Except ConversionError EnumDef := do
  refuse file (.message (e.name.getD "")) e.unsupported?
  pure
    { name := e.name.getD ""
      values := e.values.mapIdx fun i v => v.value (commentsAt locations (childPath path .enumValue i))
      comments := commentsAt locations path }

/-- The enums at the paths `childPath path kind 0`, … that descriptors describe. -/
def EnumDescriptor.toEnums (file : String) (locations : List Location) (path : List Int32)
    (kind : PathKind) (es : List EnumDescriptor) : Except ConversionError (List EnumDef) :=
  es.zipIdx.mapM fun (e, i) => e.toEnum file locations (childPath path kind i)

/-! ## Messages and files -/

namespace MessageDescriptor

mutual

/-- The message at a path that a descriptor describes, if a schema can hold it. -/
def toMessage (file : String) (locations : List Location) (path : List Int32) :
    MessageDescriptor → Except ConversionError Message
  | m@⟨name, fields, nested, enums, _, _, _, _⟩ => do
    let name := name.getD ""
    refuse file (.message name) m.unsupported?
    let fields ← fields.zipIdx.mapM fun (f, i) =>
      f.toField file name (commentsAt locations (childPath path .messageField i))
    let enums ← EnumDescriptor.toEnums file locations path .messageEnum enums
    let nested ← toMessages file locations path .messageNested 0 nested
    pure { name, fields, nested, enums, comments := commentsAt locations path }

/-- The messages at the paths `childPath path kind index`, … that descriptors describe. -/
def toMessages (file : String) (locations : List Location) (path : List Int32) (kind : PathKind)
    (index : Nat) : List MessageDescriptor → Except ConversionError (List Message)
  | [] => pure []
  | m :: ms => do
    let m ← toMessage file locations (childPath path kind index) m
    let ms ← toMessages file locations path kind (index + 1) ms
    pure (m :: ms)

end

end MessageDescriptor

/-- The schema that a descriptor describes, if a schema can hold it. -/
def FileDescriptor.toSchema (f : FileDescriptor) : Except ConversionError Schema := do
  let name := f.name.getD ""
  let locations := f.locations.getD []
  refuse name .file f.unsupported?
  let enums ← EnumDescriptor.toEnums name locations [] .fileEnum f.enums
  let messages ← MessageDescriptor.toMessages name locations [] .fileMessage 0 f.messages
  pure
    { name
      dialect := .proto3
      package := packageSegments (f.package.getD "")
      imports := f.dependencies
      messages
      enums }

/-- Why bytes give no schema: they cannot be decoded, or what they describe is no schema. -/
inductive DescriptorError where
  | decode (error : DecodeError)
  | convert (error : ConversionError)
deriving DecidableEq, Inhabited

/-- The schema that the bytes of a descriptor describe. -/
def Schema.ofDescriptor (bs : List UInt8) : Except DescriptorError Schema :=
  if bs.isEmpty then .error (.decode .empty)
  else
    match FileDescriptor.decode? bs with
    | none => .error (.decode .malformed)
    | some f => f.toSchema.mapError .convert

/-! ## Names only -/

/-- The enum that a descriptor describes, without comments and options. -/
def EnumDescriptor.skeleton (e : EnumDescriptor) : EnumDef :=
  { name := e.name.getD "", values := e.values.map fun v => v.value [] }

namespace MessageDescriptor

mutual

/-- The message that a descriptor describes, without its fields. -/
def skeleton : MessageDescriptor → Message
  | ⟨name, _, nested, enums, _, _, _, _⟩ =>
    { name := name.getD "", nested := skeletons nested, enums := enums.map EnumDescriptor.skeleton }

def skeletons : List MessageDescriptor → List Message
  | [] => []
  | m :: ms => skeleton m :: skeletons ms

end

end MessageDescriptor

/-- The schema that a descriptor describes, with nothing but the names of its types. -/
def FileDescriptor.skeleton (f : FileDescriptor) : Schema :=
  { name := f.name.getD ""
    dialect := .proto3
    package := packageSegments (f.package.getD "")
    imports := f.dependencies
    messages := MessageDescriptor.skeletons f.messages
    enums := f.enums.map EnumDescriptor.skeleton }

end SchemaBridge
