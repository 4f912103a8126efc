import SchemaBridge.Wire.Record

/-!
# Descriptors

The declarations of a proto3 file as the compiler hands them on: every value may be absent, and numbers
that stand for labels and types may be ones that are not defined. Option records are kept as they are.
-/

namespace SchemaBridge

open Wire (Record)

/-- A field of a message, or an extension. -/
structure FieldDescriptor where
  name : Option String := none
  extendee : Option String := none
  number : Option Int32 := none
  label : Option Int32 := none
  type : Option Int32 := none
  typeName : Option String := none
  defaultValue : Option String := none
  options : Option Record := none
  oneofIndex : Option Int32 := none
  jsonName : Option String := none
  proto3Optional : Option Bool := none
deriving Inhabited

structure EnumValueDescriptor where
  name : Option String := none
  number : Option Int32 := none
  options : Option Record := none
deriving Inhabited

structure EnumDescriptor where
  name : Option String := none
  values : List EnumValueDescriptor := []
  options : Option Record := none
deriving Inhabited

/-- A message with the types nested in it. -/
structure MessageDescriptor where
  name : Option String := none
  fields : List FieldDescriptor := []
  nested : List MessageDescriptor := []
  enums : List EnumDescriptor := []
  /-- The number of tag ranges that are open to extensions. -/
  extensionRanges : Nat := 0
  extensions : List FieldDescriptor := []
  options : Option Record := none
  oneofs : List (Option String) := []
deriving Inhabited

/-- A declaration's path, its place in the source, and the comments around it. -/
structure Location where
  path : List Int32 := []
  span : List Int32 := []
  leading : Option String := none
  trailing : Option String := none
  detached : List String := []
deriving DecidableEq, Inhabited

structure FileDescriptor where
  name : Option String := none
  package : Option String := none
  dependencies : List String := []
  messages : List MessageDescriptor := []
  enums : List EnumDescriptor := []
  services : List (Option String) := []
  extensions : List FieldDescriptor := []
  locations : Option (List Location) := none
  /-- The language that the file is written in. -/
  language : Option String := none
deriving Inhabited

/-! ## Labels and types -/

/-- Whether a field takes one value or many. -/
inductive FieldLabel where
  | optional | required | repeated
deriving DecidableEq, Inhabited

namespace FieldLabel

def ofNumber? (n : Int32) : Option FieldLabel :=
  match n.toInt with
  | 1 => some optional
  | 2 => some required
  | 3 => some repeated
  | _ => none

def number : FieldLabel → Int32
  | optional => 1
  | required => 2
  | repeated => 3

def text : FieldLabel → String
  | optional => "LABEL_OPTIONAL"
  | required => "LABEL_REQUIRED"
  | repeated => "LABEL_REPEATED"

end FieldLabel

inductive FieldTypeKind where
  | double | float | int64 | uint64 | int32 | fixed64 | fixed32 | bool | string
  | group | message | bytes | uint32 | enum | sfixed32 | sfixed64 | sint32 | sint64
deriving DecidableEq, Inhabited

namespace FieldTypeKind

/-- All types in the order of their numbers, which begin at one. -/
def all : List FieldTypeKind :=
  [double, float, int64, uint64, int32, fixed64, fixed32, bool, string,
   group, message, bytes, uint32, enum, sfixed32, sfixed64, sint32, sint64]

def number : FieldTypeKind → Int32
  | double => 1
  | float => 2
  | int64 => 3
  | uint64 => 4
  | int32 => 5
  | fixed64 => 6
  | fixed32 => 7
  | bool => 8
  | string => 9
  | group => 10
  | message => 11
  | bytes => 12
  | uint32 => 13
  | enum => 14
  | sfixed32 => 15
  | sfixed64 => 16
  | sint32 => 17
  | sint64 => 18

def ofNumber? (n : Int32) : Option FieldTypeKind := all.find? (·.number = n)

def text : FieldTypeKind → String
  | double => "TYPE_DOUBLE"
  | float => "TYPE_FLOAT"
  | int64 => "TYPE_INT64"
  | uint64 => "TYPE_UINT64"
  | int32 => "TYPE_INT32"
  | fixed64 => "TYPE_FIXED64"
  | fixed32 => "TYPE_FIXED32"
  | bool => "TYPE_BOOL"
  | string => "TYPE_STRING"
  | group => "TYPE_GROUP"
  | message => "TYPE_MESSAGE"
  | bytes => "TYPE_BYTES"
  | uint32 => "TYPE_UINT32"
  | enum => "TYPE_ENUM"
  | sfixed32 => "TYPE_SFIXED32"
  | sfixed64 => "TYPE_SFIXED64"
  | sint32 => "TYPE_SINT32"
  | sint64 => "TYPE_SINT64"

end FieldTypeKind

namespace FieldDescriptor

/-- The label of a field; a label that is absent or not defined counts as optional. -/
def labelOrDefault (f : FieldDescriptor) : FieldLabel :=
  (f.label.bind FieldLabel.ofNumber?).getD .optional

/-- The type of a field; a type that is absent or not defined counts as double. -/
def typeOrDefault (f : FieldDescriptor) : FieldTypeKind :=
  (f.type.bind FieldTypeKind.ofNumber?).getD .double

end FieldDescriptor

end SchemaBridge
