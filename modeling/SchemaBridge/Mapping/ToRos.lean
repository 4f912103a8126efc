import SchemaBridge.EnumGroup
import SchemaBridge.Loss
import SchemaBridge.Resolve

/-!
# From proto3 to ROS

`Schema.toRos` turns the messages of a file into ROS messages: nested messages become outermost ones
under their own names, enums become constants of the messages that refer to them, and scalars become
scalars that ROS has. It fails if two messages, or two declarations of one message, would share a
name.
-/

namespace SchemaBridge

/-! ## Fields -/

/-- The type of a field in a ROS message, what is lost with it, and the enum it came from. -/
structure RosType where
  type : TypeRef
  losses : List LossCause := []
  enum : Option (TypeName × EnumDef) := none

/-- The error for a message that would share its flattened name with another one. -/
def collisionError? (table : SymbolTable) (file : String) (name : TypeName) :
    Option ConversionError :=
  (table.collisions name).map fun candidates => .ambiguous name.name file candidates

/-- What is lost when an enum becomes constants of the scalar `used`. -/
def EnumDef.losses (e : EnumDef) (repr : EnumRepr) (used : Scalar) : List LossCause :=
  if repr = .uint8 ∧ used ≠ .uint8 then [.enumWidth e.name used, .enum e.name used]
  else [.enum e.name used]

/-- The type of a field of message `message` in a ROS message. -/
def Field.rosType (table : SymbolTable) (repr : EnumRepr) (file message : String) (f : Field) :
    Except ConversionError RosType :=
  match f.type with
  | .scalar s => .ok { type := .scalar s.toRos, losses := if s.keepsRos then [] else [.scalar s s.toRos] }
  | .message name =>
    match collisionError? table file name with
    | some error => .error error
    | none => .ok { type := .message name.flat }
  | .enum name =>
    match table.enumDef? name with
    | some e =>
      let used := e.scalar repr
      .ok { type := .scalar used, losses := e.losses repr used, enum := some (name, e) }
    | none => .error (.unresolved name.qualified file message f.name)
  | .wellKnown w =>
    .ok { type := .wellKnown w, losses := if w = .bytesValue then [.wellKnown w] else [] }
  | .named spelling => .error (.unresolved spelling file message f.name)

/-- What a ROS field cannot say, whatever its type. -/
def Field.rosLosses (f : Field) : List LossCause :=
  (f.default.map .default).toList ++ (if f.optional then [.presence] else []) ++ f.bounds.map .bound

/-- A field in a ROS message; the name of its enum is left as a comment. -/
def Field.withRosType (f : Field) (t : RosType) : Field :=
  { name := f.name
    type := t.type
    repeated := f.repeated
    comments := f.comments ++ (t.enum.map (·.2.name)).toList }

/-! ## Messages -/

/-- A ROS message, what is lost in it, and the enums that its fields refer to. -/
structure RosMessage where
  message : Message
  losses : List Loss
  enums : List (TypeName × EnumDef)

/-- The names that a ROS message declares, each with the declaration it comes from: the fields, the
constants, and the values of the enums. -/
def declarations (fields : List Field) (constants : List Constant)
    (enums : List (TypeName × EnumDef)) : List (String × String) :=
  (fields.map fun f => (f.name, "field `" ++ f.name ++ "`")) ++
    (constants.map fun c => (c.name, "constant `" ++ c.name ++ "`")) ++
    enums.flatMap fun (name, e) => e.values.map fun v => (v.name, "enum `" ++ name.qualified ++ "`")

/-- A message of a file as a ROS message, without its nested types. -/
def Message.toRos (table : SymbolTable) (repr : EnumRepr) (file : String) (m : Message) :
    Except ConversionError RosMessage := do
  let types ← m.fields.mapM (Field.rosType table repr file m.name)
  let typed := m.fields.zip types
  let enums := (types.filterMap (·.enum)).eraseDups
  match firstRepeated? (declarations m.fields m.constants enums) with
  | some (name, sources) => throw (.duplicate name file m.name sources)
  | none =>
    pure
      { message :=
          { name := m.name
            fields := typed.map fun (f, t) => f.withRosType t
            constants := m.constants ++ enums.flatMap fun (_, e) => e.toConstants (e.scalar repr)
            comments := m.comments }
        losses := typed.flatMap fun (f, t) => (t.losses ++ f.rosLosses).map (Loss.inField m f)
        enums }

/-! ## Files -/

def nestingLoss (name : TypeName) (m : Message) : List Loss :=
  (name.parent?.map fun parent => Loss.inMessage m (.nesting parent)).toList

/-- The first clash among the flattened names of a file's messages, and then between them and those
of the batch. -/
def flattenError? (table : SymbolTable) (file : String) (flat : List (TypeName × Message)) :
    Option ConversionError :=
  match firstRepeated? (flat.map fun (name, _) => (name.name, name.qualified)) with
  | some (name, candidates) => some (.ambiguous name file candidates)
  | none => flat.findSome? fun (name, _) => collisionError? table file name

def unusedEnumLosses (s : Schema) (used : List TypeName) : List Loss :=
  (s.namedEnums.filter fun (name, _) => name ∉ used).map fun (_, e) => ⟨e.name, none, .unusedEnum⟩

def Schema.toRos (table : SymbolTable) (repr : EnumRepr) (s : Schema) :
    Except ConversionError Conversion := do
  let resolved ← s.resolve table
  let flat := resolved.flatten
  match flattenError? table resolved.name flat with
  | some error => throw error
  | none =>
    let mapped ← flat.mapM fun (_, m) => m.toRos table repr resolved.name
    let losses := (flat.zip mapped).flatMap fun ((name, m), r) => nestingLoss name m ++ r.losses
    let used := mapped.flatMap fun r => r.enums.map (·.1)
    pure
      { schema :=
          { name := resolved.name
            dialect := .ros
            package := resolved.package
            messages := mapped.map (·.message) }
        losses := losses ++ unusedEnumLosses resolved used }

end SchemaBridge
