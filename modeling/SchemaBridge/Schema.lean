import SchemaBridge.Scalar
import SchemaBridge.TypeName
import SchemaBridge.WellKnown

/-!
# Schemas

The declarations of one interface file in the form both languages share: messages with their fields,
constants and nested types, and enums. `Message.flatten` lists a message and the messages nested in
it, each before those nested in it in turn.
-/

namespace SchemaBridge

/-- The language whose rules a schema follows. -/
inductive Dialect where
  | ros
  | proto3
deriving DecidableEq, Inhabited

/-- A length limit of a ROS field. -/
inductive Bound where
  /-- An array of exactly `n` elements. -/
  | fixedArray (n : Nat)
  /-- An array of at most `n` elements. -/
  | boundedArray (n : Nat)
  /-- A string of at most `n` characters. -/
  | boundedString (n : Nat)
deriving DecidableEq, Inhabited

def Bound.text : Bound → String
  | .fixedArray n => "[" ++ toString n ++ "]"
  | .boundedArray n => "[<=" ++ toString n ++ "]"
  | .boundedString n => "string<=" ++ toString n

inductive TypeRef where
  | scalar (s : Scalar)
  /-- A reference as it is spelled in the source, not yet resolved. -/
  | named (spelling : String)
  | message (name : TypeName)
  | enum (name : TypeName)
  | wellKnown (w : WellKnown)
deriving DecidableEq, Inhabited

/-- Whether a type is known, and not only spelled. -/
def TypeRef.isResolved : TypeRef → Bool
  | .named _ => false
  | _ => true

structure Field where
  name : String
  type : TypeRef
  repeated : Bool := false
  /-- Whether the field tells an absent value from the default one. -/
  optional : Bool := false
  ordinal : Option UInt32 := none
  default : Option String := none
  bounds : List Bound := []
  comments : List String := []
deriving DecidableEq, Inhabited

/-- A named value of a ROS message. -/
structure Constant where
  name : String
  type : Scalar
  /-- The literal as it is spelled in the source. -/
  value : String
  /-- The position of the first field declared after the constant. -/
  anchor : Option Nat := none
  comments : List String := []
deriving DecidableEq, Inhabited

structure EnumValue where
  name : String
  number : Int32
  comments : List String := []
deriving DecidableEq, Inhabited

structure EnumDef where
  name : String
  values : List EnumValue := []
  comments : List String := []
deriving DecidableEq, Inhabited

/-- A message; only proto3 messages have nested types, and only ROS messages have constants. -/
structure Message where
  name : String
  fields : List Field := []
  nested : List Message := []
  enums : List EnumDef := []
  constants : List Constant := []
  comments : List String := []
deriving Inhabited

structure Schema where
  name : String
  dialect : Dialect := .ros
  package : List String := []
  imports : List String := []
  messages : List Message := []
  enums : List EnumDef := []
deriving Inhabited

namespace Message

def field? (m : Message) (name : String) : Option Field := m.fields.find? (·.name = name)

mutual

/-- A message in a scope and all messages nested in it, with their full names, each message before
those nested in it. -/
def flatten (scope : TypeName) : Message → List (TypeName × Message)
  | m@⟨name, _, nested, _, _, _⟩ => (scope.child name, m) :: flattenAll (scope.child name) nested

/-- All messages declared in a scope and all messages nested in them. -/
def flattenAll (scope : TypeName) : List Message → List (TypeName × Message)
  | [] => []
  | m :: ms => flatten scope m ++ flattenAll scope ms

end

/-- The enums nested in a message, with their full names. -/
def namedEnums (name : TypeName) (m : Message) : List (TypeName × EnumDef) :=
  m.enums.map fun e => (name.child e.name, e)

end Message

namespace Schema

def message? (s : Schema) (name : String) : Option Message := s.messages.find? (·.name = name)

/-- All messages of a schema with their full names, each before those nested in it. -/
def flatten (s : Schema) : List (TypeName × Message) :=
  Message.flattenAll (.root s.package) s.messages

/-- All enums of a schema with their full names: the outermost ones, and then those nested in each
message. -/
def namedEnums (s : Schema) : List (TypeName × EnumDef) :=
  (s.enums.map fun e => ((TypeName.root s.package).child e.name, e)) ++
    s.flatten.flatMap fun (name, m) => m.namedEnums name

end Schema

end SchemaBridge
