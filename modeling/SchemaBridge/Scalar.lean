/-!
# Scalar types

The scalar types of both languages. Eight are shared, seven exist in ROS messages only, and seven in
proto3 only; each language has a keyword for fifteen of them (`rosKeyword?`, `protoKeyword?`). A
scalar that the other language lacks crosses over to a shared one (`toRos`, `toProto`), and the
crossing is lossless exactly when it changes nothing (`keepsRos`, `keepsProto`).

* `ofRosKeyword?_eq_some_iff`, `ofProtoKeyword?_eq_some_iff`: looking up a keyword finds the scalar that
  has it, and no other.
-/

namespace SchemaBridge

inductive Scalar where
  | bool | int32 | int64 | uint32 | uint64 | float32 | float64 | string
  | byte | char | int8 | int16 | uint8 | uint16 | wstring
  | sint32 | sint64 | fixed32 | fixed64 | sfixed32 | sfixed64 | bytes
deriving DecidableEq, Inhabited

namespace Scalar

/-! ## Keywords -/

/-- The scalars that a ROS message can name. -/
def rosScalars : List Scalar :=
  [bool, int32, int64, uint32, uint64, float32, float64, string,
   byte, char, int8, int16, uint8, uint16, wstring]

/-- The scalars that a proto3 file can name. -/
def protoScalars : List Scalar :=
  [bool, int32, int64, uint32, uint64, float32, float64, string,
   sint32, sint64, fixed32, fixed64, sfixed32, sfixed64, bytes]

def rosKeyword? : Scalar → Option String
  | bool => some "bool"
  | int32 => some "int32"
  | int64 => some "int64"
  | uint32 => some "uint32"
  | uint64 => some "uint64"
  | float32 => some "float32"
  | float64 => some "float64"
  | string => some "string"
  | byte => some "byte"
  | char => some "char"
  | int8 => some "int8"
  | int16 => some "int16"
  | uint8 => some "uint8"
  | uint16 => some "uint16"
  | wstring => some "wstring"
  | _ => none

def protoKeyword? : Scalar → Option String
  | bool => some "bool"
  | int32 => some "int32"
  | int64 => some "int64"
  | uint32 => some "uint32"
  | uint64 => some "uint64"
  | float32 => some "float"
  | float64 => some "double"
  | string => some "string"
  | sint32 => some "sint32"
  | sint64 => some "sint64"
  | fixed32 => some "fixed32"
  | fixed64 => some "fixed64"
  | sfixed32 => some "sfixed32"
  | sfixed64 => some "sfixed64"
  | bytes => some "bytes"
  | _ => none

def ofRosKeyword? (word : String) : Option Scalar :=
  rosScalars.find? fun s => s.rosKeyword? = some word

def ofProtoKeyword? (word : String) : Option Scalar :=
  protoScalars.find? fun s => s.protoKeyword? = some word

theorem ofRosKeyword?_eq_some_iff {word : String} {s : Scalar} :
    ofRosKeyword? word = some s ↔ s.rosKeyword? = some word := by
  constructor
  · intro h
    simpa using List.find?_some h
  · intro h
    cases s <;> simp only [rosKeyword?, Option.some.injEq, reduceCtorEq] at h <;> subst h <;> decide

theorem ofProtoKeyword?_eq_some_iff {word : String} {s : Scalar} :
    ofProtoKeyword? word = some s ↔ s.protoKeyword? = some word := by
  constructor
  · intro h
    simpa using List.find?_some h
  · intro h
    cases s <;> simp only [protoKeyword?, Option.some.injEq, reduceCtorEq] at h <;> subst h <;> decide

/-- The name of a scalar in generated text: its ROS keyword, or its proto3 keyword if it has none. -/
def keyword (s : Scalar) : String := (s.rosKeyword? <|> s.protoKeyword?).getD "?"

/-! ## Crossing over -/

/-- The scalar that stands for `s` in a ROS message. -/
def toRos : Scalar → Scalar
  | sint32 | sfixed32 => int32
  | sint64 | sfixed64 => int64
  | fixed32 => uint32
  | fixed64 => uint64
  | bytes => string
  | s => s

/-- The scalar that stands for `s` in a proto3 file. -/
def toProto : Scalar → Scalar
  | int8 | int16 => int32
  | uint8 | uint16 | byte => uint32
  | char | wstring => string
  | s => s

def keepsRos (s : Scalar) : Bool := s.toRos = s

def keepsProto (s : Scalar) : Bool := s.toProto = s

/-! ## Classes -/

/-- A scalar whose constants can become enum values. -/
def isInteger : Scalar → Bool
  | bool | float32 | float64 | string | wstring | bytes => false
  | _ => true

/-- A scalar whose ROS spelling may carry a length bound. -/
def isText : Scalar → Bool
  | string | wstring => true
  | _ => false

end Scalar

end SchemaBridge
