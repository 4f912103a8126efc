/-!
# Well-known types

The twelve types of package `google.protobuf` with a fixed counterpart among the standard ROS
messages. `ofProtoName?` and `ofRosName?` look them up by name; `BytesValue` shares its counterpart
with `StringValue` and is never found from the ROS side.
-/

namespace SchemaBridge

/-- A message type with a fixed counterpart in the other language. -/
inductive WellKnown where
  | timestamp | duration | empty
  | doubleValue | floatValue | int64Value | uint64Value | int32Value | uint32Value
  | boolValue | stringValue | bytesValue
deriving DecidableEq, Inhabited

namespace WellKnown

def all : List WellKnown :=
  [timestamp, duration, empty, doubleValue, floatValue, int64Value, uint64Value, int32Value,
   uint32Value, boolValue, stringValue, bytesValue]

/-- The qualified proto name, without a leading dot. -/
def protoName : WellKnown → String
  | timestamp => "google.protobuf.Timestamp"
  | duration => "google.protobuf.Duration"
  | empty => "google.protobuf.Empty"
  | doubleValue => "google.protobuf.DoubleValue"
  | floatValue => "google.protobuf.FloatValue"
  | int64Value => "google.protobuf.Int64Value"
  | uint64Value => "google.protobuf.UInt64Value"
  | int32Value => "google.protobuf.Int32Value"
  | uint32Value => "google.protobuf.UInt32Value"
  | boolValue => "google.protobuf.BoolValue"
  | stringValue => "google.protobuf.StringValue"
  | bytesValue => "google.protobuf.BytesValue"

/-- The file that a proto3 file imports to use the type. -/
def protoImport : WellKnown → String
  | timestamp => "google/protobuf/timestamp.proto"
  | duration => "google/protobuf/duration.proto"
  | empty => "google/protobuf/empty.proto"
  | _ => "google/protobuf/wrappers.proto"

def rosName : WellKnown → String
  | timestamp => "builtin_interfaces/Time"
  | duration => "builtin_interfaces/Duration"
  | empty => "std_msgs/Empty"
  | doubleValue => "std_msgs/Float64"
  | floatValue => "std_msgs/Float32"
  | int64Value => "std_msgs/Int64"
  | uint64Value => "std_msgs/UInt64"
  | int32Value => "std_msgs/Int32"
  | uint32Value => "std_msgs/UInt32"
  | boolValue => "std_msgs/Bool"
  | stringValue | bytesValue => "std_msgs/String"

/-- The type with the given proto name; one leading dot is allowed. -/
def ofProtoName? (name : String) : Option WellKnown :=
  all.find? fun w => w.protoName = name ∨ "." ++ w.protoName = name

/-- The type whose counterpart has the given ROS name. -/
def ofRosName? (name : String) : Option WellKnown :=
  all.find? fun w => w ≠ bytesValue ∧ w.rosName = name

end WellKnown

end SchemaBridge
