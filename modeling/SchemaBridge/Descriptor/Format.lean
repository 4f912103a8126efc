import SchemaBridge.Wire.Record

/-!
# Records of descriptors and plugin messages

The kinds of records that a compiler plugin exchanges, and the fields that each kind is known to have.
-/

namespace SchemaBridge.Descriptor

open Wire

inductive RecordKind where
  | request | version | response | responseFile | generatedInfo
  | file | message | extensionRange | range | field | oneof | enum | enumValue | service | method
  | fileOptions | messageOptions | fieldOptions | enumOptions | enumValueOptions
  | serviceOptions | methodOptions | plainOptions
  | uninterpretedOption | namePart | sourceInfo | location
deriving DecidableEq, Inhabited

/-- The tag under which all option records keep options that were not interpreted. -/
def uninterpretedTag : Nat := 999

/-- The field of an option record that keeps options that were not interpreted. -/
def uninterpreted? (tag : Nat) : Option (FieldKind RecordKind) :=
  if tag = uninterpretedTag then some (.record .uninterpretedOption) else none

def fileOption? (tag : Nat) : Option (FieldKind RecordKind) :=
  if tag ∈ [1, 8, 11, 36, 37, 39, 40, 41, 44, 45] then some .text
  else if tag ∈ [9, 10, 16, 17, 18, 20, 23, 27, 31, 42] then some .varint
  else uninterpreted? tag

/-- The field of an option record whose own fields are all numbers. -/
def numberOption? (numbers : List Nat) (tag : Nat) : Option (FieldKind RecordKind) :=
  if tag ∈ numbers then some .varint else uninterpreted? tag

/-- The fields that a kind of record is known to have. -/
def fieldKind? : RecordKind → Nat → Option (FieldKind RecordKind)
  | .request, tag =>
    match tag with
    | 1 | 2 => some .text
    | 3 => some (.record .version)
    | 15 => some (.record .file)
    | _ => none
  | .version, tag =>
    match tag with
    | 1 | 2 | 3 => some .varint
    | 4 => some .text
    | _ => none
  | .response, tag =>
    match tag with
    | 1 => some .text
    | 2 => some .varint
    | 15 => some (.record .responseFile)
    | _ => none
  | .responseFile, tag =>
    match tag with
    | 1 | 2 | 15 => some .text
    | 16 => some (.record .generatedInfo)
    | _ => none
  | .generatedInfo, _ => none
  | .file, tag =>
    match tag with
    | 1 | 2 | 3 | 12 => some .text
    | 4 => some (.record .message)
    | 5 => some (.record .enum)
    | 6 => some (.record .service)
    | 7 => some (.record .field)
    | 8 => some (.record .fileOptions)
    | 9 => some (.record .sourceInfo)
    | 10 | 11 => some .varints
    | _ => none
  | .message, tag =>
    match tag with
    | 1 | 10 => some .text
    | 2 | 6 => some (.record .field)
    | 3 => some (.record .message)
    | 4 => some (.record .enum)
    | 5 => some (.record .extensionRange)
    | 7 => some (.record .messageOptions)
    | 8 => some (.record .oneof)
    | 9 => some (.record .range)
    | _ => none
  | .extensionRange, tag =>
    match tag with
    | 1 | 2 => some .varint
    | 3 => some (.record .plainOptions)
    | _ => none
  | .range, tag =>
    match tag with
    | 1 | 2 => some .varint
    | _ => none
  | .field, tag =>
    match tag with
    | 1 | 2 | 6 | 7 | 10 => some .text
    | 3 | 4 | 5 | 9 | 17 => some .varint
    | 8 => some (.record .fieldOptions)
    | _ => none
  | .oneof, tag =>
    match tag with
    | 1 => some .text
    | 2 => some (.record .plainOptions)
    | _ => none
  | .enum, tag =>
    match tag with
    | 1 | 5 => some .text
    | 2 => some (.record .enumValue)
    | 3 => some (.record .enumOptions)
    | 4 => some (.record .range)
    | _ => none
  | .enumValue, tag =>
    match tag with
    | 1 => some .text
    | 2 => some .varint
    | 3 => some (.record .enumValueOptions)
    | _ => none
  | .service, tag =>
    match tag with
    | 1 => some .text
    | 2 => some (.record .method)
    | 3 => some (.record .serviceOptions)
    | _ => none
  | .method, tag =>
    match tag with
    | 1 | 2 | 3 => some .text
    | 4 => some (.record .methodOptions)
    | 5 | 6 => some .varint
    | _ => none
  | .fileOptions, tag => fileOption? tag
  | .messageOptions, tag => numberOption? [1, 2, 3, 7] tag
  | .fieldOptions, tag => numberOption? [1, 2, 3, 5, 6, 10] tag
  | .enumOptions, tag => numberOption? [2, 3] tag
  | .enumValueOptions, tag => numberOption? [1] tag
  | .serviceOptions, tag => numberOption? [33] tag
  | .methodOptions, tag => numberOption? [33, 34] tag
  | .plainOptions, tag => uninterpreted? tag
  | .uninterpretedOption, tag =>
    match tag with
    | 2 => some (.record .namePart)
    | 3 | 8 => some .text
    | 4 | 5 => some .varint
    | 6 => some .fixed64
    | 7 => some .blob
    | _ => none
  | .namePart, tag =>
    match tag with
    | 1 => some .text
    | 2 => some .varint
    | _ => none
  | .sourceInfo, tag =>
    match tag with
    | 1 => some (.record .location)
    | _ => none
  | .location, tag =>
    match tag with
    | 1 | 2 => some .varints
    | 3 | 4 | 6 => some .text
    | _ => none

/-- How deep records may be nested. -/
def nestingBudget : Nat := 100

/-- The record of a kind that some bytes are. -/
def decodeRecord? (kind : RecordKind) (bs : List UInt8) : Option Record :=
  decode? fieldKind? nestingBudget kind bs

end SchemaBridge.Descriptor
