import SchemaBridge.Descriptor.Basic
import SchemaBridge.Descriptor.Format

/-!
# Descriptors as records

Each descriptor has a record with its values under their tags (`toRecord`), and can be read off a
record (`ofRecord`). Fields that are known on the wire but mean nothing here, such as reserved ranges,
are read over.
-/

namespace SchemaBridge

open Wire

namespace FieldDescriptor

def ofRecord (r : Record) : FieldDescriptor :=
  { name := r.text? 1
    extendee := r.text? 2
    number := r.int32? 3
    label := r.int32? 4
    type := r.int32? 5
    typeName := r.text? 6
    defaultValue := r.text? 7
    options := r.record? 8
    oneofIndex := r.int32? 9
    jsonName := r.text? 10
    proto3Optional := r.bool? 17 }

def toRecord (f : FieldDescriptor) : Record :=
  Record.ofText 1 f.name ++ Record.ofText 2 f.extendee ++ Record.ofInt32 3 f.number ++
    Record.ofInt32 4 f.label ++ Record.ofInt32 5 f.type ++ Record.ofText 6 f.typeName ++
    Record.ofText 7 f.defaultValue ++ Record.ofRecord 8 f.options ++
    Record.ofInt32 9 f.oneofIndex ++ Record.ofText 10 f.jsonName ++
    Record.ofBool 17 f.proto3Optional

end FieldDescriptor

namespace EnumValueDescriptor

def ofRecord (r : Record) : EnumValueDescriptor :=
  { name := r.text? 1, number := r.int32? 2, options := r.record? 3 }

def toRecord (v : EnumValueDescriptor) : Record :=
  Record.ofText 1 v.name ++ Record.ofInt32 2 v.number ++ Record.ofRecord 3 v.options

end EnumValueDescriptor

namespace EnumDescriptor

def ofRecord (r : Record) : EnumDescriptor :=
  { name := r.text? 1
    values := (r.records 2).map EnumValueDescriptor.ofRecord
    options := r.record? 3 }

def toRecord (e : EnumDescriptor) : Record :=
  Record.ofText 1 e.name ++ Record.ofRecords 2 (e.values.map EnumValueDescriptor.toRecord) ++
    Record.ofRecord 3 e.options

end EnumDescriptor

namespace MessageDescriptor

/-- The message that a record describes, but for the messages nested in it. -/
def ofRecordWith (nested : List MessageDescriptor) (r : Record) : MessageDescriptor :=
  { name := r.text? 1
    fields := (r.records 2).map FieldDescriptor.ofRecord
    nested
    enums := (r.records 4).map EnumDescriptor.ofRecord
    extensionRanges := (r.records 5).length
    extensions := (r.records 6).map FieldDescriptor.ofRecord
    options := r.record? 7
    oneofs := (r.records 8).map (Record.text? 1) }

mutual

/-- The nested message that a field of a message's record describes. -/
def ofItem : Item → List MessageDescriptor
  | .record tag items => if tag = 3 then [ofRecordWith (ofItems items) items] else []
  | _ => []

def ofItems : List Item → List MessageDescriptor
  | [] => []
  | item :: items => ofItem item ++ ofItems items

end

def ofRecord (r : Record) : MessageDescriptor := ofRecordWith (ofItems r) r

mutual

def toRecord : MessageDescriptor → Record
  | ⟨name, fields, nested, enums, extensionRanges, extensions, options, oneofs⟩ =>
    Record.ofText 1 name ++ Record.ofRecords 2 (fields.map FieldDescriptor.toRecord) ++
      Record.ofRecords 3 (toRecords nested) ++
      Record.ofRecords 4 (enums.map EnumDescriptor.toRecord) ++
      Record.ofRecords 5 (List.replicate extensionRanges []) ++
      Record.ofRecords 6 (extensions.map FieldDescriptor.toRecord) ++
      Record.ofRecord 7 options ++ Record.ofRecords 8 (oneofs.map (Record.ofText 1))

def toRecords : List MessageDescriptor → List Record
  | [] => []
  | m :: ms => toRecord m :: toRecords ms

end

end MessageDescriptor

namespace Location

def ofRecord (r : Record) : Location :=
  { path := (r.varints 1).map toInt32
    span := (r.varints 2).map toInt32
    leading := r.text? 3
    trailing := r.text? 4
    detached := r.texts 6 }

def toRecord (l : Location) : Record :=
  Record.ofInt32s 1 l.path ++ Record.ofInt32s 2 l.span ++ Record.ofText 3 l.leading ++
    Record.ofText 4 l.trailing ++ Record.ofTexts 6 l.detached

end Location

namespace FileDescriptor

def ofRecord (r : Record) : FileDescriptor :=
  { name := r.text? 1
    package := r.text? 2
    dependencies := r.texts 3
    messages := (r.records 4).map MessageDescriptor.ofRecord
    enums := (r.records 5).map EnumDescriptor.ofRecord
    services := (r.records 6).map (Record.text? 1)
    extensions := (r.records 7).map FieldDescriptor.ofRecord
    locations := (r.record? 9).map fun info => (Record.records 1 info).map Location.ofRecord
    language := r.text? 12 }

def toRecord (f : FileDescriptor) : Record :=
  Record.ofText 1 f.name ++ Record.ofText 2 f.package ++ Record.ofTexts 3 f.dependencies ++
    Record.ofRecords 4 (f.messages.map MessageDescriptor.toRecord) ++
    Record.ofRecords 5 (f.enums.map EnumDescriptor.toRecord) ++
    Record.ofRecords 6 (f.services.map (Record.ofText 1)) ++
    Record.ofRecords 7 (f.extensions.map FieldDescriptor.toRecord) ++
    Record.ofRecord 9 (f.locations.map fun ls => Record.ofRecords 1 (ls.map Location.toRecord)) ++
    Record.ofText 12 f.language

def encode (f : FileDescriptor) : List UInt8 := Wire.encode f.toRecord

def decode? (bs : List UInt8) : Option FileDescriptor :=
  (Descriptor.decodeRecord? .file bs).map ofRecord

end FileDescriptor

end SchemaBridge
