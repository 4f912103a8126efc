import SchemaBridge.Descriptor.Format

/-!
# Responses

What a plugin answers: generated files, or an error.
-/

namespace SchemaBridge.Plugin

open Wire

structure ResponseFile where
  name : Option String := none
  insertionPoint : Option String := none
  content : Option String := none
deriving DecidableEq, Inhabited

namespace ResponseFile

def ofRecord (r : Record) : ResponseFile :=
  { name := r.text? 1, insertionPoint := r.text? 2, content := r.text? 15 }

def toRecord (f : ResponseFile) : Record :=
  Record.ofText 1 f.name ++ Record.ofText 2 f.insertionPoint ++ Record.ofText 15 f.content

end ResponseFile

structure Response where
  error : Option String := none
  supportedFeatures : Option UInt64 := none
  files : List ResponseFile := []
deriving DecidableEq, Inhabited

namespace Response

def ofRecord (r : Record) : Response :=
  { error := r.text? 1
    supportedFeatures := r.varint? 2
    files := (r.records 15).map ResponseFile.ofRecord }

def toRecord (r : Response) : Record :=
  Record.ofText 1 r.error ++ (r.supportedFeatures.map (Item.varint 2)).toList ++
    Record.ofRecords 15 (r.files.map ResponseFile.toRecord)

def encode (r : Response) : List UInt8 := Wire.encode r.toRecord

def decode? (bs : List UInt8) : Option Response :=
  (Descriptor.decodeRecord? .response bs).map ofRecord

end Response

end SchemaBridge.Plugin
