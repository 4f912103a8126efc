import SchemaBridge.Descriptor.Codec
import SchemaBridge.Error

/-!
# Requests

What the compiler sends to a plugin: the names of the files to generate, the parameter, and the
descriptors of these files and of all files that they import.
-/

namespace SchemaBridge.Plugin

open Wire

structure Version where
  major : Option Int32 := none
  minor : Option Int32 := none
  patch : Option Int32 := none
  suffix : Option String := none
deriving DecidableEq, Inhabited

def Version.ofRecord (r : Record) : Version :=
  { major := r.int32? 1, minor := r.int32? 2, patch := r.int32? 3, suffix := r.text? 4 }

structure Request where
  filesToGenerate : List String := []
  parameter : Option String := none
  compilerVersion : Option Version := none
  files : List FileDescriptor := []
deriving Inhabited

namespace Request

def ofRecord (r : Record) : Request :=
  { filesToGenerate := r.texts 1
    parameter := r.text? 2
    compilerVersion := (r.record? 3).map Version.ofRecord
    files := (r.records 15).map FileDescriptor.ofRecord }

def decode (bs : List UInt8) : Except DecodeError Request :=
  if bs.isEmpty then .error .empty
  else
    match Descriptor.decodeRecord? .request bs with
    | some r => .ok (ofRecord r)
    | none => .error .malformed

/-- The descriptor of a file; of several with one name the last. -/
def file? (r : Request) (name : String) : Option FileDescriptor :=
  (r.files.filter fun f => f.name.getD "" = name).getLast?

/-- The descriptor of a file to generate. -/
def target (r : Request) (name : String) : Except DecodeError FileDescriptor :=
  match r.file? name with
  | some f => .ok f
  | none => .error (.missingFile name)

def targets (r : Request) : Except DecodeError (List FileDescriptor) :=
  r.filesToGenerate.mapM r.target

end Request

end SchemaBridge.Plugin
