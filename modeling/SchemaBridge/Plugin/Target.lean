import SchemaBridge.Plugin.Generator
import SchemaBridge.Plugin.Response

/-!
# Files to generate

Every file to generate either gives output files or fails; a file that fails gives one output file
`<name>.error`, which tells why. The results of all files make up a response and an outcome.
-/

namespace SchemaBridge.Plugin

variable {ε : Type}

/-- A file to generate and what became of it. -/
structure TargetResult (ε : Type := ConversionError) where
  name : String
  result : Except ε (List OutputFile)

namespace TargetResult

/-- The files of a response that a target contributes. -/
def files [ToString ε] (t : TargetResult ε) : List OutputFile :=
  match t.result with
  | .ok files => files
  | .error e => [⟨t.name ++ ".error", toString e ++ "\n"⟩]

def error? (t : TargetResult ε) : Option ε :=
  match t.result with
  | .ok _ => none
  | .error e => some e

end TargetResult

def generateTargets (generator : Generator ε) (context : Context) (targets : List FileDescriptor) :
    List (TargetResult ε) :=
  targets.map fun f => ⟨f.name.getD "", generator context f⟩

def firstFailure? (results : List (TargetResult ε)) : Option (String × ε) :=
  results.findSome? fun t => t.error?.map fun e => (t.name, e)

/-- The files of a response by name, and the files to generate that failed. -/
structure Outcome where
  generated : List String := []
  failed : List String := []
deriving DecidableEq, Inhabited

def Outcome.ofResults [ToString ε] (results : List (TargetResult ε)) : Outcome :=
  { generated := (results.flatMap TargetResult.files).map (·.name)
    failed := (results.filter (·.error?.isSome)).map (·.name) }

/-- The feature that every response declares: fields may be optional. -/
def optionalFields : UInt64 := 1

def OutputFile.responseFile (f : OutputFile) : ResponseFile :=
  { name := some f.name, content := some f.content }

def Response.ofResults [ToString ε] (results : List (TargetResult ε)) : Response :=
  { supportedFeatures := some optionalFields
    files := (results.flatMap TargetResult.files).map OutputFile.responseFile }

/-- The response that is nothing but an error. -/
def Response.ofError (text : String) : Response :=
  { error := some text, supportedFeatures := some optionalFields }

end SchemaBridge.Plugin
