import SchemaBridge.Mapping.ToProto
import SchemaBridge.ProtoText.Printer
import SchemaBridge.RosText.Parser

/-!
# Batches of ROS messages

`Batch.convert` converts `.msg` files to `.proto` files. The files that can be read form one symbol
table, so that they may refer to each other; a file that fails does not stop the others.
-/

namespace SchemaBridge.Batch

/-- A `.msg` file; message and package are named by the path. -/
structure Source where
  path : String
  text : String
deriving DecidableEq, Inhabited

/-- A `.proto` file and what was left out of it. -/
structure Output where
  path : String
  text : String
  losses : List Loss
deriving DecidableEq, Inhabited

/-- What became of a `.msg` file. -/
structure Result where
  /-- The path of the `.msg` file. -/
  source : String
  output : Except ConversionError Output

/-! ## Reading -/

/-- The segments of a package that is given for all files: dots and slashes separate them. -/
def givenPackage (package : String) : List String := piecesBetween (fun c => c = '.' || c = '/') package

/-- The schema of a source, in the given package if there is one. -/
def Source.schema (package : Option String) (source : Source) : Except ConversionError Schema :=
  match RosText.parse source.text source.path with
  | .ok s => .ok { s with package := (package.map givenPackage).getD s.package }
  | .error e => .error (.parse e)

def schemas (package : Option String) (sources : List Source) : List Schema :=
  sources.filterMap fun source => (source.schema package).toOption

/-! ## Writing -/

def output (table : SymbolTable) (s : Schema) : Except ConversionError Output := do
  let conversion ← s.toProto table
  pure ⟨conversion.schema.name, ProtoText.render conversion.schema, conversion.losses⟩

/-- The results for some sources, in their order. -/
def convert (sources : List Source) (package : Option String) : List Result :=
  let table := SymbolTable.ofFiles (schemas package sources)
  sources.map fun source => ⟨source.path, (source.schema package).bind (output table)⟩

/-- The outputs of the sources that were converted. -/
def outputs (results : List Result) : List Output :=
  results.filterMap fun r => r.output.toOption

def Result.error? (r : Result) : Option ConversionError :=
  match r.output with
  | .ok _ => none
  | .error e => some e

/-- The path and the error of every source that failed. -/
def failures (results : List Result) : List (String × ConversionError) :=
  results.filterMap fun r => r.error?.map fun e => (r.source, e)

end SchemaBridge.Batch
