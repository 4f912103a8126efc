import SchemaBridge.Batch
import SchemaBridge.Plugin.RosMessages
import SchemaBridge.Plugin.Run
import SchemaBridge.Plugin.TypeListing

/-!
# The command line

* `schema-bridge plugin msg` and `schema-bridge plugin json` are compiler plugins: they read a request
  from standard input and write a response to standard output.
* `schema-bridge msg2proto [--package NAME] OUT FILE...` converts `.msg` files to `.proto` files in
  the directory `OUT`.
-/

namespace SchemaBridge

/-- The bytes of a stream up to its end. -/
partial def readAll (stream : IO.FS.Stream) (read : ByteArray) : IO ByteArray := do
  let chunk ← stream.read 65536
  if chunk.isEmpty then pure read else readAll stream (read ++ chunk)

def runPlugin (generator : Plugin.Generator) : IO UInt32 := do
  let input ←
    try
      let bytes ← readAll (← IO.getStdin) ByteArray.empty
      pure (Except.ok bytes.data.toList)
    catch e => pure (Except.error (toString e))
  let plugin := (Plugin.mk generator {}).mapError GenerateError.conversion
  let report := plugin.run .awaitingRequest { input }
  let stdout ← IO.getStdout
  for response in report.written do
    stdout.write ⟨response.toArray⟩
  stdout.flush
  match report.result with
  | .ok _ => pure 0
  | .error e =>
    IO.eprintln e.message
    pure 1

def directoryOf (path : String) : String :=
  "/".intercalate (path.splitOn "/").dropLast

/-- Writes a converted file below a directory. -/
def writeOutput (out : String) (output : Batch.Output) : IO Unit := do
  let path := out ++ "/" ++ output.path
  IO.FS.createDirAll (directoryOf path)
  IO.FS.writeFile path output.text

/-- Converts some `.msg` files and writes the results below a directory. -/
def runBatch (package : Option String) (out : String) (paths : List String) : IO UInt32 := do
  let sources ← paths.mapM fun (path : String) => do
    let text ← IO.FS.readFile path
    pure (Batch.Source.mk path text)
  let results := Batch.convert sources package
  for output in Batch.outputs results do
    writeOutput out output
  for (source, error) in Batch.failures results do
    IO.eprintln (source ++ ": " ++ error.message)
  pure (if (Batch.failures results).isEmpty then 0 else 1)

def usage : String :=
  "usage: schema-bridge plugin (msg | json)\n" ++
  "       schema-bridge msg2proto [--package NAME] OUT FILE..."

end SchemaBridge

open SchemaBridge in
def main (args : List String) : IO UInt32 :=
  match args with
  | ["plugin", "msg"] => runPlugin Plugin.rosMessages
  | ["plugin", "json"] => runPlugin Plugin.typeListing
  | "msg2proto" :: "--package" :: package :: out :: paths => runBatch (some package) out paths
  | "msg2proto" :: out :: paths => runBatch none out paths
  | _ => do
    IO.eprintln usage
    pure 2
