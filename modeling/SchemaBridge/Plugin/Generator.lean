import SchemaBridge.Plugin.Parameter
import SchemaBridge.Descriptor.Basic
import SchemaBridge.SymbolTable

/-!
# Generators

A generator turns the descriptor of a file into output files. It sees the types of all files of the
request and the options. What its errors are is up to the generator, as long as they can be worded.
-/

namespace SchemaBridge.Plugin

/-- An output file; the name is a path below the plugin's output directory. -/
structure OutputFile where
  name : String
  content : String
deriving DecidableEq, Inhabited

/-- What all files of a request share. -/
structure Context where
  symbols : SymbolTable
  options : Options

/-- The output files for a descriptor, or why there are none. -/
abbrev Generator (ε : Type := ConversionError) :=
  Context → FileDescriptor → Except ε (List OutputFile)

end SchemaBridge.Plugin
