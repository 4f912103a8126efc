import SchemaBridge.Descriptor.ToSchema
import SchemaBridge.Mapping.ToRos
import SchemaBridge.Plugin.Generator
import SchemaBridge.RosText.Printer

/-!
# Generating ROS messages

One `.msg` file for every message of a file, nested messages included.
-/

namespace SchemaBridge.Plugin

/-- The `.msg` file of a message of a package. -/
def msgFile (package : List String) (m : Message) : OutputFile :=
  ⟨rosFileName package m.name, RosText.render package m⟩

def rosMessages : Generator := fun context file => do
  let schema ← file.toSchema
  let conversion ← schema.toRos context.symbols context.options.enumRepr
  pure (conversion.schema.messages.map (msgFile conversion.schema.package))

end SchemaBridge.Plugin
