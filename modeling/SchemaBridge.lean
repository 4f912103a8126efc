import SchemaBridge.Main
import SchemaBridge.Proofs.BatchOutputs
import SchemaBridge.Proofs.BatchRoundTrip
import SchemaBridge.Proofs.FileOrder
import SchemaBridge.Proofs.FlatNames
import SchemaBridge.Proofs.Resolution
import SchemaBridge.Proofs.RosAcceptance
import SchemaBridge.Proofs.Flattening
import SchemaBridge.Proofs.MappingRoundTrip
import SchemaBridge.Proofs.OutputNames
import SchemaBridge.Proofs.RunReports
import SchemaBridge.Proofs.SupportedConstructs
import SchemaBridge.Proofs.TargetIsolation
import SchemaBridge.Proofs.Skeletons
import SchemaBridge.Proofs.GeneratedText
import SchemaBridge.Proofs.GeneratedReferences
import SchemaBridge.Proofs.GeneratedOutputs
import SchemaBridge.Proofs.EnumComments
import SchemaBridge.Proofs.LossLog
import SchemaBridge.Proofs.RenderedNames
import SchemaBridge.Proofs.DescriptorStructure
import SchemaBridge.Proofs.Documentation
import SchemaBridge.Proofs.SerializedOptions
import SchemaBridge.Proofs.EnumConstants
import SchemaBridge.Proofs.ProtoReferences
import SchemaBridge.Proofs.RosReferences
import SchemaBridge.Proofs.StrictRuns
import SchemaBridge.Proofs.ResolvedForms
import SchemaBridge.Proofs.IntegerLiterals
import SchemaBridge.Proofs.ListedTypes
import SchemaBridge.Proofs.Parameters
