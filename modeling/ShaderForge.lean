import ShaderForge.Main
import ShaderForge.Toolchain.Shell
import ShaderForge.Proofs.Artifact.Container
import ShaderForge.Proofs.Text.Utf8
import ShaderForge.Proofs.Json.RoundTrip
import ShaderForge.Proofs.Shader.MetadataRoundTrip
import ShaderForge.Proofs.Artifact.RoundTrip
import ShaderForge.Proofs.Artifact.Correspondence
import ShaderForge.Proofs.Source.IncludeGraph
import ShaderForge.Proofs.Source.IncludeResolution
import ShaderForge.Proofs.Source.Directives
import ShaderForge.Proofs.Source.Substitution
import ShaderForge.Proofs.Source.Origins
import ShaderForge.Proofs.Files.Path
import ShaderForge.Proofs.Files.Walk
import ShaderForge.Proofs.Files.Quiet
import ShaderForge.Proofs.Files.WorkDirectory
import ShaderForge.Proofs.Source.Declarations
import ShaderForge.Proofs.Source.Consistency
import ShaderForge.Proofs.Source.Description
import ShaderForge.Proofs.Pipeline.Assembly
import ShaderForge.Proofs.Pipeline.Parsing
import ShaderForge.Proofs.Pipeline.Stages
import ShaderForge.Proofs.Pipeline.EndToEnd
import ShaderForge.Proofs.Text.Margins
import ShaderForge.Proofs.Source.Provenance
import ShaderForge.Proofs.Source.Tokens
import ShaderForge.Proofs.Source.FaultPlaces
import ShaderForge.Proofs.Build.Scheduling
import ShaderForge.Proofs.Files.Tree
import ShaderForge.Proofs.Files.Beside
import ShaderForge.Proofs.Pipeline.Cleanup
import ShaderForge.Proofs.Files.OutputPath
import ShaderForge.Proofs.Files.Directories
import ShaderForge.Proofs.Files.Replacement
import ShaderForge.Proofs.Pipeline.Atomic
import ShaderForge.Proofs.Build.Interleaving
import ShaderForge.Proofs.Artifact.Extension
import ShaderForge.Proofs.Artifact.Reencoding
import ShaderForge.Proofs.Pipeline.CacheHistory
import ShaderForge.Proofs.Files.Unpacking
import ShaderForge.Proofs.Pipeline.LoggedParsing
import ShaderForge.Proofs.Command.Extraction
import ShaderForge.Proofs.Command.Views
import ShaderForge.Proofs.Pipeline.ToolCalls
import ShaderForge.Proofs.Pipeline.FailureKinds
import ShaderForge.Proofs.Files.Listing
import ShaderForge.Proofs.Text.Case
import ShaderForge.Proofs.Build.Discovery
import ShaderForge.Proofs.Command.Listing
import ShaderForge.Proofs.Files.LinkFree
import ShaderForge.Proofs.Command.Confinement
import ShaderForge.Proofs.Files.Spelling
import ShaderForge.Proofs.Build.RootSpelling
import ShaderForge.Proofs.Pipeline.WriteCalls
import ShaderForge.Proofs.Build.Deposits
import ShaderForge.Proofs.Build.Paving
import ShaderForge.Proofs.Build.SharedOutput
import ShaderForge.Proofs.Build.Coexistence
import ShaderForge.Proofs.Source.StrictExports
import ShaderForge.Proofs.Command.Retention
import ShaderForge.Proofs.Pipeline.StageContract
import ShaderForge.Proofs.Pipeline.Remapping
import ShaderForge.Proofs.Source.Decoding
import ShaderForge.Proofs.Source.Seams
import ShaderForge.Proofs.Source.CommentErasure
import ShaderForge.Proofs.Source.InterStage
import ShaderForge.Proofs.Source.FieldGrammar
