import ShaderForge.Artifact.Encode
import ShaderForge.Source.Error
import ShaderForge.Toolchain.Dxc

/-!
# ShaderForge.Pipeline.Error

How the way from source to artifact fails.

* `checkName`    — which names may become file names.
* `CompileCause` — what went wrong; `CompileCause.kind` sorts it by the classes that it belongs to.
* `CompileError` — the cause with the shader's name.
-/

namespace ShaderForge

inductive NameFault where
  | reserved (name : Bytes)
  | separator (name : Bytes)
  deriving DecidableEq, Repr

def NameFault.message : NameFault → Bytes
  | .reserved name => "invalid shader name: " ++ name.quoted
  | .separator name => "invalid shader name: " ++ name.quoted ++ " contains a path separator"

/-- A name must be a single path component, other than the two that stand for directories. -/
def checkName (name : Bytes) : Except NameFault Unit :=
  if name = [] || name = Path.dot || name = Path.dotDot then .error (.reserved name)
  else if Bytes.slash ∈ name || Bytes.backslash ∈ name then .error (.separator name)
  else .ok ()

structure FailureKind where
  code : UInt8
  deriving DecidableEq, Repr, Inhabited

namespace FailureKind

def io : FailureKind := ⟨0⟩
def parse : FailureKind := ⟨1⟩
def backend : FailureKind := ⟨2⟩
def tool : FailureKind := ⟨3⟩

def label (k : FailureKind) : Bytes :=
  if k = io then "io"
  else if k = parse then "parse"
  else if k = backend then "backend"
  else if k = tool then "tool"
  else "Kind(" ++ Bytes.ofNat k.code.toNat ++ ")"

end FailureKind

inductive ErrorClass where
  | inclusion
  | shape
  | backend
  | target
  | tool
  deriving DecidableEq, Repr

def ParseCause.classes : ParseCause → List ErrorClass
  | .unreadable _ => []
  | .badInclude _ => [.inclusion]
  | .badStructure _ => [.shape]

def TargetFault.classes : TargetFault → List ErrorClass
  | .unknownBackend _ | .noCompiler _ => [.backend]
  | .unsupportedStage _ => [.target]

inductive CompileCause where
  | name (fault : NameFault)
  | target (fault : TargetFault)
  | parse (error : ParseError)
  | workDirectory (error : FileError)
  | mergedSource (error : FileError)
  | cancelled
  | tool (error : ToolError)
  | bytecode (kind : StageKind) (error : FileError)
  | artifact (error : Artifact.EncodeError)
  | outputDirectory (error : FileError)
  | outputFile (error : FileError)
  | outputWrite (error : FileError)
  deriving DecidableEq, Repr

namespace CompileCause

def message : CompileCause → Bytes
  | .name fault => fault.message
  | .target fault => fault.message
  | .parse error => error.message
  | .workDirectory error => "creating work directory: " ++ error.message
  | .mergedSource error => "writing merged source: " ++ error.message
  | .cancelled => "context canceled"
  | .tool error => error.message
  | .bytecode kind error => "reading " ++ kind.label ++ " bytecode: " ++ error.message
  | .artifact error => error.message
  | .outputDirectory error => "creating output directory: " ++ error.message
  | .outputFile error => "creating output file: " ++ error.message
  | .outputWrite error => "writing output file: " ++ error.message

def classes : CompileCause → List ErrorClass
  | .parse error => error.cause.classes
  | .target fault => fault.classes
  | .tool _ => [.tool]
  | _ => []

def breaksOff : CompileCause → Bool
  | .tool error => error.cause = .unmapped
  | _ => false

/-- The sort of a cause: the first class that it belongs to decides. -/
def kind (c : CompileCause) : FailureKind :=
  if .inclusion ∈ c.classes then .io
  else if .shape ∈ c.classes then .parse
  else if .backend ∈ c.classes ∨ .target ∈ c.classes then .backend
  else if .tool ∈ c.classes then .tool
  else .io

end CompileCause

structure CompileError where
  shader : Bytes
  cause : CompileCause
  deriving DecidableEq, Repr

namespace CompileError

def kind (e : CompileError) : FailureKind := e.cause.kind

def message (e : CompileError) : Bytes :=
  "compiling shader " ++ e.shader.quoted ++ ": " ++ e.kind.label ++ " error: " ++ e.cause.message

end CompileError

end ShaderForge
