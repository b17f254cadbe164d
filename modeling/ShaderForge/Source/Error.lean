import ShaderForge.Files.Error
import ShaderForge.Shader.Stage
import ShaderForge.Source.Location

/-!
# ShaderForge.Source.Error

Why a source cannot be read, merged or understood, and where.

* `IncludeFault`    — an include that cannot be followed.
* `StructureFault`  — a source whose shape is not allowed.
* `ParseError`      — a cause with its place.
-/

namespace ShaderForge

inductive IncludeFault where
  | tooDeep (target : Bytes) (limit : Nat)
  | cycle (chain : List Path)
  | unreadable (target : Bytes) (error : FileError)
  deriving DecidableEq, Repr

def IncludeFault.message : IncludeFault → Bytes
  | .tooDeep target limit =>
    "include error: include depth exceeded: " ++ target.quoted ++ " nested deeper than " ++
      Bytes.ofNat limit
  | .cycle chain => "include error: circular include: " ++ Bytes.join " -> " chain
  | .unreadable target error => "include error: file not found: " ++ target ++ ": " ++ error.message

inductive StructureFault where
  | unknownType (typeName name : Bytes)
  | nonUintResource (struct name typeName : Bytes)
  | unsupportedEntryPoint (name : Bytes)
  | duplicateStage (kind : StageKind) (first : Bytes)
  | duplicateStruct (name : Bytes) (firstLine : Nat)
  | duplicateDeclarations (first second : Bytes)
  | duplicateExport (name : Bytes)
  | malformedField (declaration : Bytes)
  | missingSemantic (struct name : Bytes)
  | missingLayout (name : Bytes)
  deriving DecidableEq, Repr

def StructureFault.detail : StructureFault → Bytes
  | .unknownType typeName name => "unknown field type: " ++ typeName ++ " " ++ name
  | .nonUintResource struct name typeName =>
    "resource declaration fields must be uint: " ++ struct ++ "." ++ name ++ " is " ++ typeName
  | .unsupportedEntryPoint name => "unsupported entry point: " ++ name
  | .duplicateStage kind first =>
    "stage declared twice: " ++ kind.label ++ " already declared by " ++ first
  | .duplicateStruct name firstLine =>
    "struct declared twice: " ++ name ++ " (first at line " ++ Bytes.ofNat firstLine ++ ")"
  | .duplicateDeclarations first second =>
    "struct declared twice: " ++ first ++ " and " ++ second ++ " both declare resources"
  | .duplicateExport name => "export declared twice: " ++ name
  | .malformedField declaration => "malformed struct field: " ++ declaration.quoted
  | .missingSemantic struct name => "vertex input without semantic: " ++ struct ++ "." ++ name
  | .missingLayout name => "export declared but layout struct missing: " ++ name

def StructureFault.message (f : StructureFault) : Bytes := "structural parse error: " ++ f.detail

inductive ParseCause where
  | unreadable (error : FileError)
  | badInclude (fault : IncludeFault)
  | badStructure (fault : StructureFault)
  deriving DecidableEq, Repr

def ParseCause.message : ParseCause → Bytes
  | .unreadable error => error.message
  | .badInclude fault => fault.message
  | .badStructure fault => fault.message

/-- A text with its place in front: file and line, the file alone when the line is not known, nothing
when the file is not known. -/
def locate (file : Path) (line : Int) (text : Bytes) : Bytes :=
  if file = [] then text
  else if 0 < line then file ++ ":" ++ Bytes.ofInt line ++ ": " ++ text
  else file ++ ": " ++ text

/-- A cause and its place. The file is empty when it is not known, the line zero. -/
structure ParseError where
  file : Path
  line : Nat
  cause : ParseCause
  deriving DecidableEq, Repr

def ParseError.message (e : ParseError) : Bytes := locate e.file e.line e.cause.message

end ShaderForge
