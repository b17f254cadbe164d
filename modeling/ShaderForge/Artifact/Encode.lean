import ShaderForge.Artifact.Format

/-!
# ShaderForge.Artifact.Encode

Building an artifact.

* `Artifact.assemble` — a header and any chunks.
* `Artifact.encode`   — metadata and the bytecode of its stages, in buffer order.
-/

namespace ShaderForge
namespace Artifact

inductive EncodeError where
  | missingMetadata
  | stages (fault : StageFault)
  | metadata (fault : MetadataWriteError)
  | chunkTooLarge (tag : ChunkTag) (size : Nat)
  | artifactTooLarge (size : Nat)
  deriving DecidableEq, Repr

def EncodeError.message : EncodeError → Bytes
  | .missingMetadata => "shader file has no metadata chunk"
  | .stages fault => fault.message
  | .metadata fault => "encoding metadata: " ++ fault.message
  | .chunkTooLarge tag size => "chunk " ++ tag.label ++ " too large: " ++ Bytes.ofNat size ++ " bytes"
  | .artifactTooLarge size => "artifact too large: " ++ Bytes.ofNat size ++ " bytes"

def chunkBytes (c : Chunk) : Bytes :=
  word c.tag.code ++ word (UInt32.ofNat c.payload.length) ++ c.payload

def frame (dialect : Dialect) (body : Bytes) : Bytes :=
  magic ++ word (UInt32.ofNat (headerSize + body.length)) ++ word dialect.code ++ body

/-- An artifact of the given chunks. Lengths must fit in a word. -/
def assemble (dialect : Dialect) (chunks : List Chunk) : Except EncodeError Bytes :=
  match chunks.find? fun c => sizeLimit ≤ c.payload.length with
  | some c => .error (.chunkTooLarge c.tag c.payload.length)
  | none =>
    let out := frame dialect (chunks.flatMap chunkBytes)
    if sizeLimit ≤ out.length then .error (.artifactTooLarge out.length) else .ok out

def encode (dialect : Dialect) (md : Option Metadata) (bytecode : List Bytes) :
    Except EncodeError Bytes := do
  match md with
  | none => .error .missingMetadata
  | some md =>
    match checkBuffers md.stageTable bytecode.length with
    | .error fault => .error (.stages fault)
    | .ok () =>
      match md.text with
      | .error fault => .error (.metadata fault)
      | .ok text => assemble dialect (⟨.json, text⟩ :: bytecode.map fun code => ⟨.binary, code⟩)

end Artifact
end ShaderForge
