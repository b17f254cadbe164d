import ShaderForge.Artifact.Format

/-!
# ShaderForge.Artifact.Decode

Reading an artifact. Nothing of the input is trusted: the header, the length of each chunk, the metadata
and the match between stages and binary chunks are all checked.

* `Artifact.chunksFrom` — cuts a body into chunks, up to the first that is broken off.
* `Artifact.decode`     — the whole artifact.
-/

namespace ShaderForge
namespace Artifact

inductive Truncation where
  | chunkHeader (offset : Nat)
  | chunkPayload (index : Nat) (tag : ChunkTag) (needed left : Nat)
  deriving DecidableEq, Repr

inductive DecodeError where
  | shortHeader (size : Nat)
  | badMagic
  | sizeMismatch (stated actual : Nat)
  | truncated (at_ : Truncation)
  | metadata (fault : MetadataReadError)
  | missingMetadata
  | stages (fault : StageFault)
  deriving DecidableEq, Repr

def Truncation.message : Truncation → Bytes
  | .chunkHeader offset => "truncated shader file: chunk header at offset " ++ Bytes.ofNat offset
  | .chunkPayload index tag needed left =>
    "truncated shader file: chunk " ++ Bytes.ofNat index ++ " (" ++ tag.label ++ ") needs " ++
      Bytes.ofNat needed ++ " bytes, " ++ Bytes.ofNat left ++ " left"

def DecodeError.message : DecodeError → Bytes
  | .shortHeader size => "truncated shader file: " ++ Bytes.ofNat size ++ " bytes"
  | .badMagic => "invalid shader file magic: expected 'SHADER.1'"
  | .sizeMismatch stated actual =>
    "shader file size does not match header: header says " ++ Bytes.ofNat stated ++ ", have " ++
      Bytes.ofNat actual
  | .truncated t => t.message
  | .metadata fault => "decoding metadata: " ++ fault.message
  | .missingMetadata => "shader file has no metadata chunk"
  | .stages fault => fault.message

structure File where
  size : UInt32
  dialect : Dialect
  metadata : Metadata
  bytecode : List Bytes
  chunks : List Chunk
  deriving DecidableEq

/-- The chunks of a body that starts at `offset`, the first of them numbered `index`, up to the first
that is broken off. -/
def chunksFrom (offset index : Nat) (s : Bytes) : List Chunk × Option Truncation :=
  match s with
  | [] => ([], none)
  | a :: b :: c :: d :: e :: f :: g :: h :: rest =>
    let tag : ChunkTag := ⟨ofOctets a b c d⟩
    let needed := (ofOctets e f g h).toNat
    if rest.length < needed then ([], some (.chunkPayload index tag needed rest.length))
    else
      let (chunks, stop) :=
        chunksFrom (offset + chunkHeaderSize + needed) (index + 1) (rest.drop needed)
      (⟨tag, rest.take needed⟩ :: chunks, stop)
  | _ => ([], some (.chunkHeader offset))
termination_by s.length
decreasing_by
  simp only [List.length_drop, List.length_cons]
  omega

def binaries (chunks : List Chunk) : List Bytes :=
  (chunks.filter (·.tag = .binary)).map Chunk.payload

def metadataText? (chunks : List Chunk) : Option Bytes :=
  (chunks.find? (·.tag = .json)).map Chunk.payload

def metadataOf (chunks : List Chunk) (stop : Option Truncation) : Except DecodeError Metadata :=
  match (metadataText? chunks).map Metadata.ofText, stop with
  | some (.error fault), _ => .error (.metadata fault)
  | _, some t => .error (.truncated t)
  | some (.ok md), none => .ok md
  | none, none => .error .missingMetadata

def decode (data : Bytes) : Except DecodeError File :=
  if data.length < headerSize then .error (.shortHeader data.length)
  else match Bytes.after? magic data with
    | none => .error .badMagic
    | some s =>
      match word? s with
      | none => .error (.shortHeader data.length)
      | some (size, s) =>
        match word? s with
        | none => .error (.shortHeader data.length)
        | some (flags, body) =>
          if size.toNat ≠ data.length then .error (.sizeMismatch size.toNat data.length)
          else
            let (chunks, stop) := chunksFrom headerSize 0 body
            match metadataOf chunks stop with
            | .error e => .error e
            | .ok md =>
              let bytecode := binaries chunks
              match checkBuffers md.stageTable bytecode.length with
              | .error fault => .error (.stages fault)
              | .ok () => .ok ⟨size, ⟨flags⟩, md, bytecode, chunks⟩

def File.stageBytecode? (f : File) (kind : StageKind) : Option Bytes := do
  let st ← f.metadata.stageTable.get? kind
  if st.buffer < 0 then none else f.bytecode[st.buffer.toNat]?

end Artifact
end ShaderForge
