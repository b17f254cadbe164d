import ShaderForge.Shader.MetadataJson

/-!
# ShaderForge.Artifact.Format

The layout of a compiled shader artifact. All numbers are 32-bit little-endian words.

    offset  size  field
    0       8     magic "SHADER.1"
    8       4     size of the whole artifact in octets
    12      4     dialect of the bytecode
    16      ...   chunks: tag, length, payload

The first JSON chunk holds the metadata; the binary chunks hold the bytecode of the stages in buffer
order. Chunks of other tags are carried along.

* `Dialect`, `ChunkTag`, `Chunk`.
* `word`, `word?`     — words in octets.
* `Stages.checkBuffers` — stages and binary chunks must correspond one to one.
-/

namespace ShaderForge

structure Dialect where
  code : UInt32
  deriving DecidableEq, Repr, Inhabited

namespace Dialect

def dxil : Dialect := ⟨0⟩
def spirv : Dialect := ⟨1⟩

def label (d : Dialect) : Bytes :=
  if d = dxil then "DXIL"
  else if d = spirv then "SPIRV"
  else "Flags(" ++ Bytes.ofNat d.code.toNat ++ ")"

end Dialect

structure ChunkTag where
  code : UInt32
  deriving DecidableEq, Repr, Inhabited

namespace ChunkTag

def json : ChunkTag := ⟨0⟩
def binary : ChunkTag := ⟨1⟩

def label (t : ChunkTag) : Bytes :=
  if t = json then "JSON"
  else if t = binary then "BINARY"
  else "ChunkType(" ++ Bytes.ofNat t.code.toNat ++ ")"

end ChunkTag

structure Chunk where
  tag : ChunkTag
  payload : Bytes
  deriving DecidableEq, Repr, Inhabited

namespace Artifact

def magic : Bytes := "SHADER.1"

def headerSize : Nat := 16
def chunkHeaderSize : Nat := 8

/-- One more than the largest length a word can hold. -/
def sizeLimit : Nat := 0x100000000

/-- The octets of a word, the lowest first. -/
def word (w : UInt32) : Bytes :=
  [w.toUInt8, (w >>> 8).toUInt8, (w >>> 16).toUInt8, (w >>> 24).toUInt8]

def ofOctets (a b c d : UInt8) : UInt32 :=
  a.toUInt32 ||| (b.toUInt32 <<< 8) ||| (c.toUInt32 <<< 16) ||| (d.toUInt32 <<< 24)

def word? : Bytes → Option (UInt32 × Bytes)
  | a :: b :: c :: d :: rest => some (ofOctets a b c d, rest)
  | _ => none

inductive StageFault where
  | count (stages chunks : Nat)
  | misplaced (kind : StageKind) (found : Int) (expected : Nat)
  deriving DecidableEq, Repr

def StageFault.message : StageFault → Bytes
  | .count stages chunks =>
    "stage buffer indices do not match binary chunks: " ++ Bytes.ofNat stages ++ " stage(s), " ++
      Bytes.ofNat chunks ++ " binary chunk(s)"
  | .misplaced kind found expected =>
    "stage buffer indices do not match binary chunks: stage " ++ kind.label ++ " has buffer " ++
      Bytes.ofInt found ++ ", expected " ++ Bytes.ofNat expected

/-- The first stage whose buffer is not its place in the list, counted from `place`. -/
def misplaced? (place : Nat) : List (StageKind × Stage) → Option StageFault
  | [] => none
  | (kind, st) :: rest =>
    if st.buffer = place then misplaced? (place + 1) rest else some (.misplaced kind st.buffer place)

/-- The buffers of the stages are exactly 0, 1, … up to the number of binary chunks. -/
def checkBuffers (stages : Stages) (chunks : Nat) : Except StageFault Unit :=
  if stages.size ≠ chunks then .error (.count stages.size chunks)
  else match misplaced? 0 stages.ordered with
    | some fault => .error fault
    | none => .ok ()

end Artifact

end ShaderForge
