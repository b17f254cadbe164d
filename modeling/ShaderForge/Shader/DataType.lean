import ShaderForge.Text.Quoted

/-!
# ShaderForge.Shader.DataType

The scalar, vector and matrix types that annotated structs may use. A type is an octet; nine codes have
a keyword in sources, a tag in metadata and a size.

* `DataType.table`      — keyword, tag and size of each code.
* `DataType.ofKeyword?`, `DataType.ofTag?` — the inverse look-ups.
-/

namespace ShaderForge

structure DataType where
  code : UInt8
  deriving DecidableEq, Repr, Inhabited

namespace DataType

structure Info where
  keyword : Bytes
  tag : Bytes
  size : Nat
  deriving DecidableEq, Repr

/-- The known types in code order. A `bool` takes two octets in a layout. -/
def table : List Info :=
  [ ⟨"float", "FLOAT", 4⟩, ⟨"float2", "FLOAT2", 8⟩, ⟨"float3", "FLOAT3", 12⟩,
    ⟨"float4", "FLOAT4", 16⟩, ⟨"float2x2", "FLOAT2x2", 16⟩, ⟨"float3x3", "FLOAT3x3", 36⟩,
    ⟨"float4x4", "FLOAT4x4", 64⟩, ⟨"uint", "UINT", 4⟩, ⟨"bool", "BOOL", 2⟩ ]

def info? (t : DataType) : Option Info := table[t.code.toNat]?

def ofInfo? (p : Info → Bool) : Option DataType :=
  (table.findIdx? p).map fun i => ⟨UInt8.ofNat i⟩

def uint : DataType := ⟨7⟩

def ofKeyword? (keyword : Bytes) : Option DataType := ofInfo? (·.keyword = keyword)

def ofTag? (tag : Bytes) : Option DataType := ofInfo? (·.tag = tag)

def keyword (t : DataType) : Bytes := (t.info?.map Info.keyword).getD []

def size (t : DataType) : Nat := (t.info?.map Info.size).getD 0

def label (t : DataType) : Bytes :=
  (t.info?.map Info.tag).getD ("DataType(" ++ Bytes.ofNat t.code.toNat ++ ")")

inductive Fault where
  | unnamed (type : DataType)
  | unknownTag (tag : Bytes)
  deriving DecidableEq, Repr

def Fault.message : Fault → Bytes
  | .unnamed t => "unknown data type " ++ Bytes.ofNat t.code.toNat
  | .unknownTag tag => "unknown data type tag " ++ tag.quoted

def write (t : DataType) : Except Fault Bytes :=
  match t.info? with
  | some info => .ok info.tag
  | none => .error (.unnamed t)

def read (tag : Bytes) : Except Fault DataType :=
  match ofTag? tag with
  | some t => .ok t
  | none => .error (.unknownTag tag)

end DataType

end ShaderForge
