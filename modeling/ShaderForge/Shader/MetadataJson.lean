import ShaderForge.Json.Reader
import ShaderForge.Json.Writer
import ShaderForge.Shader.Metadata

/-!
# ShaderForge.Shader.MetadataJson

Metadata as JSON.

Writing: members in a fixed order, tables sorted by name, absent and empty lists left out.

Reading: member names match up to case, unknown members are passed over, a later member overwrites an
earlier one, and `null` leaves a scalar as it is and takes a list or table away. The text must be
well-formed as a whole before anything is read from it, and the first misfit is the one reported.

* `Metadata.toJson`, `Metadata.text`  — writing.
* `Metadata.ofJson`, `Metadata.ofText` — reading.
-/

namespace ShaderForge

/-! ## Writing -/

inductive MetadataWriteError where
  | stageKind (fault : StageKind.Fault)
  | dataType (fault : DataType.Fault)
  deriving DecidableEq, Repr

def MetadataWriteError.message : MetadataWriteError → Bytes
  | .stageKind f => "json: error calling MarshalText for type *shader.StageKind: " ++ f.message
  | .dataType f => "json: error calling MarshalText for type *shader.DataType: " ++ f.message

namespace Json

def optionalInt (name : Bytes) : Option Int → List (Bytes × Json)
  | some i => [(name, ofInt i)]
  | none => []

def optionalList (name : Bytes) : List Json → List (Bytes × Json)
  | [] => []
  | items => [(name, .array items)]

def table (members : List (Bytes × Json)) : Json :=
  .object (sortBy (fun a b => Bytes.precedes a.1 b.1) members)

end Json

namespace DataType

def toJson (t : DataType) : Except MetadataWriteError Json :=
  match t.write with
  | .ok tag => .ok (.string tag)
  | .error f => .error (.dataType f)

end DataType

namespace VertexInput

def toJson (i : VertexInput) : Except MetadataWriteError Json := do
  let type ← i.type.toJson
  return .object [("type", type), ("semantic", .string i.semantic)]

end VertexInput

namespace Stage

def toJson (s : Stage) : Except MetadataWriteError Json := do
  let inputs ← (s.inputs.getD []).mapM VertexInput.toJson
  return .object
    ([(utf8 "entryPoint", Json.string s.entryPoint), (utf8 "buffer", Json.ofInt s.buffer)] ++
      Json.optionalList "inputs" inputs ++
      Json.optionalInt "inputsSizePerVertex" s.inputsSizePerVertex)

end Stage

namespace ExportElement

def toJson (e : ExportElement) : Except MetadataWriteError Json := do
  let type ← e.type.toJson
  return .object [("name", .string e.name), ("type", type), ("offset", Json.ofInt e.offset)]

end ExportElement

namespace Export

def toJson (e : Export) : Except MetadataWriteError Json := do
  let elements ← (e.elements.getD []).mapM ExportElement.toJson
  return .object
    (Json.optionalInt "binding" e.binding ++ [(utf8 "type", Json.string e.type)] ++
      Json.optionalList "elements" elements ++ Json.optionalInt "sizeInBytes" e.sizeInBytes)

end Export

namespace Stages

def memberName (k : StageKind) : Except MetadataWriteError Bytes :=
  match k.write with
  | .ok name => .ok name
  | .error f => .error (.stageKind f)

/-- All names are found before any stage is written, and stages are written in name order. -/
def toJson (s : Stages) : Except MetadataWriteError Json := do
  let named ← s.toList.mapM fun (k, st) => do return (← memberName k, st)
  let sorted := sortBy (fun a b => Bytes.precedes a.1 b.1) named
  return .object (← sorted.mapM fun (name, st) => do return (name, ← st.toJson))

end Stages

namespace Exports

def member (x : Bytes × Option Export) : Except MetadataWriteError (Bytes × Json) := do
  match x.2 with
  | some exported => return (x.1, ← exported.toJson)
  | none => return (x.1, .null)

/-- Exports are kept in name order, so no sorting is left to do. -/
def toJson (e : Exports) : Except MetadataWriteError Json := do
  return .object (← e.toList.mapM member)

end Exports

namespace Metadata

def toJson (md : Metadata) : Except MetadataWriteError Json := do
  let stages ← match md.stages with
    | some s => s.toJson
    | none => .ok .null
  let exports ← match md.exports with
    | some e => e.toJson
    | none => .ok .null
  return .object
    [("shaderName", .string md.shaderName), ("stages", stages), ("exports", exports)]

def text (md : Metadata) : Except MetadataWriteError Bytes := do
  return (← md.toJson).render

def indentedText (md : Metadata) : Except MetadataWriteError Bytes := do
  return (← md.toJson).renderIndented

end Metadata

/-! ## Reading -/

inductive MetadataReadError where
  | syntaxFault
  | typeFault
  | stageKind (fault : StageKind.Fault)
  | dataType (fault : DataType.Fault)
  | nullStage (kind : StageKind)
  deriving DecidableEq, Repr

def MetadataReadError.message : MetadataReadError → Bytes
  | .syntaxFault => "<json syntax>"
  | .typeFault => "<json type>"
  | .stageKind f => f.message
  | .dataType f => f.message
  | .nullStage k => "stage " ++ k.label ++ ": null entry"

namespace Json

abbrev Read (α : Type) := Except MetadataReadError α

def addresses (name field : Bytes) : Bool := Bytes.equalFold name field

def readInt (old : Int) : Json → Read Int
  | .null => .ok old
  | .number literal =>
    match intOfLiteral? literal with
    | some i => .ok i
    | none => .error .typeFault
  | _ => .error .typeFault

def readOptionalInt : Json → Read (Option Int)
  | .null => .ok none
  | v => (readInt 0 v).map some

def readString (old : Bytes) : Json → Read Bytes
  | .null => .ok old
  | .string s => .ok s
  | _ => .error .typeFault

def readDataType (old : DataType) : Json → Read DataType
  | .null => .ok old
  | .string tag =>
    match DataType.read tag with
    | .ok t => .ok t
    | .error f => .error (.dataType f)
  | _ => .error .typeFault

/-- A record: its members one after another change the record; `null` leaves it as it is. -/
def readRecord {α : Type} (field : α → Bytes → Json → Read α) (old : α) : Json → Read α
  | .null => .ok old
  | .object members => members.foldlM (fun a (name, v) => field a name v) old
  | _ => .error .typeFault

/-- A list field. `slots` holds what an earlier list of the same field left at each place: an item is
read over what stood in its place. -/
structure Slots (α : Type) where
  current : Option (List α) := none
  slots : List α := []

def readItems {α : Type} [Inhabited α] (item : α → Json → Read α) : List α → List Json → Read (List α)
  | _, [] => .ok []
  | slots, v :: vs => do
    let a ← item (slots.headD default) v
    return a :: (← readItems item slots.tail vs)

def readList {α : Type} [Inhabited α] (item : α → Json → Read α) (old : Slots α) :
    Json → Read (Slots α)
  | .null => .ok {}
  | .array [] => .ok { current := some [] }
  | .array items => do
    let read ← readItems item old.slots items
    return { current := some read, slots := read ++ old.slots.drop read.length }
  | _ => .error .typeFault

end Json

open Json (Read)

namespace VertexInput

def readField (i : VertexInput) (name : Bytes) (v : Json) : Read VertexInput :=
  if Json.addresses name "type" then do return { i with type := ← Json.readDataType i.type v }
  else if Json.addresses name "semantic" then
    do return { i with semantic := ← Json.readString i.semantic v }
  else .ok i

end VertexInput

namespace Stage

structure Draft where
  stage : Stage := {}
  inputs : Json.Slots VertexInput := {}

def Draft.done (d : Draft) : Stage := { d.stage with inputs := d.inputs.current }

def readField (d : Draft) (name : Bytes) (v : Json) : Read Draft :=
  if Json.addresses name "entryPoint" then
    do return { d with stage.entryPoint := ← Json.readString d.stage.entryPoint v }
  else if Json.addresses name "buffer" then
    do return { d with stage.buffer := ← Json.readInt d.stage.buffer v }
  else if Json.addresses name "inputs" then
    do return { d with
      inputs := ← Json.readList (Json.readRecord VertexInput.readField) d.inputs v }
  else if Json.addresses name "inputsSizePerVertex" then
    do return { d with stage.inputsSizePerVertex := ← Json.readOptionalInt v }
  else .ok d

def ofJson : Json → Read (Option Stage)
  | .null => .ok none
  | v => do return some (← Json.readRecord readField {} v).done

end Stage

namespace ExportElement

def readField (e : ExportElement) (name : Bytes) (v : Json) : Read ExportElement :=
  if Json.addresses name "name" then do return { e with name := ← Json.readString e.name v }
  else if Json.addresses name "type" then do return { e with type := ← Json.readDataType e.type v }
  else if Json.addresses name "offset" then do return { e with offset := ← Json.readInt e.offset v }
  else .ok e

end ExportElement

namespace Export

structure Draft where
  exported : Export := {}
  elements : Json.Slots ExportElement := {}

def Draft.done (d : Draft) : Export := { d.exported with elements := d.elements.current }

def readField (d : Draft) (name : Bytes) (v : Json) : Read Draft :=
  if Json.addresses name "binding" then
    do return { d with exported.binding := ← Json.readOptionalInt v }
  else if Json.addresses name "type" then
    do return { d with exported.type := ← Json.readString d.exported.type v }
  else if Json.addresses name "elements" then
    do return { d with
      elements := ← Json.readList (Json.readRecord ExportElement.readField) d.elements v }
  else if Json.addresses name "sizeInBytes" then
    do return { d with exported.sizeInBytes := ← Json.readOptionalInt v }
  else .ok d

def ofJson : Json → Read (Option Export)
  | .null => .ok none
  | v => do return some (← Json.readRecord readField {} v).done

end Export

namespace Stages

/-- The members of a stage table. A repeated kind starts afresh. -/
def readMembers (members : List (Bytes × Json)) : Read (Dict StageKind (Option Stage)) :=
  members.foldlM (fun d (name, v) => do
    let kind ← match StageKind.read name with
      | .ok k => Except.ok k
      | .error f => .error (.stageKind f)
    return d.insert kind (← Stage.ofJson v)) Dict.empty

def requireAll (d : Dict StageKind (Option Stage)) : Read Stages :=
  d.toList.foldlM (fun s (kind, st) =>
    match st with
    | some st => .ok (s.insert kind st)
    | none => .error (.nullStage kind)) Dict.empty

/-- A stage table replaces the one before it; `null` takes it away. -/
def ofJson : Json → Read (Option Stages)
  | .null => .ok none
  | .object members => do return some (← requireAll (← readMembers members))
  | _ => .error .typeFault

end Stages

namespace Exports

/-- An export table adds to the one before it; `null` takes it away. -/
def ofJson (old : Option Exports) : Json → Read (Option Exports)
  | .null => .ok none
  | .object members => do
    return some (← members.foldlM (fun d (name, v) => do
      return d.insert name (← Export.ofJson v)) (old.getD Dict.empty))
  | _ => .error .typeFault

end Exports

namespace Metadata

def readField (md : Metadata) (name : Bytes) (v : Json) : Read Metadata :=
  if Json.addresses name "shaderName" then
    do return { md with shaderName := ← Json.readString md.shaderName v }
  else if Json.addresses name "stages" then do return { md with stages := ← Stages.ofJson v }
  else if Json.addresses name "exports" then
    do return { md with exports := ← Exports.ofJson md.exports v }
  else .ok md

def ofJson (v : Json) : Read Metadata := Json.readRecord readField {} v

def ofText (s : Bytes) : Read Metadata :=
  match Json.read? s with
  | some v => ofJson v
  | none => .error .syntaxFault

end Metadata

end ShaderForge
