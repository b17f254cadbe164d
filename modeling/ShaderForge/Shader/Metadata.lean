import ShaderForge.Dict
import ShaderForge.Shader.DataType
import ShaderForge.Shader.Stage
import ShaderForge.Text.Case

/-!
# ShaderForge.Shader.Metadata

What is known of a shader beside its bytecode: its stages, and the resources it exports to the host.

* `Stage`, `Export`, `Metadata`.
* `Stages.ordered`  — stages by buffer index, then kind; `Stages.renumbered` makes the indices those places.
* `Exports.ordered` — exports by binding, then name; an export without binding comes last.
* `normalizeName`   — the spelling of names of exports and of their elements.
-/

namespace ShaderForge

structure VertexInput where
  type : DataType
  semantic : Bytes
  deriving DecidableEq, Repr, Inhabited

/-- A pipeline stage. Inputs and their size belong to vertex stages. -/
structure Stage where
  entryPoint : Bytes := []
  buffer : Int := 0
  inputs : Option (List VertexInput) := none
  inputsSizePerVertex : Option Int := none
  deriving DecidableEq, Repr, Inhabited

structure ExportElement where
  name : Bytes
  type : DataType
  offset : Int
  deriving DecidableEq, Repr, Inhabited

abbrev ResourceType := Bytes

namespace ResourceType

def nonUniform : ResourceType := utf8 "non-uniform"
def uniform : ResourceType := utf8 "uniform"

end ResourceType

structure Export where
  binding : Option Int := none
  type : ResourceType := []
  elements : Option (List ExportElement) := none
  sizeInBytes : Option Int := none
  deriving DecidableEq, Repr, Inhabited

abbrev Stages := Dict StageKind Stage

/-- Exports by name. A name may stand there without a description. -/
abbrev Exports := Dict Bytes (Option Export)

namespace Stages

def before (a b : StageKind × Stage) : Bool :=
  a.2.buffer < b.2.buffer || (a.2.buffer = b.2.buffer && Key.below a.1 b.1)

def ordered (s : Stages) : List (StageKind × Stage) := sortBy before s.toList

def renumbered (s : Stages) : Stages :=
  s.ordered.zipIdx.foldl (fun t (e, i) => t.insert e.1 { e.2 with buffer := (i : Nat) }) s

end Stages

/-- The largest binding; an export without one sorts as if it had it. -/
def lastBinding : Int := 0x7FFFFFFFFFFFFFFF

def bindingOf (e : Option Export) : Int := (e.bind Export.binding).getD lastBinding

namespace Exports

def before (a b : Bytes × Option Export) : Bool :=
  bindingOf a.2 < bindingOf b.2 || (bindingOf a.2 = bindingOf b.2 && Key.below a.1 b.1)

def ordered (e : Exports) : List (Bytes × Option Export) := sortBy before e.toList

def names (e : Exports) : List Bytes := e.ordered.map (·.1)

end Exports

/-- All that is known of a shader beside its bytecode. Both tables may be absent. -/
structure Metadata where
  shaderName : Bytes := []
  stages : Option Stages := none
  exports : Option Exports := none
  deriving DecidableEq, Inhabited

namespace Metadata

def stageTable (md : Metadata) : Stages := md.stages.getD Dict.empty

def exportTable (md : Metadata) : Exports := md.exports.getD Dict.empty

def summary (md : Metadata) : Bytes :=
  md.shaderName ++ ": " ++ Bytes.ofNat md.stageTable.size ++ " stage(s), " ++
    Bytes.ofNat md.exportTable.size ++ " export(s)"

end Metadata

def normalizeName (name : Bytes) : Bytes := name.capitalize

end ShaderForge
