import ShaderForge.Source.Comment
import ShaderForge.Source.Scan
import ShaderForge.Shader.Metadata

/-!
# ShaderForge.Source.Structure

What a merged source declares: the stages by their entry points, the exports by the resource declaration, the
vertex layout by the vertex-input struct, and the layout of an export by the struct of its name.

Stages come first, then each struct in order, then the resource declaration, then the layouts of the exports in
listing order; the first fault ends the work.

* `Scene`         — a merged source ready for scanning.
* `Scene.stages`, `Scene.survey`, `Scene.declaredExports`, `Scene.attachLayouts`.
* `Scene.read`    — all of it, with the notes made on the way.
* `parse`, `parseText` — from a file or a text.
-/

namespace ShaderForge

def resourcesStruct : Bytes := utf8 "ShaderResources"

def legacyResourcesStruct : Bytes := utf8 "ShaderData"

def vertexInputStruct : Bytes := utf8 "VSInput"

def isResourceDeclaration (name : Bytes) : Bool :=
  name = resourcesStruct || name = legacyResourcesStruct

/-- Structs between stages. They carry no layout that the host sees, so their bodies are not read. -/
def isInterStage (name : Bytes) : Bool := name = utf8 "VSOutput" || name = utf8 "PSOutput"

structure Scene where
  text : Bytes
  map : SourceMap
  deriving Repr

abbrev Parsed (α : Type) := Except ParseError α

namespace Scene

def ofMerged (m : Merged) : Scene := ⟨blankComments m.text, m.map⟩

def faultAt (sc : Scene) (offset : Nat) (fault : StructureFault) : ParseError :=
  match sc.map.lookup? (lineAt sc.text offset) with
  | some place => ⟨place.file, place.line, .badStructure fault⟩
  | none => ⟨[], 0, .badStructure fault⟩

def newStage (kind : StageKind) (entryPoint : Bytes) (buffer : Nat) : Stage :=
  { entryPoint, buffer, inputsSizePerVertex := if kind = .vertex then some 0 else none }

def addStage (sc : Scene) (stages : Stages) (f : Head) : Parsed Stages :=
  if isEntryPointName f.name then
    match StageKind.ofEntryPoint? f.name with
    | none => .error (sc.faultAt f.offset (.unsupportedEntryPoint f.name))
    | some kind =>
      match stages.get? kind with
      | some first => .error (sc.faultAt f.offset (.duplicateStage kind first.entryPoint))
      | none => .ok (stages.insert kind (newStage kind f.name stages.size))
  else .ok stages

def stages (sc : Scene) : Parsed Stages := (functions sc.text).foldlM sc.addStage Dict.empty

def fields (sc : Scene) (b : StructBlock) : Parsed (List Field) :=
  match b.fields with
  | .ok fs => .ok fs
  | .error e => .error (sc.faultAt e.offset (.malformedField e.declaration))

def fieldType (sc : Scene) (f : Field) : Parsed DataType :=
  match DataType.ofKeyword? f.typeName with
  | some t => .ok t
  | none => .error (sc.faultAt f.offset (.unknownType f.typeName f.name))

def vertexInput (sc : Scene) (b : StructBlock) (f : Field) : Parsed VertexInput := do
  let type ← sc.fieldType f
  match f.semantic with
  | some semantic => return ⟨type, semantic⟩
  | none => throw (sc.faultAt f.offset (.missingSemantic b.name f.name))

/-- The stages with the vertex inputs of a struct. Without a vertex stage the struct is not read. -/
def addVertexInputs (sc : Scene) (stages : Stages) (b : StructBlock) : Parsed Stages :=
  match stages.get? .vertex with
  | none => .ok stages
  | some stage => do
    let inputs ← (← sc.fields b).mapM (sc.vertexInput b)
    let size : Int := inputs.foldr (fun i n => i.type.size + n) 0
    return stages.insert .vertex
      { stage with inputs := some inputs, inputsSizePerVertex := some size }

/-- The elements of fields, the first at `offset` of the layout. -/
def elementsFrom (sc : Scene) (offset : Nat) : List Field → Parsed (List ExportElement)
  | [] => .ok []
  | f :: fs => do
    let type ← sc.fieldType f
    return ⟨normalizeName f.name, type, offset⟩ :: (← sc.elementsFrom (offset + type.size) fs)

def layout (sc : Scene) (b : StructBlock) : Parsed (List ExportElement) := do
  sc.elementsFrom 0 (← sc.fields b)

/-- What the structs of a source give: the stages with vertex inputs, and the resource declarations. -/
structure Survey where
  stages : Stages
  seen : List StructBlock := []
  declarations : List StructBlock := []

def surveyStruct (sc : Scene) (s : Survey) (b : StructBlock) : Parsed Survey :=
  match s.seen.find? (·.name = b.name) with
  | some first =>
    .error (sc.faultAt b.offset (.duplicateStruct b.name (lineAt sc.text first.offset)))
  | none =>
    let s := { s with seen := s.seen ++ [b] }
    if isResourceDeclaration b.name then .ok { s with declarations := s.declarations ++ [b] }
    else if b.name = vertexInputStruct then do
      return { s with stages := ← sc.addVertexInputs s.stages b }
    else if isInterStage b.name then .ok s
    else do
      let _ ← sc.layout b
      return s

def survey (sc : Scene) (stages : Stages) : Parsed Survey :=
  (structs sc.text).foldlM sc.surveyStruct { stages }

def theDeclaration (sc : Scene) (s : Survey) : Parsed (Option StructBlock) :=
  match s.declarations with
  | [] => .ok none
  | [b] => .ok (some b)
  | a :: b :: _ => .error (sc.faultAt b.offset (.duplicateDeclarations a.name b.name))

def addExports (sc : Scene) (b : StructBlock) (binding : Nat) (exports : Exports) :
    List Field → Parsed Exports
  | [] => .ok exports
  | f :: fs => do
    let type ← sc.fieldType f
    if type ≠ .uint then throw (sc.faultAt f.offset (.nonUintResource b.name f.name f.typeName))
    let name := normalizeName f.name
    if exports.contains name then throw (sc.faultAt f.offset (.duplicateExport name))
    sc.addExports b (binding + 1)
      (exports.insert name (some { binding := some binding, type := .nonUniform })) fs

def declaredExports (sc : Scene) (declaration : Option StructBlock) : Parsed Exports :=
  match declaration with
  | none => .ok Dict.empty
  | some b => do sc.addExports b 0 Dict.empty (← sc.fields b)

def layoutStruct? (s : Survey) (name : Bytes) : Option StructBlock :=
  if isResourceDeclaration name then none else s.seen.find? (·.name = name)

/-- Gives each of the named exports the layout of the struct of its name. An export without such a struct stays
non-uniform and is noted, or is a fault when `strict`. -/
def attachLayouts (sc : Scene) (strict : Bool) (s : Survey) (declaration : Option StructBlock) :
    List (Bytes × Option Export) → Exports → List ParseNote × Parsed Exports
  | [], exports => ([], .ok exports)
  | (name, entry) :: rest, exports =>
    match layoutStruct? s name with
    | none =>
      if strict then
        ([], .error (sc.faultAt ((declaration.map StructBlock.offset).getD 0) (.missingLayout name)))
      else
        let (notes, result) := sc.attachLayouts strict s declaration rest exports
        (.withoutLayout name :: notes, result)
    | some b =>
      match sc.layout b with
      | .error e => ([], .error e)
      | .ok elements =>
        let size : Int := elements.foldr (fun e n => e.type.size + n) 0
        let uniform : Export :=
          { entry.getD {} with
            type := .uniform, elements := some elements, sizeInBytes := some size }
        sc.attachLayouts strict s declaration rest (exports.insert name (some uniform))

end Scene

structure Recovered where
  stages : Stages
  exports : Exports
  source : Bytes
  map : SourceMap
  deriving DecidableEq

def Recovered.metadata (r : Recovered) (name : Bytes) : Metadata :=
  { shaderName := name, stages := some r.stages, exports := some r.exports }

namespace Scene

def declarations (sc : Scene) : Parsed (Survey × Option StructBlock × Exports) := do
  let stages ← sc.stages
  let survey ← sc.survey stages
  let declaration ← sc.theDeclaration survey
  return (survey, declaration, ← sc.declaredExports declaration)

def read (strict : Bool) (m : Merged) : List ParseNote × Parsed Recovered :=
  let sc := ofMerged m
  match sc.declarations with
  | .error e => ([], .error e)
  | .ok (survey, declaration, declared) =>
    let (notes, attached) := sc.attachLayouts strict survey declaration declared.ordered declared
    match attached with
    | .error e => (notes, .error e)
    | .ok exports =>
      (notes ++ [.parsed survey.stages.size exports.size m.map.size],
        .ok ⟨survey.stages, exports, m.text, m.map⟩)

end Scene

structure ParseOptions extends IncludeOptions where
  strict : Bool := false
  deriving Repr, Inhabited

variable {m : Type → Type} [Monad m]

def recover (host : Host m) (opts : ParseOptions) (merged : Merged) : Merge m Recovered := do
  let (notes, result) := Scene.read opts.strict merged
  notes.forM fun n => (host.note n : m Unit)
  match result with
  | .ok r => return r
  | .error e => throw e

def parse (host : Host m) (opts : ParseOptions) (path : Path) : Merge m Recovered := do
  recover host opts (← resolve host opts.toIncludeOptions path)

def parseText (host : Host m) (opts : ParseOptions) (path : Path) (text : Bytes) :
    Merge m Recovered := do
  recover host opts (← resolveText host opts.toIncludeOptions path text)

end ShaderForge
