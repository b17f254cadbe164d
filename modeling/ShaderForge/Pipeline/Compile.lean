import ShaderForge.Pipeline.Diagnostics
import ShaderForge.Pipeline.Output
import ShaderForge.Pipeline.Reading

/-!
# ShaderForge.Pipeline.Compile

From a source file to an artifact: parse, compile each stage, assemble.

Temporary files live in a directory of their own, which is taken away whatever happens. The artifact appears at
its path as a whole or not at all.

* `encodeShader`  — the artifact of a source, as octets.
* `compileShader` — the artifact written to a directory.
-/

namespace ShaderForge

structure PipelineOptions where
  parser : ParserSettings := {}
  compiler : CompilerOptions := {}
  tempDir : Path := []
  logger : Bytes := []

def artifactExt : Bytes := utf8 ".bin"

def shaderExt : Bytes := utf8 ".hlsl"

def artifactName (name : Bytes) : Bytes := name.lower ++ artifactExt

def shaderName (given : Bytes) (path : Path) : Bytes := if given ≠ [] then given else Path.stem path

def remapStageError (merged : Path) (map : SourceMap) : StageError → CompileCause
  | .target fault => .target fault
  | .tool error =>
    if error.output = [] || map.size = 0 then .tool error
    else match remapText? merged map error.output with
      | some text => .tool { error with output := text }
      | none => .tool { error with cause := .unmapped }

def stageBytecode (o : CompilerOptions) (kind : StageKind) (stage : Stage) (source output : Path)
    (map : SourceMap) : Step Bytes := do
  let path ← Step.lift (remapStageError source map)
    (compileStage o kind stage.entryPoint source output)
  Step.ensuring (Step.lift (.bytecode kind) (Action.look fun d => d.contents path))
    do let _ ← Action.perform fun d => d.remove path

/-- The bytecode of each stage, in order. No stage is begun once work is cancelled. -/
def stagesBytecode (o : CompilerOptions) (dir source : Path) (map : SourceMap) :
    List (StageKind × Stage) → Step (List Bytes)
  | [] => return []
  | (kind, stage) :: rest => do
    if (← (get : Action World)).cancelled then throw .cancelled
    let code ← stageBytecode o kind stage source (Path.join dir (stage.entryPoint ++ artifactExt)) map
    return code :: (← stagesBytecode o dir source map rest)

def compileStages (o : PipelineOptions) (compiler : CompilerOptions) (name : Bytes) (r : Recovered) :
    Step (List Bytes) := do
  let w ← (get : Action World)
  let parent := if o.tempDir = [] then w.environment.tempDir else o.tempDir
  let dir ← Step.lift .workDirectory
    (Action.performWith fun d => d.mkdirTemp parent ("shaderc-" ++ name.lower ++ "-"))
  Step.ensuring
    (do
      let source := Path.join dir (name.lower ++ shaderExt)
      Step.lift .mergedSource (Action.perform fun d => d.store source r.source)
      stagesBytecode compiler dir source r.map r.stages.ordered)
    (modify fun w => { w with disk := w.disk.removeAll dir })

def prepare {m : Type → Type} [Monad m] (name : Bytes) (backend : Backend)
    (parsed : m (Except ParseError Recovered)) : ExceptT CompileCause m (Dialect × Recovered) := do
  Step.require .name (checkName name)
  Step.require .target backend.require
  let dialect ← Step.require .target backend.dialect
  return (dialect, ← Step.lift .parse parsed)

def assemble (o : PipelineOptions) (name : Bytes) (backend : Backend) (dialect : Dialect) (r : Recovered) :
    Step Bytes := do
  let heading : List LogField := [.text "shader" name, .text "backend" backend.label]
  (Action.log .debug o.logger "shader parsed" (heading ++
    [.nat "stages" r.stages.size, .nat "exports" r.exports.size, .nat "files" r.map.files.length]) :
    Action Unit)
  let bytecode ← compileStages o o.compiler.withDefaults name r
  let data ← Step.require .artifact
    (Artifact.encode dialect (some { r.metadata name with stages := some r.stages.renumbered }) bytecode)
  (Action.log .debug o.logger "shader encoded" (heading ++
    [.nat "bytes" data.length, .duration "duration" ⟨0⟩]) : Action Unit)
  return data

def encodeSteps (o : PipelineOptions) (name : Bytes) (source : Path) (backend : Backend) : Step Bytes := do
  let (dialect, r) ← prepare name backend (parseFile o.parser source)
  assemble o name backend dialect r

def compileSteps (o : PipelineOptions) (name : Bytes) (source : Path) (backend : Backend) (outDir : Path) :
    Step Path := do
  let data ← encodeSteps o name source backend
  let path := Path.join outDir (artifactName name)
  writeWhole FileCalls.world path data
  (Action.log .info o.logger "artifact written"
    [.text "shader" name, .text "path" path, .nat "bytes" data.length] : Action Unit)
  return path

def forShader {α : Type} (name : Bytes) (s : Step α) : Action (Except CompileError α) := do
  match ← s.run with
  | .ok a => return .ok a
  | .error cause => return .error ⟨name, cause⟩

def encodeShader (o : PipelineOptions) (name : Bytes) (source : Path) (backend : Backend) :
    Action (Except CompileError Bytes) :=
  forShader name (encodeSteps o name source backend)

def compileShader (o : PipelineOptions) (name : Bytes) (source : Path) (backend : Backend) (outDir : Path) :
    Action (Except CompileError Path) :=
  forShader name (compileSteps o name source backend outDir)

end ShaderForge
