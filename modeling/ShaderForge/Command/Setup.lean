import ShaderForge.Command.Error

/-!
# ShaderForge.Command.Setup

What commands that compile or parse have in common: the settings are loaded and the log is opened, and the options
of each part follow from the settings.

* `setup`.
* `Settings.parserSettings`, `Settings.pipelineOptions`, `Settings.buildOptions`.
-/

namespace ShaderForge

/-- A limit of the settings, unless it is none. -/
def positiveOr (usual given : Int) : Int := if 0 < given then given else usual

namespace Settings

def logTarget (s : Settings) : Option LogFile :=
  if s.logging.logFile = [] then none
  else
    let usual := LogFile.standard s.logging.logFile
    some { usual with
      maxSizeMb := positiveOr usual.maxSizeMb s.logging.maxSizeMb
      maxBackups := positiveOr usual.maxBackups s.logging.maxBackups
      maxAgeDays := positiveOr usual.maxAgeDays s.logging.maxAgeDays }

def logSettings (s : Settings) : LogSettings :=
  { level := Level.ofName s.logging.level, console := true, file := s.logTarget }

def parserSettings (s : Settings) : ParserSettings :=
  { includeDirs := s.compiler.includeDirs
    maxDepth := s.parser.maxIncludeDepth
    strict := s.parser.strictExports
    logger := "parser" }

def compilerOptions (s : Settings) (runner : Runner) : CompilerOptions :=
  { tool := s.compiler.tool
    shaderModel := s.compiler.shaderModel
    timeout := s.compiler.timeout
    includeDirs := s.compiler.includeDirs
    extraArgs := s.compiler.extraArgs
    runner
    logger := "compiler" }

def pipelineOptions (s : Settings) (runner : Runner) : PipelineOptions :=
  { parser := s.parserSettings, compiler := s.compilerOptions runner, logger := "pipeline" }

def buildOptions (s : Settings) (runner : Runner) : BuildOptions :=
  let pipeline := s.pipelineOptions runner
  { pipeline := { pipeline with parser := { pipeline.parser with reader := .cached } }
    backend := s.build.backend
    outputDir := s.build.outputDir
    ignoreFile := s.build.ignoreFile
    logger := "build" }

def digest (s : Settings) : Bytes :=
  "config: backend " ++ s.build.backend.label ++ ", dxc " ++ s.compiler.tool ++ ", shader model " ++
    s.compiler.shaderModel ++ ", " ++ Bytes.ofInt s.build.workers ++ " workers"

end Settings

def setup (vs : FlagValues) : Command Settings := do
  let s ← Command.require .settings (loadSettings (← (get : Action World)) (some vs))
  (modify fun w => { w with logging := some s.logSettings } : Action Unit)
  (Action.log .debug [] s.digest [] : Action Unit)
  return s

end ShaderForge
