import ShaderForge.Source.Include
import ShaderForge.Toolchain.Dxc

/-!
# ShaderForge.Config.Settings

The settings of the tool.

* `Settings`, `Settings.standard` — what holds when nothing is said.
* `Settings.check` — settings that cannot work.
-/

namespace ShaderForge

structure CompilerSettings where
  tool : Bytes
  shaderModel : Bytes
  timeout : Duration
  includeDirs : List Path
  extraArgs : List Bytes
  deriving DecidableEq, Repr, Inhabited

structure ParsingSettings where
  maxIncludeDepth : Int
  strictExports : Bool
  deriving DecidableEq, Repr, Inhabited

structure OutputSettings where
  backend : Backend
  outputDir : Path
  workers : Int
  ignoreFile : Path
  deriving DecidableEq, Repr, Inhabited

structure LoggingSettings where
  level : Bytes
  logFile : Path
  maxSizeMb : Int
  maxBackups : Int
  maxAgeDays : Int
  deriving DecidableEq, Repr, Inhabited

structure Settings where
  compiler : CompilerSettings
  parser : ParsingSettings
  build : OutputSettings
  logging : LoggingSettings
  deriving DecidableEq, Repr, Inhabited

inductive SettingsFault where
  | noTool
  | negativeTimeout (timeout : Duration)
  | depthBelowOne (depth : Int)
  | workersBelowOne (workers : Int)
  deriving DecidableEq, Repr

def SettingsFault.message : SettingsFault → Bytes
  | .noTool => "compiler.tool must not be empty"
  | .negativeTimeout t => "compiler.timeout must not be negative: " ++ t.text
  | .depthBelowOne n => "parser.max_include_depth must be at least 1, got " ++ Bytes.ofInt n
  | .workersBelowOne n => "build.workers must be at least 1, got " ++ Bytes.ofInt n

namespace Settings

/-- What holds when nothing is said, on a machine with that many processors. -/
def standard (processors : Nat) : Settings where
  compiler :=
    { tool := defaultTool
      shaderModel := defaultShaderModel
      timeout := defaultTimeout
      includeDirs := []
      extraArgs := [utf8 "-HV", utf8 "2021"] }
  parser := { maxIncludeDepth := (depthLimit 0 : Nat), strictExports := false }
  build :=
    { backend := .directX12
      outputDir := utf8 "."
      workers := processors
      ignoreFile := utf8 ".shaderignore" }
  logging := { level := utf8 "info", logFile := [], maxSizeMb := 10, maxBackups := 3, maxAgeDays := 14 }

def check (s : Settings) : Except SettingsFault Unit :=
  if s.compiler.tool = [] then .error .noTool
  else if s.compiler.timeout.nanoseconds < 0 then .error (.negativeTimeout s.compiler.timeout)
  else if s.parser.maxIncludeDepth < 1 then .error (.depthBelowOne s.parser.maxIncludeDepth)
  else if s.build.workers < 1 then .error (.workersBelowOne s.build.workers)
  else .ok ()

end Settings

end ShaderForge
