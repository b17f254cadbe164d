import ShaderForge.Config.Flags
import ShaderForge.Config.Reading
import ShaderForge.Config.Writing
import ShaderForge.World

/-!
# ShaderForge.Config.Load

The settings of a call: the standard ones, over them a settings file, over that the flags.

* `settingsDir`    — where a user's settings live.
* `commonFlags`    — the flags that every command with settings takes.
* `loadSettings`   — the settings of a call.
* `saveSettings`   — settings written to a file.
-/

namespace ShaderForge

def settingsFileName : Bytes := utf8 "shaderc.yaml"

def settingsDir (e : Environment) : Path :=
  match e.configHome with
  | some (b :: rest) => Path.join (b :: rest) "shaderc"
  | _ => Path.joinAll [e.home.getD [], utf8 ".config", utf8 "shaderc"]

def userSettingsPath (e : Environment) : Path := Path.join (settingsDir e) settingsFileName

/-- The settings file that is used when none is named: one in the working directory, or the user's. -/
def findSettings (w : World) : Option Path :=
  [settingsFileName, userSettingsPath w.environment].find? w.disk.isPresent

def commonFlags : List Flag :=
  [{ name := "config", kind := .text, purpose := "Path to config file" },
    { name := "debug", kind := .flag, purpose := "Enable debug logging" },
    { name := "log-file", kind := .text, purpose := "Write logs to this file as well" },
    { name := "dxc", kind := .text, purpose := "Path to the dxc executable" },
    { name := "shader-model", kind := .text, purpose := "Shader model, e.g. 6_6" },
    { name := "timeout", kind := .duration, purpose := "Per-stage compiler timeout" },
    { name := "include", kind := .texts, purpose := "Extra include directory (repeatable)" },
    { name := "backend", kind := .text, purpose := "Target backend: DX12 or VK" },
    { name := "out", kind := .text, purpose := "Output directory" },
    { name := "workers", kind := .int, purpose := "Concurrent shader compilations" },
    { name := "strict", kind := .flag, purpose := "Fail on exports without a layout struct" }]

inductive LoadSettingsError where
  | unreadable (path : Path) (error : FileError)
  | document (path : Path) (fault : SettingsFile.Fault)
  | backend (fault : TargetFault)
  | invalid (fault : SettingsFault)
  deriving DecidableEq, Repr

def LoadSettingsError.message : LoadSettingsError → Bytes
  | .unreadable path error => "loading config from " ++ path ++ ": " ++ error.message
  | .document path fault => "loading config from " ++ path ++ ": " ++ fault.message
  | .backend fault => fault.message
  | .invalid fault => "invalid config: " ++ fault.message

def overriding (given held : Bytes) : Bytes := if given = [] then held else given

/-- The settings with the flags over them. Flags that were not given, or given empty, change nothing. -/
def Settings.withFlags (vs : FlagValues) (s : Settings) : Except TargetFault Settings := do
  let name := vs.text "backend"
  let backend ← if name = [] then pure s.build.backend else Backend.read name
  let timeout := vs.duration "timeout"
  let workers := vs.int "workers"
  return {
    compiler :=
      { s.compiler with
        tool := overriding (vs.text "dxc") s.compiler.tool
        shaderModel := overriding (vs.text "shader-model") s.compiler.shaderModel
        timeout := if 0 < timeout.nanoseconds then timeout else s.compiler.timeout
        includeDirs := s.compiler.includeDirs ++ vs.texts "include" }
    parser := { s.parser with strictExports := s.parser.strictExports || vs.isSet "strict" }
    build :=
      { s.build with
        backend
        outputDir := overriding (vs.text "out") s.build.outputDir
        workers := if 0 < workers then workers else s.build.workers }
    logging :=
      { s.logging with
        level := if vs.isSet "debug" then utf8 "debug" else s.logging.level
        logFile := overriding (vs.text "log-file") s.logging.logFile } }

def settingsFrom (w : World) (path : Path) : Except LoadSettingsError Settings :=
  match w.disk.contents path with
  | .error e => .error (.unreadable path e)
  | .ok text =>
    match (Settings.standard w.environment.processors).overlay text with
    | .ok s => .ok s
    | .error fault => .error (.document path fault)

/-- The settings of a call; without flags, those of the file that is found. -/
def loadSettings (w : World) (flags : Option FlagValues) : Except LoadSettingsError Settings := do
  let named := match flags with
    | some vs => vs.text "config"
    | none => []
  let path := if named = [] then findSettings w else some named
  let s ← match path with
    | some path => settingsFrom w path
    | none => pure (Settings.standard w.environment.processors)
  let s ← match flags with
    | none => pure s
    | some vs =>
      match s.withFlags vs with
      | .ok s => pure s
      | .error fault => throw (.backend fault)
  match s.check with
  | .ok () => return s
  | .error fault => throw (.invalid fault)

def saveSettings (s : Settings) (path : Path) : Action (Except FileError Unit) := do
  match ← Action.performAll fun d => d.mkdirAll (Path.dir path) with
  | .error e => return .error e
  | .ok () => Action.perform fun d => d.store path s.document

end ShaderForge
