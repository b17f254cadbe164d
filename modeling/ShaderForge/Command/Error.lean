import ShaderForge.Artifact.Load
import ShaderForge.Build.Run
import ShaderForge.Config.Load

/-!
# ShaderForge.Command.Error

How a command ends when it does not end well.

* `CommandError`, `CommandError.message`.
* `Command` — an action that may end so.
-/

namespace ShaderForge

inductive CommandError where
  /-- How to call the command was already printed. -/
  | usage
  /-- Help was asked for and printed. -/
  | help
  | settings (error : LoadSettingsError)
  | saving (error : FileError)
  | compile (error : CompileError)
  | discover (error : DiscoverError)
  | jobs (failures : List (Job × JobError))
  | parse (error : ParseError)
  | metadata (error : MetadataWriteError)
  | artifact (error : Artifact.LoadError)
  | directory (error : FileError)
  | shaderName (artifact : Path) (fault : NameFault)
  | entryName (artifact : Path) (fault : NameFault)
  | writing (path : Path) (error : FileError)
  /-- An artifact names an export and says nothing about it; the listing breaks off. -/
  | absentExport (name : Bytes)
  deriving DecidableEq, Repr

namespace CommandError

def message : CommandError → Bytes
  | .usage => "usage"
  | .help => FlagFault.help.message
  | .settings error => error.message
  | .saving error => error.message
  | .compile error => error.message
  | .discover error => error.message
  | .jobs failures => failuresText failures
  | .parse error => error.message
  | .metadata error => error.message
  | .artifact error => error.message
  | .directory error => "creating directory: " ++ error.message
  | .shaderName file fault => file ++ ": " ++ fault.message
  | .entryName file fault => file ++ ": entry point: " ++ fault.message
  | .writing path error => "writing " ++ path ++ ": " ++ error.message
  | .absentExport name => "export without description: " ++ name

def breaksOff : CommandError → Bool
  | .absentExport _ => true
  | .compile error => error.cause.breaksOff
  | .jobs failures => failures.any fun f => f.2.breaksOff
  | _ => false

def parts : CommandError → List Bytes
  | .jobs failures => failures.map failureText
  | _ => []

end CommandError

abbrev Command := ExceptT CommandError Action

namespace Command

def lift {ε α : Type} (error : ε → CommandError) (a : Action (Except ε α)) : Command α :=
  ExceptT.mk do
    match ← a with
    | .ok x => return .ok x
    | .error e => return .error (error e)

def require {ε α : Type} (error : ε → CommandError) (r : Except ε α) : Command α := lift error (pure r)

def print (s : Bytes) : Command Unit := Action.print s

def printLine (s : Bytes) : Command Unit := Action.printLine s

def usage {α : Type} (line : Bytes) : Command α := do
  (Action.printErrorLine line : Action Unit)
  throw .usage

/-- The flags of a call. When they cannot be read, the reason and the list of flags are printed. -/
def flags (command : Bytes) (flags : List Flag) (args : List Bytes) : Command (FlagValues × List Bytes) := do
  match parseFlags flags [] args with
  | .ok found => return found
  | .error fault =>
    if fault ≠ .help then (Action.printErrorLine fault.message : Action Unit)
    (Action.printError (flagsUsage command flags) : Action Unit)
    throw (if fault = .help then .help else .usage)

end Command

end ShaderForge
