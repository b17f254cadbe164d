import ShaderForge.Files.Disk
import ShaderForge.Log.Entry
import ShaderForge.Log.Target
import ShaderForge.Source.Cache

/-!
# ShaderForge.World

Everything a command can see and change: files, output streams, the logger, the source cache, whether work was
cancelled, and which tools were called. A command is a function on worlds.

* `World`, `Action`.
* `print`, `printError`, `log` — output.
* `perform` — a change of the file tree.
-/

namespace ShaderForge

structure Environment where
  home : Option Bytes := none
  configHome : Option Bytes := none
  tempDir : Path := utf8 "/tmp"
  processors : Nat := 1
  logTime : Bytes := []
  logCaller : Bytes := []
  elapsed : Bytes := utf8 "0s"
  deriving Repr, Inhabited

structure World where
  disk : Disk := {}
  environment : Environment := {}
  stdout : Bytes := []
  stderr : Bytes := []
  logging : Option LogSettings := none
  cache : SourceCache := {}
  cancelled : Bool := false
  calls : List (List Bytes) := []
  deriving Inhabited

abbrev Action := StateM World

namespace Action

def print (s : Bytes) : Action Unit := modify fun w => { w with stdout := w.stdout ++ s }

def printLine (s : Bytes) : Action Unit := print (s ++ [Bytes.lf])

def printError (s : Bytes) : Action Unit := modify fun w => { w with stderr := w.stderr ++ s }

def printErrorLine (s : Bytes) : Action Unit := printError (s ++ [Bytes.lf])

def look {α : Type} (f : Disk → α) : Action α := do return f (← get).disk

def perform (change : Disk → Except FileError Disk) : Action (Except FileError Unit) := do
  let w ← get
  match change w.disk with
  | .ok d => set { w with disk := d }; return .ok ()
  | .error e => return .error e

def performWith {α : Type} (change : Disk → Except FileError (α × Disk)) :
    Action (Except FileError α) := do
  let w ← get
  match change w.disk with
  | .ok (a, d) => set { w with disk := d }; return .ok a
  | .error e => return .error e

def performAll (change : Disk → Disk × Except FileError Unit) : Action (Except FileError Unit) := do
  let w ← get
  let (d, result) := change w.disk
  set { w with disk := d }
  return result

end Action

/-- Adds an entry to a log file; the directories above it are made. An entry that cannot be written is lost. -/
def appendLog (path : Path) (line : Bytes) (d : Disk) : Disk :=
  if d.isPresent path then
    match d.append path line with
    | .ok d => d
    | .error _ => d
  else
    match d.mkdirAll (Path.dir path) with
    | (d, .ok ()) =>
      match d.store path line with
      | .ok d => d
      | .error _ => d
    | (d, .error _) => d

namespace World

/-- Writes a log entry to the places that the settings name, if it is grave enough. -/
def log (e : LogEntry) (w : World) : World :=
  match w.logging with
  | none => w
  | some s =>
    if e.level.rank < s.level.rank then w
    else
      let w := if s.console then { w with stderr := w.stderr ++ e.consoleLine } else w
      match s.file with
      | none => w
      | some file => { w with disk := appendLog file.path (e.fileLine w.environment.logTime w.environment.logCaller) w.disk }

end World

namespace Action

def log (level : Level) (logger message : Bytes) (fields : List LogField) : Action Unit :=
  modify (World.log ⟨level, logger, message, fields⟩)

end Action

end ShaderForge
