import ShaderForge.Files.Path
import ShaderForge.Log.Level

/-!
# ShaderForge.Log.Target

Where log entries go.

* `LogFile`     — a file with the limits at which it is to be put aside.
* `LogSettings` — from which level on entries are kept, and where.
-/

namespace ShaderForge

structure LogFile where
  path : Path
  maxSizeMb : Int
  maxBackups : Int
  maxAgeDays : Int
  compress : Bool
  deriving DecidableEq, Repr, Inhabited

def LogFile.standard (path : Path) : LogFile :=
  { path, maxSizeMb := 10, maxBackups := 3, maxAgeDays := 14, compress := true }

structure LogSettings where
  level : Level := .info
  console : Bool := true
  file : Option LogFile := none
  deriving DecidableEq, Repr, Inhabited

end ShaderForge
