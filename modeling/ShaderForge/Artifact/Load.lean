import ShaderForge.Artifact.Decode
import ShaderForge.Files.Disk

/-!
# ShaderForge.Artifact.Load

Reading an artifact from the file tree.

* `Artifact.load`
-/

namespace ShaderForge
namespace Artifact

inductive LoadError where
  | unreadable (error : FileError)
  | malformed (error : DecodeError)
  deriving DecidableEq, Repr

def LoadError.message : LoadError → Bytes
  | .unreadable error => "opening file: " ++ error.message
  | .malformed error => error.message

def load (d : Disk) (path : Path) : Except LoadError File :=
  match d.contents path with
  | .error e => .error (.unreadable e)
  | .ok data =>
    match decode data with
    | .error e => .error (.malformed e)
    | .ok f => .ok f

end Artifact
end ShaderForge
