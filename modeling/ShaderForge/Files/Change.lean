import ShaderForge.Files.Disk

/-!
# ShaderForge.Files.Change

How one file tree differs from another.

* `Change`, `changes` — new directories, new or changed files, and what is gone.
-/

namespace ShaderForge

inductive Change where
  | directory (place : Place)
  | file (place : Place) (content : Bytes)
  | gone (place : Place) (wasDirectory : Bool)
  deriving DecidableEq, Repr

def changeAt (before : Disk) : Place × Node → Option Change
  | (place, .directory) => if before.nodes.lookup place = some .directory then none else some (.directory place)
  | (_, .link _) => none
  | (place, .file content _) =>
    match before.nodes.lookup place with
    | some (.file held _) => if held = content then none else some (.file place content)
    | _ => some (.file place content)

/-- The differences that lead from one tree to another: what appears, from the root down, then what disappears,
from the leaves up. -/
def changes (before after : Disk) : List Change :=
  after.nodes.filterMap (changeAt before) ++
    (before.nodes.filterMap fun (place, node) =>
      if (after.nodes.lookup place).isSome then none else some (Change.gone place node.isDirectory)).reverse

end ShaderForge
