import ShaderForge.Files.Path

/-!
# ShaderForge.Source.Location

Where lines of a merged source come from.

* `Location`   — a line of a file, counted from one.
* `SourceMap`  — the origin of each merged line; `lookup?`, `size`, `files`.
-/

namespace ShaderForge

/-- A line of a source file. Line zero means that the line is not known. -/
structure Location where
  file : Path
  line : Nat
  deriving DecidableEq, Repr, Inhabited

structure SourceMap where
  lines : List Location
  deriving DecidableEq, Repr, Inhabited

namespace SourceMap

def lookup? (m : SourceMap) (line : Int) : Option Location :=
  if line < 1 then none else m.lines[line.toNat - 1]?

def size (m : SourceMap) : Nat := m.lines.length

def files (m : SourceMap) : List Path :=
  (m.lines.foldl (fun seen l => if seen.contains l.file then seen else l.file :: seen) []).reverse

end SourceMap

end ShaderForge
