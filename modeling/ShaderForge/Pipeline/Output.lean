import ShaderForge.Pipeline.Step

/-!
# ShaderForge.Pipeline.Output

Writing a file so that its path never shows a part of the data.

* `FileCalls`  — the calls to a file system that this takes.
* `writeWhole` — the calls in their order.
-/

namespace ShaderForge

structure FileCalls (m : Type → Type) where
  mkdirAll : Path → m (Except FileError Unit)
  createTemp : (dir : Path) → (pattern : Bytes) → m (Except FileError Path)
  store : Path → Bytes → m (Except FileError Unit)
  rename : (old new : Path) → m (Except FileError Unit)
  remove : Path → m (Except FileError Unit)

def FileCalls.world : FileCalls Action where
  mkdirAll dir := Action.performAll fun d => d.mkdirAll dir
  createTemp dir pattern := Action.performWith fun d => d.createTemp dir pattern
  store p data := Action.perform fun d => d.store p data
  rename old new := Action.perform fun d => d.rename old new
  remove p := Action.perform fun d => d.remove p

def outputPattern (path : Path) : Bytes := "." ++ Path.base path ++ ".*.tmp"

/-- Writes a file by way of a fresh file beside it, so that the path never shows a part of the data. -/
def writeWhole {m : Type → Type} [Monad m] (calls : FileCalls m) (path : Path) (data : Bytes) :
    ExceptT CompileCause m Unit := do
  let dir := Path.dir path
  Step.lift .outputDirectory (calls.mkdirAll dir)
  let temp ← Step.lift .outputFile (calls.createTemp dir (outputPattern path))
  Step.ensuring
    (do
      Step.lift .outputWrite (calls.store temp data)
      Step.lift .outputWrite (calls.rename temp path))
    do let _ ← calls.remove temp

end ShaderForge
