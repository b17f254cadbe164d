import ShaderForge.Pipeline.Error
import ShaderForge.World

/-!
# ShaderForge.Pipeline.Step

Steps of the pipeline: actions that may end with a cause.

* `Step.lift`     — an action whose error becomes a cause.
* `Step.ensuring` — an action that is done whatever became of a step.
-/

namespace ShaderForge

abbrev Step := ExceptT CompileCause Action

namespace Step

variable {m : Type → Type} [Monad m]

def lift {ε α : Type} (cause : ε → CompileCause) (a : m (Except ε α)) : ExceptT CompileCause m α := do
  match ← (a : m _) with
  | .ok x => return x
  | .error e => throw (cause e)

def require {ε α : Type} (cause : ε → CompileCause) (r : Except ε α) : ExceptT CompileCause m α := lift cause (pure r)

def ensuring {α : Type} (a : ExceptT CompileCause m α) (after : m Unit) : ExceptT CompileCause m α :=
  ExceptT.mk do
    let result ← a.run
    after
    return result

end Step

end ShaderForge
