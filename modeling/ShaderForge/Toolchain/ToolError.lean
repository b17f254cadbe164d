import ShaderForge.Files.Error
import ShaderForge.Text.Blank
import ShaderForge.Text.Duration
import ShaderForge.Text.Quoted

/-!
# ShaderForge.Toolchain.ToolError

How a call of the native compiler fails.

* `RunFailure` — why a process did not end well.
* `ToolCause`  — the cause that is reported, once time limit and cancellation are taken into account.
* `ToolError`  — the failure with the call and its diagnostics.
-/

namespace ShaderForge

inductive RunFailure where
  | exit (code : Nat)
  | killed
  | refused (text : Bytes)
  | notInPath (name : Bytes)
  | notStarted (error : FileError)
  | noCommand
  | stopped
  deriving DecidableEq, Repr

namespace RunFailure

/-- The exit code, where there is one; a killed process has -1. -/
def exitCode : RunFailure → Int
  | .exit code => code
  | .killed => -1
  | _ => 0

def message : RunFailure → Bytes
  | .exit code => "exit status " ++ Bytes.ofNat code
  | .killed => "signal: killed"
  | .refused text => text
  | .notInPath name => "exec: " ++ name.quoted ++ ": executable file not found in $PATH"
  | .notStarted error => error.message
  | .noCommand => "exec: no command"
  | .stopped => "context canceled"

end RunFailure

inductive ToolCause where
  | run (failure : RunFailure)
  | timedOut (limit : Duration)
  | cancelled
  | noBytecode (error : FileError)
  /-- What the tool printed cannot be put back to the lines of the sources; trying to do so breaks off. -/
  | unmapped
  deriving DecidableEq, Repr

def ToolCause.message : ToolCause → Bytes
  | .run failure => failure.message
  | .timedOut limit => "timed out after " ++ limit.text ++ ": context deadline exceeded"
  | .cancelled => "context canceled"
  | .noBytecode error => "no bytecode written: " ++ error.message
  | .unmapped => "diagnostics not put back"

/-- The text of a failed call. A code other than zero hides the cause; what the tool printed follows on its own
lines. -/
def toolErrorText (tool profile entry : Bytes) (exitCode : Int) (cause : Option Bytes) (output : Bytes) :
    Bytes :=
  let ending : Bytes :=
    if exitCode ≠ 0 then ": exit status " ++ Bytes.ofInt exitCode
    else match cause with
      | some text => ": " ++ text
      | none => []
  let printed : Bytes := if output.trim = [] then [] else [Bytes.lf] ++ output.trim
  tool ++ " -T " ++ profile ++ " -E " ++ entry ++ ending ++ printed

structure ToolError where
  tool : Bytes
  profile : Bytes
  entry : Bytes
  exitCode : Int := 0
  output : Bytes
  cause : ToolCause
  deriving DecidableEq, Repr

def ToolError.message (e : ToolError) : Bytes :=
  toolErrorText e.tool e.profile e.entry e.exitCode (some e.cause.message) e.output

end ShaderForge
