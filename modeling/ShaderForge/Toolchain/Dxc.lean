import ShaderForge.Toolchain.Backend
import ShaderForge.Toolchain.Runner

/-!
# ShaderForge.Toolchain.Dxc

Compiling one stage with the native compiler:

    tool source -T profile -E entry -Fo output [-I dir]... [extra]...

* `CompilerOptions`, `CompilerOptions.withDefaults`.
* `compileStage` — the call, and what is made of its outcome.
-/

namespace ShaderForge

structure CompilerOptions where
  tool : Bytes := []
  shaderModel : Bytes := []
  timeout : Duration := ⟨0⟩
  includeDirs : List Path := []
  extraArgs : List Bytes := []
  runner : Runner := default
  logger : Bytes := []

def defaultTool : Bytes := utf8 "dxc"

def defaultShaderModel : Bytes := utf8 "6_6"

def defaultTimeout : Duration := .ofSeconds 60

namespace CompilerOptions

def withDefaults (o : CompilerOptions) : CompilerOptions :=
  { o with
    tool := if o.tool = [] then defaultTool else o.tool
    shaderModel := if o.shaderModel = [] then defaultShaderModel else o.shaderModel
    timeout := if o.timeout.nanoseconds ≤ 0 then defaultTimeout else o.timeout }

def arguments (o : CompilerOptions) (profile entry : Bytes) (source output : Path) : List Bytes :=
  [source, "-T", profile, "-E", entry, "-Fo", output] ++
    o.includeDirs.flatMap (fun dir => [utf8 "-I", dir]) ++ o.extraArgs

end CompilerOptions

inductive StageError where
  | target (fault : TargetFault)
  | tool (error : ToolError)
  deriving DecidableEq, Repr

def StageError.message : StageError → Bytes
  | .target fault => fault.message
  | .tool error => error.message

/-- The error of a call that failed: an interruption is reported in the stead of the failure. -/
def failedCall (o : CompilerOptions) (profile entry : Bytes) (r : RunResult) (failure : RunFailure) :
    ToolError :=
  let error : ToolError :=
    { tool := o.tool, profile, entry, output := r.output,
      exitCode := failure.exitCode, cause := .run failure }
  match r.interruption with
  | .none => error
  | .deadline => { error with exitCode := 0, cause := .timedOut o.timeout }
  | .cancelled => { error with exitCode := 0, cause := .cancelled }

/-- Compiles one stage of `source` into `output`. When the call fails the output file is taken away; when it
succeeds the file must be there. The options have their default values filled in. -/
def compileStage (o : CompilerOptions) (kind : StageKind) (entry : Bytes) (source output : Path) :
    Action (Except StageError Path) := do
  match profile kind o.shaderModel with
  | .error fault => return .error (.target fault)
  | .ok profile =>
    let logger := loggerName o.logger "dxc"
    let result ← o.runner.run o.tool (o.arguments profile entry source output)
    match result.failure with
    | some failure =>
      let _ ← Action.perform fun d => d.remove output
      let error := failedCall o profile entry result failure
      Action.log .warn logger "compile failed"
        [.text "stage" kind.label, .text "profile" profile, .int "exitCode" error.exitCode,
          .duration "duration" ⟨0⟩, .error error.cause.message []]
      return .error (.tool error)
    | none =>
      match ← Action.look fun d => d.stat output with
      | .error e =>
        return .error (.tool
          { tool := o.tool, profile, entry, output := result.output, cause := .noBytecode e })
      | .ok _ =>
        Action.log .debug logger "stage compiled"
          [.text "stage" kind.label, .text "profile" profile, .text "entry" entry,
            .duration "duration" ⟨0⟩]
        return .ok output

end ShaderForge
