import ShaderForge.Command.Setup

/-!
# ShaderForge.Command.Compile

Commands that read sources.

* `Command.compile` — one shader into an artifact.
* `Command.build`   — every shader under a directory.
* `Command.parse`   — the metadata of a shader, without compiling.
-/

namespace ShaderForge

namespace Command

def nameFlag : Flag := { name := "n", kind := .text, purpose := "Shader name (default: file stem)" }

def compileFlags : List Flag :=
  commonFlags ++
    [nameFlag,
      { name := "i", kind := .text, purpose := "Shader source file" },
      { name := "l", kind := .texts, purpose := "Extra include directory (repeatable)", target := "include" },
      { name := "o", kind := .text, purpose := "Output directory", target := "out" },
      { name := "t", kind := .text, purpose := "Target backend: DX12 or VK", target := "backend" }]

def compile (runner : Runner) (args : List Bytes) : Command Unit := do
  let (vs, rest) ← flags "compile" compileFlags args
  let input := overriding (vs.text "i") (rest.headD [])
  if input = [] then
    usage "Usage: shaderc compile -i <shader.hlsl> [-n name] [-o dir] [-t DX12|VK]"
  let s ← setup vs
  let name := ShaderForge.shaderName (vs.text "n") input
  (Action.log .debug [] "compiling" [.text "shader" name, .text "source" input] : Action Unit)
  let path ← lift .compile (compileShader (s.pipelineOptions runner) name input s.build.backend s.build.outputDir)
  printLine ("Compiled: " ++ path ++ " (" ++ (← (get : Action World)).environment.elapsed ++ ")")

def accountJob (r : JobResult) : Action Unit :=
  match r.outcome with
  | .ok path => Action.printLine ("Compiled: " ++ path)
  | .error e =>
    Action.log .warn [] "shader failed"
      [.text "shader" r.job.name, .text "path" r.job.relative, .error e.message []]

def accountBuild (r : Report) : Action Unit := do
  r.results.forM accountJob
  Action.printLine ("\n" ++ Bytes.ofNat r.built ++ " built, " ++ Bytes.ofNat r.failed ++ " failed")
  Action.log .info [] "build finished"
    [.nat "built" r.built, .nat "failed" r.failed, .nat "cache_hits" r.cacheHits,
      .nat "cache_misses" r.cacheMisses]

def build (runner : Runner) (args : List Bytes) : Command Unit := do
  let (vs, rest) ← flags "build" commonFlags args
  match rest with
  | [] => usage "Usage: shaderc build [options] <dir>"
  | root :: _ =>
    let s ← setup vs
    let report ← lift .discover (runBuild (s.buildOptions runner) root)
    (accountBuild report : Action Unit)
    if report.failures ≠ [] then throw (.jobs report.failures)

def parse (args : List Bytes) : Command Unit := do
  let (vs, rest) ← flags "parse" (commonFlags ++ [nameFlag]) args
  match rest with
  | [] => usage "Usage: shaderc parse [options] <shader.hlsl>"
  | path :: _ =>
    let s ← setup vs
    let r ← lift .parse (parseFile s.parserSettings path)
    let text ← require .metadata (r.metadata (ShaderForge.shaderName (vs.text "n") path)).indentedText
    printLine text

end Command

end ShaderForge
