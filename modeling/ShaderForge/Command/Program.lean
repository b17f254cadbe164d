import ShaderForge.Command.Compile
import ShaderForge.Command.Inspect

/-!
# ShaderForge.Command.Program

The whole program: a command by name, its error message, and the exit code.

* `Command.config` — prints or saves the settings.
* `Program.run`    — runs a command line.
-/

namespace ShaderForge

def Command.config (args : List Bytes) : Command Unit := do
  let saveFlag : Flag :=
    { name := "save", kind := .flag, purpose := "Write the effective config to the user config directory" }
  let (vs, _) ← flags "config" (commonFlags ++ [saveFlag]) args
  let w ← (get : Action World)
  let s ← require .settings (loadSettings w (some vs))
  if vs.isSet "save" then
    let path := userSettingsPath w.environment
    lift .saving (saveSettings s path)
    printLine ("Saved: " ++ path)
  else print s.document

namespace Program

def overview : Bytes := utf8 "shaderc - annotated HLSL shader compiler

Usage:
  shaderc <command> [options]

Commands:
  compile -i <shader.hlsl> [-n name] [-o dir] [-t DX12|VK] [-l dir]...
                                     Compile one shader into <name>.bin
  build <dir>                        Compile every .hlsl file under dir
  parse <shader.hlsl>                Print shader metadata without compiling
  info <file.bin>                    Show artifact information
  extract <file.bin> [output]        Write metadata and stage bytecode to files
  config [-save]                     Print (or save) the effective config

Common options:
  -config <file>   Config file (default ./shaderc.yaml)
  -debug           Debug logging
  -dxc <path>      dxc executable

Examples:
  shaderc compile -n Basic -i shaders/basic.hlsl -o build/shaders -t DX12
  shaderc build -out build/shaders -workers 8 shaders
  shaderc info build/shaders/basic.bin
"

def command? (runner : Runner) (name : Bytes) : Option (List Bytes → Command Unit) :=
  let is (names : List String) : Bool := names.any fun n => utf8 n = name
  if is ["compile", "c"] then some (Command.compile runner)
  else if is ["build", "b"] then some (Command.build runner)
  else if is ["parse"] then some Command.parse
  else if is ["info"] then some Command.info
  else if is ["extract", "x"] then some Command.extract
  else if is ["config"] then some Command.config
  else if is ["help", "-h", "--help"] then some fun _ => Command.print overview
  else none

inductive Exit where
  | code (n : Nat)
  /-- It broke off inside a command. -/
  | crash
  deriving DecidableEq, Repr

/-- Tells of an error, unless how to call the program was told instead. -/
def reportError (name : Bytes) (e : CommandError) : Action Exit :=
  match e with
  | .usage | .help => return .code 1
  | e => do
    if e.breaksOff then return .crash
    Action.log .error [] "command failed" [.text "command" name, .error e.message e.parts]
    Action.printErrorLine ("Error: " ++ e.message)
    return .code 1

def run (runner : Runner) (args : List Bytes) : Action Exit := do
  match args with
  | [] =>
    Action.printError overview
    return .code 1
  | name :: args =>
    match command? runner name with
    | none =>
      Action.printErrorLine ("Unknown command: " ++ name)
      Action.printError overview
      return .code 1
    | some command =>
      match ← (command args).run with
      | .ok () => return .code 0
      | .error e => reportError name e

end Program

end ShaderForge
