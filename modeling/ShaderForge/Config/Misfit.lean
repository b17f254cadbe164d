import ShaderForge.Text.Quoted

/-!
# ShaderForge.Config.Misfit

Places in a settings document that do not fit the settings. Reading goes on behind them, so that all are reported.

* `Misfit`, `Misfit.message`, `misfitsText`.
-/

namespace ShaderForge

inductive SettingsShape where
  | settings
  | compiler
  | parser
  | build
  | logging
  | text
  | texts
  | int
  | flag
  | duration
  | backend
  deriving DecidableEq, Repr

def SettingsShape.label : SettingsShape → Bytes
  | .settings => "config.Config"
  | .compiler => "config.CompilerConfig"
  | .parser => "config.ParserConfig"
  | .build => "config.BuildConfig"
  | .logging => "config.LoggingConfig"
  | .text => "string"
  | .texts => "[]string"
  | .int => "int"
  | .flag => "bool"
  | .duration => "time.Duration"
  | .backend => "compiler.Backend"

inductive Misfit where
  | wrongKind (line : Nat) (tag value : Bytes) (shape : SettingsShape)
  | repeatedKey (line : Nat) (key : Bytes) (firstLine : Nat)
  | repeatedField (line : Nat) (field : Bytes) (shape : SettingsShape)
  deriving DecidableEq, Repr

namespace Misfit

/-- A value as it is shown: cut short when long, and left out for collections. -/
def shownValue (tag value : Bytes) : Bytes :=
  if tag = utf8 "!!seq" || tag = utf8 "!!map" then []
  else if 10 < value.length then " \x60" ++ value.take 7 ++ "...\x60"
  else " \x60" ++ value ++ "\x60"

def message : Misfit → Bytes
  | .wrongKind line tag value shape =>
    "line " ++ Bytes.ofNat line ++ ": cannot unmarshal " ++ tag ++ shownValue tag value ++ " into " ++ shape.label
  | .repeatedKey line key firstLine =>
    "line " ++ Bytes.ofNat line ++ ": mapping key " ++ key.quoted ++ " already defined at line " ++
      Bytes.ofNat firstLine
  | .repeatedField line field shape =>
    "line " ++ Bytes.ofNat line ++ ": field " ++ field ++ " already set in type " ++ shape.label

end Misfit

def misfitsText (ms : List Misfit) : Bytes :=
  utf8 "yaml: unmarshal errors:" ++ ms.flatMap fun m => utf8 "\n  " ++ m.message

end ShaderForge
