import ShaderForge.Config.Settings
import ShaderForge.Yaml.Writer

/-!
# ShaderForge.Config.Writing

Settings as a document: one key for each group, and below it one for each setting.

* `Settings.document`.
-/

namespace ShaderForge

namespace SettingsFile

inductive Written where
  | text (s : Bytes)
  | bare (s : Bytes)
  | texts (items : List Bytes)

def margin (level : Nat) : Bytes := List.replicate (level * Yaml.indentWidth) Bytes.space

def setting (name : String) (v : Written) : Bytes :=
  let head := margin 1 ++ utf8 name ++ ":"
  match v with
  | .text s => head ++ " " ++ Yaml.scalarLine (2 * Yaml.indentWidth) s
  | .bare s => head ++ " " ++ s ++ [Bytes.lf]
  | .texts [] => head ++ " []" ++ [Bytes.lf]
  | .texts items =>
    head ++ [Bytes.lf] ++
      items.flatMap fun s => margin 2 ++ utf8 "- " ++ Yaml.scalarLine (2 * Yaml.indentWidth + 2) s

def flagText (b : Bool) : Bytes := if b then "true" else "false"

def groupText (name : String) (settings : List Bytes) : Bytes :=
  utf8 name ++ ":" ++ [Bytes.lf] ++ settings.flatten

end SettingsFile

open SettingsFile in
def Settings.document (s : Settings) : Bytes :=
  groupText "compiler"
    [setting "tool" (.text s.compiler.tool),
      setting "shader_model" (.text s.compiler.shaderModel),
      setting "timeout" (.text s.compiler.timeout.text),
      setting "include_dirs" (.texts s.compiler.includeDirs),
      setting "extra_args" (.texts s.compiler.extraArgs)] ++
  groupText "parser"
    [setting "max_include_depth" (.bare (Bytes.ofInt s.parser.maxIncludeDepth)),
      setting "strict_exports" (.bare (flagText s.parser.strictExports))] ++
  groupText "build"
    [setting "backend" (.text s.build.backend.label),
      setting "output_dir" (.text s.build.outputDir),
      setting "workers" (.bare (Bytes.ofInt s.build.workers)),
      setting "ignore_file" (.text s.build.ignoreFile)] ++
  groupText "logging"
    [setting "level" (.text s.logging.level),
      setting "log_file" (.text s.logging.logFile),
      setting "max_size_mb" (.bare (Bytes.ofInt s.logging.maxSizeMb)),
      setting "max_backups" (.bare (Bytes.ofInt s.logging.maxBackups)),
      setting "max_age_days" (.bare (Bytes.ofInt s.logging.maxAgeDays))]

end ShaderForge
