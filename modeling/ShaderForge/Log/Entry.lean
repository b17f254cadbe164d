import ShaderForge.Log.Level
import ShaderForge.Text.Duration

/-!
# ShaderForge.Log.Entry

Log entries and the two ways they are written: a line for the console, and a JSON object for the log file.

* `LogValue`, `LogField`, `LogEntry`.
* `LogEntry.consoleLine` — `LEVEL name message {fields}`.
* `LogEntry.fileLine`    — a compact object. Time and caller are not part of an entry, and are given.
-/

namespace ShaderForge

/-- A structured value. An error has the texts of its parts when it joins several. -/
inductive LogValue where
  | text (s : Bytes)
  | flag (b : Bool)
  | int (i : Int)
  | duration (d : Duration)
  | error (message : Bytes) (parts : List Bytes)
  deriving DecidableEq, Repr

structure LogField where
  key : Bytes
  value : LogValue
  deriving DecidableEq, Repr

structure LogEntry where
  level : Level
  logger : Bytes
  message : Bytes
  fields : List LogField
  deriving DecidableEq, Repr

namespace LogField

def text (key value : Bytes) : LogField := ⟨key, .text value⟩
def int (key : Bytes) (value : Int) : LogField := ⟨key, .int value⟩
def nat (key : Bytes) (value : Nat) : LogField := ⟨key, .int value⟩
def duration (key : Bytes) (value : Duration) : LogField := ⟨key, .duration value⟩
def error (message : Bytes) (parts : List Bytes) : LogField := ⟨"error", .error message parts⟩

end LogField

/-- The marks between the parts of an object, and how durations are written. -/
structure LogStyle where
  colon : Bytes
  comma : Bytes
  duration : Duration → Bytes

namespace LogStyle

def console : LogStyle := ⟨": ", ", ", fun d => [Bytes.quote] ++ d.text ++ [Bytes.quote]⟩

def file : LogStyle := ⟨":", ",", fun d => Bytes.ofInt d.milliseconds⟩

end LogStyle

def escapeLogGlyph : Glyph → Bytes
  | .stray _ => "\\ufffd"
  | .scalar c =>
    if c = '"' || c = '\\' then [Bytes.backslash, octet c]
    else if c = '\n' then "\\n"
    else if c = '\r' then "\\r"
    else if c = '\t' then "\\t"
    else if c.toNat < 0x20 then "\\u" ++ Bytes.hex 4 c.toNat
    else Utf8.encode c

def logString (s : Bytes) : Bytes :=
  Bytes.quote :: ((Utf8.glyphs s).flatMap escapeLogGlyph ++ [Bytes.quote])

namespace LogField

def pair (style : LogStyle) (key value : Bytes) : Bytes := logString key ++ style.colon ++ value

/-- The members that a field adds to an object. An error that joins several also lists them. -/
def members (style : LogStyle) (f : LogField) : List Bytes :=
  match f.value with
  | .text s => [pair style f.key (logString s)]
  | .flag b => [pair style f.key (if b then "true" else "false")]
  | .int i => [pair style f.key (Bytes.ofInt i)]
  | .duration d => [pair style f.key (style.duration d)]
  | .error message parts =>
    pair style f.key (logString message) ::
      if parts.length < 2 then []
      else
        let objects := parts.map fun p => "\x7b" ++ pair style "error" (logString p) ++ "\x7d"
        [pair style (f.key ++ "Causes") ("[" ++ Bytes.join style.comma objects ++ "]")]

end LogField

namespace LogEntry

def context (style : LogStyle) (e : LogEntry) : Bytes :=
  Bytes.join style.comma (e.fields.flatMap (LogField.members style))

def consoleLine (e : LogEntry) : Bytes :=
  let logger : Bytes := if e.logger = [] then [] else " " ++ e.logger
  let context := e.context .console
  let object : Bytes := if context = [] then [] else " \x7b" ++ context ++ "\x7d"
  e.level.capitals ++ logger ++ " " ++ e.message ++ object ++ [Bytes.lf]

def fileLine (time caller : Bytes) (e : LogEntry) : Bytes :=
  let text (key value : Bytes) : Bytes := LogField.pair .file key (logString value)
  let head := [text "level" e.level.name, text "time" time] ++
    (if e.logger = [] then [] else [text "logger" e.logger]) ++
    [text "caller" caller, text "msg" e.message]
  "\x7b" ++ Bytes.join "," (head ++ e.fields.flatMap (LogField.members .file)) ++ "\x7d" ++ [Bytes.lf]

end LogEntry

def loggerName (parent child : Bytes) : Bytes :=
  if parent = [] then child else if child = [] then parent else parent ++ "." ++ child

end ShaderForge
