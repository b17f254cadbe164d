import ShaderForge.Text.Case

/-!
# ShaderForge.Log.Level

How grave a log entry is.

* `Level.ofName` — a level by name, in any case; an empty or unknown name is `info`.
-/

namespace ShaderForge

inductive Level where
  | debug
  | info
  | warn
  | error
  | dpanic
  | panic
  | fatal
  deriving DecidableEq, Repr, Inhabited

namespace Level

def rank : Level → Nat
  | .debug => 0
  | .info => 1
  | .warn => 2
  | .error => 3
  | .dpanic => 4
  | .panic => 5
  | .fatal => 6

def name : Level → Bytes
  | .debug => "debug"
  | .info => "info"
  | .warn => "warn"
  | .error => "error"
  | .dpanic => "dpanic"
  | .panic => "panic"
  | .fatal => "fatal"

def capitals (l : Level) : Bytes := l.name.map Bytes.upperAscii

def all : List Level := [.debug, .info, .warn, .error, .dpanic, .panic, .fatal]

def ofLowerName? (name : Bytes) : Option Level :=
  if name = utf8 "warning" then some .warn else all.find? (·.name = name)

def ofName (name : Bytes) : Level := (ofLowerName? name.lower).getD .info

end Level

end ShaderForge
