import ShaderForge.Text.Duration
import ShaderForge.Text.Numeral
import ShaderForge.Text.Quoted

/-!
# ShaderForge.Config.Flags

Flags of a command: `-name value`, `-name=value`, and `-name` alone for those that are on or off. Two dashes do as
well as one.

* `FlagKind`, `Flag`      — what a flag takes and what it is for.
* `FlagValues`            — what the flags of a call were set to.
* `parseFlags`            — the values, and the arguments behind the flags.
* `flagsUsage`            — the list of flags.
-/

namespace ShaderForge

/-- What a flag takes. A `texts` flag may be given again and again. -/
inductive FlagKind where
  | text
  | texts
  | flag
  | int
  | duration
  deriving DecidableEq, Repr

def FlagKind.word : FlagKind → Bytes
  | .text => "string"
  | .texts => "value"
  | .flag => []
  | .int => "int"
  | .duration => "duration"

/-- A flag. Several flags may set the same thing, which `target` names. -/
structure Flag where
  name : Bytes
  kind : FlagKind
  purpose : Bytes
  target : Bytes := name
  deriving DecidableEq, Repr

inductive FlagValue where
  | text (s : Bytes)
  | flag (b : Bool)
  | int (i : Int)
  | duration (d : Duration)
  deriving DecidableEq, Repr

abbrev FlagValues := List (Bytes × FlagValue)

namespace FlagValues

def last? (vs : FlagValues) (target : String) : Option FlagValue :=
  (vs.reverse.find? (·.1 = utf8 target)).map Prod.snd

def text (vs : FlagValues) (target : String) : Bytes :=
  match vs.last? target with
  | some (.text s) => s
  | _ => []

def texts (vs : FlagValues) (target : String) : List Bytes :=
  vs.filterMap fun (t, v) =>
    match v with
    | .text s => if t = utf8 target then some s else none
    | _ => none

def isSet (vs : FlagValues) (target : String) : Bool := vs.last? target = some (.flag true)

def int (vs : FlagValues) (target : String) : Int :=
  match vs.last? target with
  | some (.int i) => i
  | _ => 0

def duration (vs : FlagValues) (target : String) : Duration :=
  match vs.last? target with
  | some (.duration d) => d
  | _ => ⟨0⟩

end FlagValues

inductive FlagFault where
  | help
  | badSyntax (argument : Bytes)
  | unknown (name : Bytes)
  | noArgument (name : Bytes)
  | badValue (name value : Bytes) (cause : NumeralFault)
  | badFlagValue (name value : Bytes)
  deriving DecidableEq, Repr

def NumeralFault.message : NumeralFault → Bytes
  | .malformed => "parse error"
  | .outOfRange => "value out of range"

def FlagFault.message : FlagFault → Bytes
  | .help => "flag: help requested"
  | .badSyntax argument => "bad flag syntax: " ++ argument
  | .unknown name => "flag provided but not defined: -" ++ name
  | .noArgument name => "flag needs an argument: -" ++ name
  | .badValue name value cause =>
    "invalid value " ++ value.quoted ++ " for flag -" ++ name ++ ": " ++ cause.message
  | .badFlagValue name value => "invalid boolean value " ++ value.quoted ++ " for -" ++ name ++ ": parse error"

def flagWord? (s : Bytes) : Option Bool :=
  if ["1", "t", "T", "true", "TRUE", "True"].any (utf8 · = s) then some true
  else if ["0", "f", "F", "false", "FALSE", "False"].any (utf8 · = s) then some false
  else none

namespace Flag

def read (f : Flag) (value : Bytes) : Except FlagFault FlagValue :=
  match f.kind with
  | .text | .texts => .ok (.text value)
  | .flag =>
    match flagWord? value with
    | some b => .ok (.flag b)
    | none => .error (.badFlagValue f.name value)
  | .int =>
    match Numeral.signed value with
    | .ok i => .ok (.int i)
    | .error cause => .error (.badValue f.name value cause)
  | .duration =>
    match Duration.read? value with
    | some d => .ok (.duration d)
    | none => .error (.badValue f.name value .malformed)

end Flag

inductive FlagArgument where
  /-- It is no flag, nor are those behind it. -/
  | other
  /-- It only ends the flags. -/
  | terminator
  | bad
  | flag (name : Bytes) (value : Option Bytes)
  deriving DecidableEq, Repr

/-- The name of a flag and the value behind the first `=` that is not at the front. -/
def splitFlag (body : Bytes) : FlagArgument :=
  match body with
  | [] => .bad
  | b :: rest =>
    if b = octet '-' || b = octet '=' then .bad
    else match Bytes.cut? (octet '=') rest with
      | some (name, value) => .flag (b :: name) (some value)
      | none => .flag body none

def FlagArgument.of (argument : Bytes) : FlagArgument :=
  match argument with
  | 0x2D :: 0x2D :: [] => .terminator
  | 0x2D :: 0x2D :: body => splitFlag body
  | 0x2D :: b :: body => splitFlag (b :: body)
  | _ => .other

def parseFlags (flags : List Flag) (set : FlagValues) (args : List Bytes) :
    Except FlagFault (FlagValues × List Bytes) :=
  match args with
  | [] => .ok (set, [])
  | a :: rest =>
    match FlagArgument.of a with
    | .other => .ok (set, args)
    | .terminator => .ok (set, rest)
    | .bad => .error (.badSyntax a)
    | .flag name value =>
      match flags.find? (·.name = name) with
      | none =>
        if name = utf8 "help" || name = utf8 "h" then .error .help else .error (.unknown name)
      | some f =>
        let put (value : Bytes) : Except FlagFault FlagValues := do
          return set ++ [(f.target, ← f.read value)]
        match value with
        | some v => do parseFlags flags (← put v) rest
        | none =>
          if f.kind = .flag then do parseFlags flags (← put "true") rest
          else match rest with
            | [] => .error (.noArgument name)
            | v :: rest => do parseFlags flags (← put v) rest
termination_by args.length

def Flag.usage (f : Flag) : Bytes :=
  let head : Bytes := "  -" ++ f.name
  let head := if f.kind.word = [] then head else head ++ " " ++ f.kind.word
  let middle : Bytes := if head.length ≤ 4 then "\t" else "\n    \t"
  head ++ middle ++ f.purpose ++ [Bytes.lf]

def flagsUsage (command : Bytes) (flags : List Flag) : Bytes :=
  let sorted := flags.mergeSort fun a b => !(Bytes.precedes b.name a.name)
  "Usage of " ++ command ++ ":" ++ [Bytes.lf] ++ sorted.flatMap Flag.usage

end ShaderForge
