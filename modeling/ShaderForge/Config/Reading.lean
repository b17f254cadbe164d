import ShaderForge.Config.Misfit
import ShaderForge.Config.Settings
import ShaderForge.Text.Base64
import ShaderForge.Yaml.Node

/-!
# ShaderForge.Config.Reading

Settings read from a document over settings that hold already. Unknown keys are passed over, and nothing written
leaves a setting as it is; only lists are emptied by it.

* `SettingsFile.Fault` — why a document gives no settings.
* `Settings.overlay`   — the settings after a document.
-/

namespace ShaderForge

namespace SettingsFile

inductive Fault where
  | malformed
  | misfits (ms : List Misfit)
  | backend (fault : TargetFault)
  deriving DecidableEq, Repr

/-- Reading collects misfits and stops at other faults. -/
abbrev ReadM := StateT (List Misfit) (Except Fault)

namespace ReadM

def report (m : Misfit) : ReadM Unit := modify (· ++ [m])

end ReadM

inductive Content where
  | plain (s : Yaml.Scalar)
  | octets (s : Bytes)

def meaningTags : List Bytes :=
  ["!!str", "!!bool", "!!int", "!!float", "!!null", "!!timestamp"].map utf8

/-- The content of a scalar by its tag. A tag that contradicts the text is a fault; tags of unknown kinds leave the
text as it is. -/
def content (tag text : Bytes) : Except Fault Content :=
  if tag = utf8 "!!str" then .ok (.plain (.text text))
  else if tag = utf8 "!!binary" then
    match Base64.decode? text with
    | some s => .ok (.octets s)
    | none => .error .malformed
  else if !meaningTags.contains tag then .ok (.plain (.text text))
  else
    let m := Yaml.meaning text
    if m.tag = tag then .ok (.plain m)
    else match m with
      | .int i => if tag = utf8 "!!float" then .ok (.plain (.float (Float.ofInt i))) else .error .malformed
      | _ => .error .malformed

def follow : Yaml.Node → Yaml.Node
  | .reference _ target _ => follow target
  | n => n

def misfit (shape : SettingsShape) : Yaml.Node → ReadM Unit
  | .scalar tag text line => ReadM.report (.wrongKind line tag text shape)
  | .sequence tag _ line => ReadM.report (.wrongKind line tag [] shape)
  | .mapping tag _ line => ReadM.report (.wrongKind line tag [] shape)
  | .enclosing _ _ tag line => ReadM.report (.wrongKind line tag [] shape)
  | .reference .. => pure ()

/-- A scalar read by `fit`, which gives `none` for content of the wrong kind. Nothing written gives nothing. -/
def scalar {α : Type} (shape : SettingsShape) (fit : Bytes → Content → Except Fault (Option α)) (n : Yaml.Node) :
    ReadM (Option α) := do
  match follow n with
  | .scalar tag text line =>
    match ← (content tag text : Except Fault Content) with
    | .plain .null => return none
    | c =>
      match ← (fit text c : Except Fault (Option α)) with
      | some a => return some a
      | none => misfit shape (.scalar tag text line); return none
  | other => misfit shape other; return none

def fitText (source : Bytes) : Content → Except Fault (Option Bytes)
  | .octets s => .ok (some s)
  | .plain _ => .ok (some source)

def intLimit : Int := 0x8000000000000000

/-- The whole part of a number that is at most the limit; what lies below the range is its least number. -/
def truncated? (x : Float) : Option Int :=
  if x ≤ 9223372036854775808.0 then
    if -9223372036854775808.0 ≤ x && x < 9223372036854775808.0 then
      let magnitude := x.abs.floor.toUInt64.toNat
      some (if x < 0.0 then -(magnitude : Int) else magnitude)
    else some (-intLimit)
  else none

def fitInt (_ : Bytes) : Content → Except Fault (Option Int)
  | .plain (.int i) => .ok (if i < intLimit then some i else none)
  | .plain (.float x) => .ok (truncated? x)
  | _ => .ok none

def fitFlag (_ : Bytes) : Content → Except Fault (Option Bool)
  | .plain (.flag b) => .ok (some b)
  | .plain (.text s) | .octets s =>
    if Yaml.isOneOf ["y", "Y", "yes", "on"] s then .ok (some true)
    else if Yaml.isOneOf ["n", "N", "no", "off"] s then .ok (some false)
    else .ok none
  | _ => .ok none

/-- A length of time must be a text with units. -/
def fitDuration (_ : Bytes) : Content → Except Fault (Option Duration)
  | .plain (.text s) | .octets s => .ok (Duration.read? s)
  | _ => .ok none

def fitBackend (source : Bytes) (c : Content) : Except Fault (Option Backend) :=
  let name := match c with
    | .octets s => s
    | .plain _ => source
  match Backend.read name with
  | .ok b => .ok (some b)
  | .error fault => .error (.backend fault)

def texts (n : Yaml.Node) : ReadM (Option (List Bytes)) := do
  match follow n with
  | .sequence _ items _ =>
    let found ← items.mapM (scalar .text fitText)
    return some (found.filterMap id)
  | .scalar tag text line =>
    match ← (content tag text : Except Fault Content) with
    | .plain .null => return some []
    | _ => misfit .texts (.scalar tag text line); return none
  | other => misfit .texts other; return none

structure Field (σ : Type) where
  name : Bytes
  read : Yaml.Node → σ → ReadM σ

def field {σ α : Type} (name : String) (read : Yaml.Node → ReadM (Option α)) (put : σ → α → σ) : Field σ where
  name := name
  read n s := do
    match ← read n with
    | some a => return put s a
    | none => return s

def keyId : Yaml.Node → Nat × Bytes
  | .scalar _ text _ => (0, text)
  | .sequence .. => (1, [])
  | .mapping .. => (2, [])
  | .reference name .. => (3, name)
  | .enclosing name .. => (3, name)

/-- The later keys that equal an earlier one, in the order of the earlier. -/
def repeatedKeys : List Yaml.Node → List Misfit
  | [] => []
  | k :: rest =>
    (rest.filter fun k' => keyId k' = keyId k).map (fun k' => .repeatedKey k'.line (keyId k).2 k.line) ++
      repeatedKeys rest

def isMergeKey : Yaml.Node → Bool
  | .scalar tag text _ => text = utf8 "<<" && tag = utf8 "!!merge"
  | _ => false

/-- The entries of a mapping to be merged in, given itself or by reference. Anything else is a fault, as is a
mapping that holds itself. -/
def mergedEntries : Yaml.Node → Except Fault (List (Yaml.Node × Yaml.Node))
  | .mapping _ es _ => .ok es
  | .reference _ (.mapping _ es _) _ => .ok es
  | _ => .error .malformed

def mergeSources : Yaml.Node → List Yaml.Node
  | .sequence _ items _ => items
  | n => [n]

def textKey? (n : Yaml.Node) : Option Bytes :=
  match follow n with
  | .scalar tag text _ =>
    match content tag text with
    | .ok (.plain (.text s)) => some s
    | _ => none
  | _ => none

/-- What is known while the entries of a mapping are gone through: the group, the fields set, and, while mappings
are merged, the keys that already have their value. -/
structure Progress (σ : Type) where
  group : σ
  done : List Bytes := []
  taken : Option (List Bytes) := none

def entry {σ : Type} (shape : SettingsShape) (fields : List (Field σ)) (p : Progress σ) (key value : Yaml.Node) :
    ReadM (Progress σ) := do
  match ← scalar .text fitText key with
  | none => return p
  | some name =>
    if p.taken.any (·.contains name) then return p
    else
      let p := { p with taken := p.taken.map (name :: ·) }
      match fields.find? (·.name = name) with
      | none => return p
      | some f =>
        if p.done.contains name then do
          ReadM.report (.repeatedField key.line name shape)
          return p
        else return { p with group := ← f.read value p.group, done := name :: p.done }

/-- The entries of a mapping, and behind them those of the mappings merged into it. Keys of the mapping itself win,
then those of earlier mappings. `fuel` bounds how deep merged mappings are nested. -/
def entries {σ : Type} (shape : SettingsShape) (fields : List (Field σ)) :
    (fuel : Nat) → (taken : Option (List Bytes)) → List (Yaml.Node × Yaml.Node) → σ →
    ReadM (Option (List Bytes) × σ)
  | 0, _, _, _ => throw .malformed
  | fuel + 1, taken, es, group => do
    match repeatedKeys (es.map Prod.fst) with
    | [] =>
      let p ← es.foldlM (fun p (key, value) => if isMergeKey key then pure p else entry shape fields p key value)
        { group, taken : Progress σ }
      match (es.filter fun e => isMergeKey e.1).getLast? with
      | none => return (p.taken, p.group)
      | some (_, merged) =>
        let start := p.taken.getD ((es.map Prod.fst).filterMap textKey?)
        let (taken', group) ← (mergeSources merged).foldlM
          (fun (taken, group) n => do
            let es ← (mergedEntries n : Except Fault _)
            let (taken', group) ← entries shape fields fuel (some taken) es group
            return (taken'.getD taken, group))
          (start, p.group)
        return (p.taken.map fun _ => taken', group)
    | repeated =>
      repeated.forM ReadM.report
      return (taken, group)

def mergeDepth : Nat := 1000

def group {σ : Type} (shape : SettingsShape) (fields : List (Field σ)) (n : Yaml.Node) (s : σ) : ReadM σ := do
  match follow n with
  | .mapping _ es _ => return (← entries shape fields mergeDepth none es s).2
  | .scalar tag text line =>
    match ← (content tag text : Except Fault Content) with
    | .plain .null => return s
    | _ =>
      misfit shape (.scalar tag text line)
      return s
  | .enclosing _ true _ _ => return s
  | other =>
    misfit shape other
    return s

def compilerFields : List (Field CompilerSettings) :=
  [field "tool" (scalar .text fitText) fun s v => { s with tool := v },
    field "shader_model" (scalar .text fitText) fun s v => { s with shaderModel := v },
    field "timeout" (scalar .duration fitDuration) fun s v => { s with timeout := v },
    field "include_dirs" texts fun s v => { s with includeDirs := v },
    field "extra_args" texts fun s v => { s with extraArgs := v }]

def parserFields : List (Field ParsingSettings) :=
  [field "max_include_depth" (scalar .int fitInt) fun s v => { s with maxIncludeDepth := v },
    field "strict_exports" (scalar .flag fitFlag) fun s v => { s with strictExports := v }]

def buildFields : List (Field OutputSettings) :=
  [field "backend" (scalar .backend fitBackend) fun s v => { s with backend := v },
    field "output_dir" (scalar .text fitText) fun s v => { s with outputDir := v },
    field "workers" (scalar .int fitInt) fun s v => { s with workers := v },
    field "ignore_file" (scalar .text fitText) fun s v => { s with ignoreFile := v }]

def loggingFields : List (Field LoggingSettings) :=
  [field "level" (scalar .text fitText) fun s v => { s with level := v },
    field "log_file" (scalar .text fitText) fun s v => { s with logFile := v },
    field "max_size_mb" (scalar .int fitInt) fun s v => { s with maxSizeMb := v },
    field "max_backups" (scalar .int fitInt) fun s v => { s with maxBackups := v },
    field "max_age_days" (scalar .int fitInt) fun s v => { s with maxAgeDays := v }]

def settingsFields : List (Field Settings) :=
  [⟨"compiler", fun n s => return { s with compiler := ← group .compiler compilerFields n s.compiler }⟩,
    ⟨"parser", fun n s => return { s with parser := ← group .parser parserFields n s.parser }⟩,
    ⟨"build", fun n s => return { s with build := ← group .build buildFields n s.build }⟩,
    ⟨"logging", fun n s => return { s with logging := ← group .logging loggingFields n s.logging }⟩]

end SettingsFile

/-- The settings after a document is read over `s`. A document without content changes nothing. -/
def Settings.overlay (document : Bytes) (s : Settings) : Except SettingsFile.Fault Settings := do
  match Yaml.Node.read document with
  | none => throw .malformed
  | some none => return s
  | some (some n) =>
    let (s, misfits) ← (SettingsFile.group .settings SettingsFile.settingsFields n s).run []
    if misfits = [] then return s else throw (.misfits misfits)

def SettingsFile.Fault.message : SettingsFile.Fault → Bytes
  | .malformed => "<yaml syntax>"
  | .misfits ms => misfitsText ms
  | .backend fault => fault.message

end ShaderForge
