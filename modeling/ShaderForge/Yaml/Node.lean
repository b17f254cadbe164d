import ShaderForge.Yaml.Tag
import ShaderForge.Yaml.Token

/-!
# ShaderForge.Yaml.Node

The tree of a document.

* `Node`         — scalars, sequences, mappings and references.
* `Node.ofTokens` — the first node of a row of tokens.
* `Node.read`    — the first document of a file.
-/

namespace ShaderForge

namespace Yaml

/-- A node with its short tag and its line, counted from one. A reference holds the node it names; one inside the
very node that it names is an `enclosing` reference. -/
inductive Node where
  | scalar (tag text : Bytes) (line : Nat)
  | sequence (tag : Bytes) (items : List Node) (line : Nat)
  | mapping (tag : Bytes) (entries : List (Node × Node)) (line : Nat)
  | reference (name : Bytes) (target : Node) (line : Nat)
  | enclosing (name : Bytes) (isMapping : Bool) (tag : Bytes) (line : Nat)
  deriving Inhabited

/-- A name given to a node: the node, or what is known of one that is still being read. -/
inductive Named where
  | whole (n : Node)
  | open (isMapping : Bool) (tag : Bytes) (line : Nat)

/-- Tokens still to be read, with the names given so far and the handles that the document declares. -/
structure NodeReader where
  tokens : List Token
  names : List (Bytes × Named) := []
  handles : List (Bytes × Bytes) := []

abbrev NodeM := StateT NodeReader Option

def standardHandles : List (Bytes × Bytes) :=
  [(utf8 "!", utf8 "!"), (utf8 "!!", utf8 "tag:yaml.org,2002:")]

def shortTag (tag : Bytes) : Bytes :=
  match Bytes.after? "tag:yaml.org,2002:" tag with
  | some rest => utf8 "!!" ++ rest
  | none => tag

namespace NodeReader

def fail {α : Type} : NodeM α := fun _ => none

def peek : NodeM Token := fun r =>
  match r.tokens with
  | [] => none
  | t :: _ => some (t, r)

def skip : NodeM Unit := modify fun r => { r with tokens := r.tokens.tail }

def kind : NodeM Token.Kind := return (← peek).kind

def resolveTag (handle suffix : Bytes) : NodeM Bytes := do
  if handle = [] then return suffix
  match ((← get).handles ++ standardHandles).lookup handle with
  | some front => return front ++ suffix
  | none => fail

structure Properties where
  name : Option Bytes := none
  tag : Bytes := []
  line : Nat

def Properties.explicitTag (p : Properties) : Option Bytes :=
  if p.tag = [] || p.tag = utf8 "!" then none else some (shortTag p.tag)

def properties : NodeM Properties := do
  let first ← peek
  let line := first.line + 1
  match first.kind with
  | .anchor name =>
    skip
    match ← kind with
    | .tag handle suffix => skip; return { name := some name, tag := ← resolveTag handle suffix, line }
    | _ => return { name := some name, line }
  | .tag handle suffix =>
    skip
    match ← kind with
    | .anchor name => skip; return { name := some name, tag := ← resolveTag handle suffix, line }
    | _ => return { tag := ← resolveTag handle suffix, line }
  | _ => return { line }

def register (name : Option Bytes) (what : Named) : NodeM Unit :=
  match name with
  | none => pure ()
  | some name => modify fun r => { r with names := (name, what) :: r.names }

def complete (name : Option Bytes) (n : Node) : NodeM Unit :=
  match name with
  | none => pure ()
  | some name => modify fun r =>
    match r.names.lookup name with
    | some (.open ..) => { r with names := (name, .whole n) :: r.names }
    | _ => r

def reference (name : Bytes) (line : Nat) : NodeM Node := do
  match (← get).names.lookup name with
  | some (.whole n) => return .reference name n line
  | some (.open isMapping tag line) => return .enclosing name isMapping tag line
  | none => fail

/-- The tag of a scalar: what it says itself, else by its text. Quotes make a text of anything. -/
def scalarTag (explicit : Option Bytes) (text : Bytes) (plain : Bool) : Bytes :=
  match explicit with
  | some tag => tag
  | none =>
    if !plain then "!!str"
    else if text = utf8 "<<" then "!!merge"
    else (meaning text).tag

def empty (line : Nat) : Node := .scalar "!!null" [] line

mutual

/-- A node. In a block, collections may open by indentation; below a key, a sequence need not be indented. -/
def node : (fuel : Nat) → (block unindented : Bool) → NodeM Node
  | 0, _, _ => fail
  | fuel + 1, block, unindented => do
    let first ← peek
    match first.kind with
    | .alias name => skip; reference name (first.line + 1)
    | _ =>
      let p ← properties
      let next ← peek
      let collection (isMapping : Bool) (read : Bytes → NodeM Node) : NodeM Node := do
        let tag := p.explicitTag.getD (if isMapping then "!!map" else "!!seq")
        register p.name (.open isMapping tag p.line)
        let n ← read tag
        complete p.name n
        return n
      match next.kind with
      | .scalar text plain =>
        skip
        let n := Node.scalar (scalarTag p.explicitTag text plain) text p.line
        register p.name (.whole n)
        return n
      | .flowSequence => collection false fun tag => do
          skip; return .sequence tag (← flowItems fuel true) p.line
      | .flowMapping => collection true fun tag => do
          skip; return .mapping tag (← flowEntries fuel true) p.line
      | other =>
        if unindented && other = .blockEntry then
          collection false fun tag => do return .sequence tag (← unindentedItems fuel) p.line
        else if block && other = .blockSequence then
          collection false fun tag => do skip; return .sequence tag (← blockItems fuel) p.line
        else if block && other = .blockMapping then
          collection true fun tag => do skip; return .mapping tag (← blockEntries fuel) p.line
        else if p.name.isSome || p.tag ≠ [] then do
          let n := Node.scalar (scalarTag p.explicitTag [] true) [] p.line
          register p.name (.whole n)
          return n
        else fail

def blockItems : (fuel : Nat) → NodeM (List Node)
  | 0 => fail
  | fuel + 1 => do
    let t ← peek
    match t.kind with
    | .blockEntry =>
      skip
      let next ← kind
      let item ←
        if next = .blockEntry || next = .blockEnd then pure (empty (t.line + 1)) else node fuel true false
      return item :: (← blockItems fuel)
    | .blockEnd => skip; return []
    | _ => fail

def unindentedItems : (fuel : Nat) → NodeM (List Node)
  | 0 => fail
  | fuel + 1 => do
    let t ← peek
    match t.kind with
    | .blockEntry =>
      skip
      let next ← kind
      let item ←
        if next = .blockEntry || next = .key || next = .value || next = .blockEnd then pure (empty (t.line + 1))
        else node fuel true false
      return item :: (← unindentedItems fuel)
    | _ => return []

def blockEntries : (fuel : Nat) → NodeM (List (Node × Node))
  | 0 => fail
  | fuel + 1 => do
    let t ← peek
    match t.kind with
    | .key =>
      skip
      let key ← blockPart fuel t.line
      let value ← blockValue fuel
      return (key, value) :: (← blockEntries fuel)
    | .blockEnd => skip; return []
    | _ => fail

/-- What stands behind `?` or `:` in a block; it may be nothing. -/
def blockPart : (fuel : Nat) → (line : Nat) → NodeM Node
  | 0, _ => fail
  | fuel + 1, line => do
    let next ← kind
    if next = .key || next = .value || next = .blockEnd then return empty (line + 1)
    else node fuel true true

def blockValue : (fuel : Nat) → NodeM Node
  | 0 => fail
  | fuel + 1 => do
    let t ← peek
    match t.kind with
    | .value => skip; blockPart fuel t.line
    | _ => return empty (t.line + 1)

/-- The items of a sequence in brackets. A single entry of a mapping may be an item. -/
def flowItems : (fuel : Nat) → (first : Bool) → NodeM (List Node)
  | 0, _ => fail
  | fuel + 1, first => do
    if (← kind) = .flowSequenceEnd then skip; return []
    if !first then
      if (← kind) = .flowEntry then skip else fail
    let t ← peek
    match t.kind with
    | .flowSequenceEnd => skip; return []
    | .key =>
      skip
      let next ← peek
      let key ←
        if next.kind = .value || next.kind = .flowEntry || next.kind = .flowSequenceEnd then
          skip; pure (empty (next.line + 1))
        else node fuel false false
      let value ← flowValue fuel .flowSequenceEnd
      let item := Node.mapping "!!map" [(key, value)] (t.line + 1)
      return item :: (← flowItems fuel false)
    | _ =>
      let item ← node fuel false false
      return item :: (← flowItems fuel false)

def flowValue : (fuel : Nat) → (close : Token.Kind) → NodeM Node
  | 0, _ => fail
  | fuel + 1, close => do
    let t ← peek
    match t.kind with
    | .value =>
      skip
      let next ← peek
      if next.kind = .flowEntry || next.kind = close then return empty (next.line + 1)
      else node fuel false false
    | _ => return empty (t.line + 1)

def flowEntries : (fuel : Nat) → (first : Bool) → NodeM (List (Node × Node))
  | 0, _ => fail
  | fuel + 1, first => do
    if (← kind) = .flowMappingEnd then skip; return []
    if !first then
      if (← kind) = .flowEntry then skip else fail
    let t ← peek
    match t.kind with
    | .flowMappingEnd => skip; return []
    | .key =>
      skip
      let next ← peek
      let key ←
        if next.kind = .value || next.kind = .flowEntry || next.kind = .flowMappingEnd then
          pure (empty (next.line + 1))
        else node fuel false false
      let value ← flowValue fuel .flowMappingEnd
      return (key, value) :: (← flowEntries fuel false)
    | _ =>
      let key ← node fuel false false
      let after ← peek
      return (key, empty (after.line + 1)) :: (← flowEntries fuel false)

end

/-- The directives in front of a document: at most one version, which must be 1.1, and one meaning per handle. -/
def directives : (fuel : Nat) → (version : Bool) → NodeM Unit
  | 0, _ => fail
  | fuel + 1, version => do
    match ← kind with
    | .directive (.version major minor) =>
      if version || major ≠ 1 || minor ≠ 1 then fail
      skip
      directives fuel true
    | .directive (.handle handle meaning) =>
      if ((← get).handles.lookup handle).isSome then fail
      skip
      modify fun r => { r with handles := (handle, meaning) :: r.handles }
      directives fuel version
    | _ => pure ()

/-- Does the content of a document that starts with a mark end at once? -/
def endsDocument : Token.Kind → Bool
  | .directive _ | .documentStart | .documentEnd | .streamEnd => true
  | _ => false

def document (fuel : Nat) : NodeM (Option Node) := do
  match ← kind with
  | .streamEnd => return none
  | .directive _ | .documentStart =>
    directives fuel false
    let t ← peek
    if t.kind ≠ .documentStart then fail
    skip
    let next ← peek
    if endsDocument next.kind then return some (empty (next.line + 1))
    else return some (← node fuel true false)
  | _ => return some (← node fuel true false)

end NodeReader

def lookahead : Nat := 2

/-- The first document among the tokens of a text. What follows it does not matter, unless the tokens that are
read ahead cannot be made. -/
def Node.ofTokens (tokens : List Token) (faulty : Bool) : Option (Option Node) := do
  let (n, r) ← (NodeReader.document (8 * tokens.length + 8)).run { tokens := tokens }
  if faulty && r.tokens.length ≤ lookahead then none else some n

/-- The first document of a file. The outer `none` is a file that cannot be read. -/
def Node.read (s : Bytes) : Option (Option Node) := do
  let text ← characters? s
  let (tokens, faulty) := Token.scan text
  Node.ofTokens tokens faulty

def Node.line : Node → Nat
  | .scalar _ _ line => line
  | .sequence _ _ line => line
  | .mapping _ _ line => line
  | .reference _ _ line => line
  | .enclosing _ _ _ line => line

end Yaml

end ShaderForge
