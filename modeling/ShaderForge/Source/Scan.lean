import ShaderForge.Source.Include
import ShaderForge.Text.Blank

/-!
# ShaderForge.Source.Scan

Finding function definitions and flat structs in a text whose comments are blank, and reading the fields of a
struct. Everything found carries its octet offset.

* `functions`  — heads `type name(…)` with a body behind them.
* `structs`    — blocks `struct name { … };` without inner braces.
* `fields`     — declarations `type name [: semantic];` of a struct body.
* `lineAt`     — the line of an offset.
-/

namespace ShaderForge

def isIdentifierStart (b : UInt8) : Bool := Bytes.isLetter b || b = octet '_'
def isWordByte (b : UInt8) : Bool := isIdentifierStart b || Bytes.isDigit b

def skipLexSpace (s : Bytes) : Bytes := s.dropWhile isLexSpace

def someSpace? (s : Bytes) : Option Bytes :=
  match s with
  | b :: rest => if isLexSpace b then some (skipLexSpace rest) else none
  | [] => none

def identifier? (s : Bytes) : Option (Bytes × Bytes) :=
  match s with
  | b :: _ => if isIdentifierStart b then some (s.takeWhile isWordByte, s.dropWhile isWordByte) else none
  | [] => none

/-- Does the text end a word, so that one may begin behind it? -/
def endsWord (before : Option UInt8) : Bool :=
  match before with
  | some b => !isWordByte b
  | none => true

def lineAt (text : Bytes) (offset : Nat) : Nat := ((text.take offset).count Bytes.lf) + 1

/-! ## Functions -/

/-- A place where a function may be defined: the word before its name, unless that place is taken by a
closing angle bracket; the name and its offset; and what follows the opening parenthesis. -/
structure Head where
  typeWord : Option Bytes
  name : Bytes
  offset : Nat
  inside : Bytes
  deriving DecidableEq, Repr

def nameParen? (s : Bytes) : Option (Bytes × Bytes) := do
  let (name, rest) ← identifier? s
  let inside ← Bytes.after? "(" (skipLexSpace rest)
  return (name, inside)

/-- What may stand before the name of a function: a word with white space behind it, or a closing angle
bracket. Gives the word and the text that starts with the name. -/
def typePart? (before : Option UInt8) (s : Bytes) : Option (Option Bytes × Bytes) :=
  match Bytes.after? ">" s with
  | some rest => some (none, skipLexSpace rest)
  | none =>
    if endsWord before then do
      let (word, rest) ← identifier? s
      let rest ← someSpace? rest
      return (some word, rest)
    else none

def head? (before : Option UInt8) (offset : Nat) (s : Bytes) : Option Head := do
  let (typeWord, rest) ← typePart? before s
  let (name, inside) ← nameParen? rest
  return ⟨typeWord, name, offset + (s.length - rest.length), inside⟩

/-- The heads of a text at `offset` behind `before`, without overlap; the first `skip` octets belong to a head
already found. -/
def headsFrom : (skip : Nat) → (before : Option UInt8) → (offset : Nat) → Bytes → List Head
  | _, _, _, [] => []
  | skip + 1, _, offset, b :: s => headsFrom skip (some b) (offset + 1) s
  | 0, before, offset, b :: s =>
    match head? before offset (b :: s) with
    | some h => h :: headsFrom (s.length - h.inside.length) (some b) (offset + 1) s
    | none => headsFrom 0 (some b) (offset + 1) s

def nonTypeWords : List Bytes := ["return", "else", "case", "struct", "new"].map utf8

/-- What follows the parenthesis that closes the innermost of `depth` open ones and all around it. -/
def closeParens? : (depth : Nat) → Bytes → Option Bytes
  | _, [] => none
  | depth, b :: s =>
    if b = octet '(' then closeParens? (depth + 1) s
    else if b = octet ')' then if depth ≤ 1 then some s else closeParens? (depth - 1) s
    else closeParens? depth s

def skipSemantic (s : Bytes) : Bytes :=
  match Bytes.after? ":" (skipLexSpace s) with
  | some rest =>
    match identifier? (skipLexSpace rest) with
    | some (_, rest) => rest
    | none => s
  | none => s

def isBodySpace (b : UInt8) : Bool := b = 0x20 || b = 0x09 || b = 0x0D || b = 0x0A

/-- Is the head followed by the rest of a definition: closed parentheses, perhaps a semantic, and a body? -/
def Head.isDefinition (h : Head) : Bool :=
  !(h.typeWord.any nonTypeWords.contains) &&
    match closeParens? 1 h.inside with
    | some rest => ((skipSemantic rest).dropWhile isBodySpace).head? = some (octet '\x7b')
    | none => false

def functions (text : Bytes) : List Head := (headsFrom 0 none 0 text).filter Head.isDefinition

def isEntryPointName (name : Bytes) : Bool :=
  match Bytes.before? "_main" name with
  | some stage => stage ≠ [] && stage.all Bytes.isLetter
  | none => false

/-! ## Structs -/

structure StructBlock where
  name : Bytes
  offset : Nat
  body : Bytes
  bodyOffset : Nat
  deriving DecidableEq, Repr

def isBrace (b : UInt8) : Bool := b = octet '\x7b' || b = octet '\x7d'

/-- A struct block at the front of `s`, which stands at `offset` behind `before`; with what follows it. -/
def structBlock? (before : Option UInt8) (offset : Nat) (s : Bytes) : Option (StructBlock × Bytes) :=
  if endsWord before then do
    let nameAt ← someSpace? (← Bytes.after? "struct" s)
    let (name, rest) ← identifier? nameAt
    let bodyAt ← Bytes.after? "\x7b" (skipLexSpace rest)
    let body := bodyAt.takeWhile fun b => !isBrace b
    let rest ← Bytes.after? "\x7d" (bodyAt.drop body.length)
    let rest ← Bytes.after? ";" (skipLexSpace rest)
    return (⟨name, offset + (s.length - nameAt.length), body, offset + (s.length - bodyAt.length)⟩, rest)
  else none

def structsFrom : (skip : Nat) → (before : Option UInt8) → (offset : Nat) → Bytes → List StructBlock
  | _, _, _, [] => []
  | skip + 1, _, offset, b :: s => structsFrom skip (some b) (offset + 1) s
  | 0, before, offset, b :: s =>
    match structBlock? before offset (b :: s) with
    | some (block, rest) =>
      block :: structsFrom (s.length - rest.length) (some b) (offset + 1) s
    | none => structsFrom 0 (some b) (offset + 1) s

def structs (text : Bytes) : List StructBlock := structsFrom 0 none 0 text

/-! ## Fields -/

structure Field where
  typeName : Bytes
  name : Bytes
  semantic : Option Bytes
  offset : Nat
  deriving DecidableEq, Repr

structure MalformedField where
  declaration : Bytes
  offset : Nat
  deriving DecidableEq, Repr

def declaration? (s : Bytes) : Option (Bytes × Bytes × Option Bytes) := do
  let (typeName, rest) ← identifier? s
  let (name, rest) ← identifier? (← someSpace? rest)
  match skipLexSpace rest with
  | [] => some (typeName, name, none)
  | b :: rest =>
    if b = octet ':' then
      let (semantic, rest) ← identifier? (skipLexSpace rest)
      if rest = [] then some (typeName, name, some semantic) else none
    else none

/-- The field of a declaration at `offset`; a blank declaration has none. -/
def field? (offset : Nat) (s : Bytes) : Except MalformedField (Option Field) :=
  let trimmed := Bytes.trim s
  if trimmed = [] then .ok none
  else
    let place := offset + Bytes.indexOf trimmed s
    match declaration? (Bytes.squeeze trimmed) with
    | some (typeName, name, semantic) => .ok (some ⟨typeName, name, semantic, place⟩)
    | none => .error ⟨trimmed, place⟩

/-- The fields of declarations, each ended by a semicolon; what follows the last one must be blank. -/
def fieldsFrom (offset : Nat) : List Bytes → Except MalformedField (List Field)
  | [] => .ok []
  | [tail] =>
    if Bytes.trim tail = [] then .ok []
    else .error ⟨Bytes.trim tail, offset + Bytes.indexOf (Bytes.trim tail) tail⟩
  | s :: rest => do
    let first ← field? offset s
    let more ← fieldsFrom (offset + s.length + 1) rest
    return first.toList ++ more

def StructBlock.fields (b : StructBlock) : Except MalformedField (List Field) :=
  fieldsFrom b.bodyOffset (Bytes.split (octet ';') b.body)

end ShaderForge
