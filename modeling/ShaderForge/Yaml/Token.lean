import ShaderForge.Yaml.Lexeme

/-!
# ShaderForge.Yaml.Token

A document as a row of tokens. Indentation turns into opening and closing tokens, and a scalar turns out to be a
key only when the `:` behind it is seen, so tokens may be put in front of others already made.

* `Token`, `Token.Kind`.
* `TokenStream.step` — makes the next tokens.
* `Token.scan`       — all tokens up to the end or the first fault.
-/

namespace ShaderForge

namespace Yaml

inductive Token.Kind where
  | directive (d : Directive)
  | documentStart
  | documentEnd
  | blockSequence
  | blockMapping
  | blockEnd
  | flowSequence
  | flowSequenceEnd
  | flowMapping
  | flowMappingEnd
  | blockEntry
  | flowEntry
  | key
  | value
  | alias (name : Bytes)
  | anchor (name : Bytes)
  | tag (handle suffix : Bytes)
  | scalar (text : Bytes) (plain : Bool)
  | streamEnd
  deriving DecidableEq, Repr

/-- A token and the line it starts on, counted from zero. -/
structure Token where
  kind : Token.Kind
  line : Nat
  deriving DecidableEq, Repr

structure KeyStart where
  required : Bool
  position : Nat
  line : Nat
  column : Nat
  index : Nat
  deriving Repr

/-- Tokens made so far, the last first, and what is needed to make more. There is one possible start of a key for
the block context and one for each open bracket. -/
structure TokenStream where
  cursor : Cursor
  made : List Token := []
  indents : List Nat := []
  keys : List (Option KeyStart) := [none]
  keyAllowed : Bool := true
  deriving Inhabited

namespace TokenStream

def inFlow (s : TokenStream) : Bool := 1 < s.keys.length

def add (kind : Token.Kind) (line : Nat) (s : TokenStream) : TokenStream :=
  { s with made := ⟨kind, line⟩ :: s.made }

def insertAt (position : Nat) (kind : Token.Kind) (line : Nat) (s : TokenStream) : TokenStream :=
  let behind := s.made.length - position
  { s with made := s.made.take behind ++ ⟨kind, line⟩ :: s.made.drop behind }

/-- Opens a block collection when `column` lies right of the indentation. -/
def roll (column position : Nat) (kind : Token.Kind) (line : Nat) (s : TokenStream) : TokenStream :=
  if s.inFlow || s.indents.head?.any (column ≤ ·) then s
  else { s.insertAt position kind line with indents := column :: s.indents }

def rollHere (kind : Token.Kind) (s : TokenStream) : TokenStream :=
  s.roll s.cursor.column s.made.length kind s.cursor.line

/-- Closes the block collections that are indented further than `column`; all of them without one. -/
def unroll (column : Option Nat) (s : TokenStream) : TokenStream :=
  if s.inFlow then s
  else
    let closes (indent : Nat) : Bool := column.all (· < indent)
    let closed := s.indents.takeWhile closes
    { s with
      made := List.replicate closed.length ⟨.blockEnd, s.cursor.line⟩ ++ s.made
      indents := s.indents.dropWhile closes }

/-- The possible key is none. One that had to be a key is a fault. -/
def dropKey (s : TokenStream) : Option TokenStream :=
  match s.keys with
  | some k :: rest => if k.required then none else some { s with keys := none :: rest }
  | _ => some s

/-- A key may start here. It must be one when it stands at the indentation of a block. -/
def saveKey (s : TokenStream) : Option TokenStream :=
  if !s.keyAllowed then some s
  else do
    let s ← s.dropKey
    let start : KeyStart :=
      { required := !s.inFlow && s.indents.head? = some s.cursor.column
        position := s.made.length
        line := s.cursor.line
        column := s.cursor.column
        index := s.cursor.index }
    some { s with keys := some start :: s.keys.tail }

def keyLimit : Nat := 1024

/-- The possible key, if the cursor is still near enough. Leaving one that had to be a key is a fault. -/
def validKey? (s : TokenStream) : Option (Option KeyStart) :=
  match s.keys with
  | some k :: _ =>
    if k.line < s.cursor.line || k.index + keyLimit < s.cursor.index then
      if k.required then none else some none
    else some (some k)
  | _ => some none

def allowKey (allowed : Bool) (s : TokenStream) : TokenStream := { s with keyAllowed := allowed }

def take (width : Nat) (kind : Token.Kind) (s : TokenStream) : TokenStream :=
  { s.add kind s.cursor.line with cursor := s.cursor.advance width }

/-- Passes over blanks, comments and ends of lines. Tabs count as blanks only where no key may start. -/
def skipSpace (s : TokenStream) : TokenStream :=
  let c := s.cursor
  let c := if c.column = 0 && c.rest.head? = some (Char.ofNat 0xFEFF) then c.advance 1 else c
  let c := c.skipWhile fun x => x = ' ' || ((s.inFlow || !s.keyAllowed) && x = '\t')
  let c := if c.rest.head? = some '#' then c.skipLine else c
  match c.newline? with
  | none => { s with cursor := c }
  | some (_, next) =>
    if next.remaining < s.cursor.remaining then
      skipSpace { s with cursor := next, keyAllowed := s.keyAllowed || !s.inFlow }
    else { s with cursor := c }
termination_by s.cursor.remaining

def documentMark (kind : Token.Kind) (s : TokenStream) : Option TokenStream := do
  let s ← (s.unroll none).dropKey
  return (s.allowKey false).take 3 kind

def openFlow (kind : Token.Kind) (s : TokenStream) : Option TokenStream := do
  let s ← s.saveKey
  return ({ s with keys := none :: s.keys }.allowKey true).take 1 kind

def closeFlow (kind : Token.Kind) (s : TokenStream) : Option TokenStream := do
  let s ← s.dropKey
  let s := if s.inFlow then { s with keys := s.keys.tail } else s
  return (s.allowKey false).take 1 kind

def flowEntry (s : TokenStream) : Option TokenStream := do
  let s ← s.dropKey
  return (s.allowKey true).take 1 .flowEntry

def blockEntry (s : TokenStream) : Option TokenStream := do
  if !s.inFlow && !s.keyAllowed then none
  let s ← (s.rollHere .blockSequence).dropKey
  return (s.allowKey true).take 1 .blockEntry

def explicitKey (s : TokenStream) : Option TokenStream := do
  if !s.inFlow && !s.keyAllowed then none
  let s ← (s.rollHere .blockMapping).dropKey
  return (s.allowKey (!s.inFlow)).take 1 .key

/-- A `:` in front of a value. What stood before it, if it may be a key, becomes one. -/
def value (s : TokenStream) : Option TokenStream := do
  match ← s.validKey? with
  | some k =>
    let s := s.insertAt k.position .key k.line
    let s := s.roll k.column k.position .blockMapping k.line
    return ({ s with keys := none :: s.keys.tail }.allowKey false).take 1 .value
  | none =>
    if !s.inFlow && !s.keyAllowed then none
    let s := s.rollHere .blockMapping
    return (s.allowKey (!s.inFlow)).take 1 .value

def anchorOrAlias (kind : Bytes → Token.Kind) (s : TokenStream) : Option TokenStream := do
  let s ← s.saveKey
  let (name, next) ← name? s.cursor
  return { s.add (kind (ofChars name)) s.cursor.line with cursor := next, keyAllowed := false }

def tag (s : TokenStream) : Option TokenStream := do
  let s ← s.saveKey
  let ((handle, suffix), next) ← tag? s.cursor
  return { s.add (.tag handle suffix) s.cursor.line with cursor := next, keyAllowed := false }

def block (literal : Bool) (s : TokenStream) : Option TokenStream := do
  let s ← s.dropKey
  let r ← blockScalar literal s.indents.head? s.cursor
  return { s.add (.scalar (ofChars r.text) false) s.cursor.line with cursor := r.after, keyAllowed := true }

def quoted (single : Bool) (s : TokenStream) : Option TokenStream := do
  let s ← s.saveKey
  let r ← quotedScalar single s.cursor
  return { s.add (.scalar (ofChars r.text) false) s.cursor.line with cursor := r.after, keyAllowed := false }

def plain (s : TokenStream) : Option TokenStream := do
  let s ← s.saveKey
  let margin := match s.indents with
    | [] => 0
    | i :: _ => i + 1
  let r ← plainScalar s.inFlow margin s.cursor
  return { s.add (.scalar (ofChars r.text) true) s.cursor.line with cursor := r.after, keyAllowed := r.lineEnded }

def directive (s : TokenStream) : Option TokenStream := do
  let s ← (s.unroll none).dropKey
  let (d, next) ← directive? s.cursor
  return { s.add (.directive d) s.cursor.line with cursor := next, keyAllowed := false }

def isIndicator (c : Char) : Bool :=
  ['-', '?', ':', ',', '[', ']', '\x7b', '\x7d', '#', '&', '*', '!', '|', '>', '\x27', '"', '%', '@',
    Char.ofNat 0x60].contains c

def stepAt (c : Char) (behind : List Char) (s : TokenStream) : Option TokenStream :=
  if s.cursor.column = 0 && c = '%' then s.directive
  else if s.cursor.atDocumentMark then s.documentMark (if c = '-' then .documentStart else .documentEnd)
  else if c = '[' then s.openFlow .flowSequence
  else if c = '\x7b' then s.openFlow .flowMapping
  else if c = ']' then s.closeFlow .flowSequenceEnd
  else if c = '\x7d' then s.closeFlow .flowMappingEnd
  else if c = ',' then s.flowEntry
  else if c = '-' && stops behind then s.blockEntry
  else if c = '?' && (s.inFlow || stops behind) then s.explicitKey
  else if c = ':' && (s.inFlow || stops behind) then s.value
  else if c = '*' then s.anchorOrAlias .alias
  else if c = '&' then s.anchorOrAlias .anchor
  else if c = '!' then s.tag
  else if c = '|' && !s.inFlow then s.block true
  else if c = '>' && !s.inFlow then s.block false
  else if c = '\x27' then s.quoted true
  else if c = '"' then s.quoted false
  else if !(isIndicator c || isGap c) || (c = '-' && !(behind.head?.any isGap)) ||
      (!s.inFlow && (c = '?' || c = ':') && !stops behind) then s.plain
  else none

def finish (s : TokenStream) : Option TokenStream := do
  let s ← (s.unroll none).dropKey
  return (s.allowKey false).add .streamEnd s.cursor.line

def run (s : TokenStream) : TokenStream × Bool :=
  let s' := s.skipSpace
  let s' := s'.unroll (some s'.cursor.column)
  match s'.cursor.rest with
  | [] =>
    match s'.finish with
    | some s => (s, false)
    | none => (s', true)
  | c :: behind =>
    match s'.stepAt c behind with
    | none => (s', true)
    | some next =>
      if next.cursor.remaining < s.cursor.remaining then run next else (s', true)
termination_by s.cursor.remaining

end TokenStream

/-- The tokens of a text, up to its end or the first fault, and whether there was one. -/
def Token.scan (text : List Char) : List Token × Bool :=
  let (s, faulty) := TokenStream.run { cursor := .start text }
  (s.made.reverse, faulty)

end Yaml

end ShaderForge
