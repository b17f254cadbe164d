import ShaderForge.Text.Utf8

/-!
# ShaderForge.Yaml.Cursor

The characters of a document and a place among them.

* `Yaml.characters?` — the characters of a file: UTF-8, or UTF-16 behind a byte order mark.
* `Cursor`           — what is still to be read, with line, column and count.
-/

namespace ShaderForge

namespace Yaml

def isAllowed (c : Char) : Bool :=
  let n := c.toNat
  n = 0x09 || n = 0x0A || n = 0x0D || (0x20 ≤ n && n ≤ 0x7E) || n = 0x85 ||
    (0xA0 ≤ n && n ≤ 0xD7FF) || (0xE000 ≤ n && n ≤ 0xFFFD) || 0x10000 ≤ n

/-- Characters of UTF-16 units; a surrogate needs its other half. -/
def ofUnits : List Nat → Option (List Char)
  | [] => some []
  | [u] => if 0xD800 ≤ u && u ≤ 0xDFFF then none else some [Char.ofNat u]
  | u :: v :: rest =>
    if 0xD800 ≤ u && u ≤ 0xDBFF then
      if 0xDC00 ≤ v && v ≤ 0xDFFF then
        (ofUnits rest).map (Char.ofNat (0x10000 + (u - 0xD800) * 0x400 + (v - 0xDC00)) :: ·)
      else none
    else if 0xDC00 ≤ u && u ≤ 0xDFFF then none
    else (ofUnits (v :: rest)).map (Char.ofNat u :: ·)

/-- Units of two octets; an odd octet at the end is refused. -/
def units (combine : UInt8 → UInt8 → Nat) : Bytes → Option (List Nat)
  | [] => some []
  | [_] => none
  | a :: b :: rest => (units combine rest).map (combine a b :: ·)

def ofUtf8 (s : Bytes) : Option (List Char) :=
  (Utf8.glyphs s).mapM fun
    | .scalar c => some c
    | .stray _ => none

def decode (s : Bytes) : Option (List Char) :=
  match s with
  | 0xFF :: 0xFE :: rest => (units (fun a b => b.toNat * 256 + a.toNat) rest).bind ofUnits
  | 0xFE :: 0xFF :: rest => (units (fun a b => a.toNat * 256 + b.toNat) rest).bind ofUnits
  | 0xEF :: 0xBB :: 0xBF :: rest => ofUtf8 rest
  | s => ofUtf8 s

def characters? (s : Bytes) : Option (List Char) := (decode s).filter (·.all isAllowed)

def isBreak (c : Char) : Bool :=
  c = '\n' || c = '\r' || c.toNat = 0x85 || c.toNat = 0x2028 || c.toNat = 0x2029

def isGap (c : Char) : Bool := c = ' ' || c = '\t'

def stops : List Char → Bool
  | [] => true
  | c :: _ => isGap c || isBreak c

def isNameChar (c : Char) : Bool := c.isAlphanum || c = '_' || c = '-'

/-- A place in a document: the text still to be read with its length, and where it starts. -/
structure Cursor where
  rest : List Char
  remaining : Nat
  line : Nat := 0
  column : Nat := 0
  index : Nat := 0
  deriving Inhabited

namespace Cursor

def start (text : List Char) : Cursor := { rest := text, remaining := text.length }

def advance (n : Nat) (c : Cursor) : Cursor :=
  { rest := c.rest.drop n, remaining := c.remaining - n, line := c.line, column := c.column + n, index := c.index + n }

def nextLine (n : Nat) (c : Cursor) : Cursor :=
  { rest := c.rest.drop n, remaining := c.remaining - n, line := c.line + 1, column := 0, index := c.index + n }

/-- Passes over the end of a line. Ends of lines are read as line feeds, apart from the two separators that have
no other spelling. -/
def newline? (c : Cursor) : Option (List Char × Cursor) :=
  match c.rest with
  | '\r' :: '\n' :: _ => some (['\n'], c.nextLine 2)
  | b :: _ =>
    if !isBreak b then none
    else if b.toNat = 0x2028 || b.toNat = 0x2029 then some ([b], c.nextLine 1)
    else some (['\n'], c.nextLine 1)
  | [] => none

def atBreak (c : Cursor) : Bool := c.rest.head?.any isBreak

def skipWhile (p : Char → Bool) (c : Cursor) : Cursor :=
  c.advance (c.rest.takeWhile fun x => p x && !isBreak x).length

def skipLine (c : Cursor) : Cursor := c.skipWhile fun _ => true

def atDocumentMark (c : Cursor) : Bool :=
  c.column = 0 && (c.rest.take 3 = ['-', '-', '-'] || c.rest.take 3 = ['.', '.', '.']) &&
    stops (c.rest.drop 3)

end Cursor

end Yaml

end ShaderForge
