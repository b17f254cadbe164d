import ShaderForge.Text.Base64
import ShaderForge.Yaml.Cursor
import ShaderForge.Yaml.Tag

/-!
# ShaderForge.Yaml.Writer

Texts written as scalars: without quotes where that is safe, else in single quotes, in double quotes with escapes,
or as a block when they have several lines.

* `Traits`      — what decides the style of a text.
* `writeText`   — a text as a scalar whose further lines are indented.
-/

namespace ShaderForge

namespace Yaml

/-- May the character stand in a scalar as it is? Characters outside the basic plane may not. -/
def isShown (c : Char) : Bool :=
  let n := c.toNat
  n = 0x0A || (0x20 ≤ n && n ≤ 0x7E) || (0xA0 ≤ n && n ≤ 0xD7FF) || (0xE000 ≤ n && n ≤ 0xFFFD && n ≠ 0xFEFF)

structure Traits where
  /-- It would not be read as one unquoted scalar. -/
  indicators : Bool := false
  lineBreaks : Bool := false
  special : Bool := false
  tabs : Bool := false
  leadingSpace : Bool := false
  leadingBreak : Bool := false
  trailingSpace : Bool := false
  trailingBreak : Bool := false
  breakSpace : Bool := false
  spaceBreak : Bool := false

def isLeadingIndicator (c : Char) : Bool :=
  ['#', ',', '[', ']', '\x7b', '\x7d', '&', '*', '!', '|', '>', '\x27', '"', '%', '@', Char.ofNat 0x60].contains c

def startsWithIndicator (s : List Char) : Bool :=
  s.take 3 = ['-', '-', '-'] || s.take 3 = ['.', '.', '.'] ||
    match s with
    | [] => false
    | c :: rest =>
      let blank := rest = [] || rest.head?.any isGap
      isLeadingIndicator c || ((c = '?' || c = ':' || c = '-') && blank)

/-- Does an indicator stand inside the text, `before` being the character before it? -/
def holdsIndicator : (before : Char) → List Char → Bool
  | _, [] => false
  | before, c :: rest =>
    (c = ':' && (rest = [] || rest.head?.any isGap)) || (c = '#' && (isGap before || isBreak before)) ||
      holdsIndicator c rest

def hasPair (p q : Char → Bool) : List Char → Bool
  | a :: b :: rest => (p a && q b) || hasPair p q (b :: rest)
  | _ => false

def isSpace (c : Char) : Bool := c = ' '

namespace Traits

def of (s : List Char) : Traits where
  indicators := startsWithIndicator s || match s with
    | [] => false
    | c :: rest => holdsIndicator c rest
  lineBreaks := s.any isBreak
  special := s.any fun c => !isShown c && c ≠ '\t'
  tabs := s.contains '\t'
  leadingSpace := s.head?.any isSpace
  leadingBreak := s.head?.any isBreak
  trailingSpace := s.getLast?.any isSpace
  trailingBreak := s.getLast?.any isBreak
  breakSpace := hasPair isBreak isSpace s
  spaceBreak := hasPair isSpace isBreak s

def plainAllowed (t : Traits) : Bool :=
  !(t.leadingSpace || t.leadingBreak || t.trailingSpace || t.trailingBreak || t.breakSpace || t.spaceBreak ||
    t.tabs || t.special || t.lineBreaks || t.indicators)

def singleAllowed (t : Traits) : Bool := !(t.breakSpace || t.spaceBreak || t.tabs || t.special)

def blockAllowed (t : Traits) : Bool := !(t.trailingSpace || t.spaceBreak || t.special)

end Traits

def capitalHex (width n : Nat) : Bytes := (Bytes.hex width n).map Bytes.upperAscii

def escapeChar (c : Char) : Bytes :=
  if isShown c && !isBreak c && c ≠ '"' && c ≠ '\\' then Utf8.encode c
  else
    let n := c.toNat
    let escape : Bytes :=
      if n = 0x00 then "0"
      else if n = 0x07 then "a"
      else if n = 0x08 then "b"
      else if n = 0x09 then "t"
      else if n = 0x0A then "n"
      else if n = 0x0B then "v"
      else if n = 0x0C then "f"
      else if n = 0x0D then "r"
      else if n = 0x1B then "e"
      else if n = 0x22 then "\""
      else if n = 0x5C then "\\"
      else if n = 0x85 then "N"
      else if n = 0xA0 then "_"
      else if n = 0x2028 then "L"
      else if n = 0x2029 then "P"
      else if n ≤ 0xFF then "x" ++ capitalHex 2 n
      else if n ≤ 0xFFFF then "u" ++ capitalHex 4 n
      else "U" ++ capitalHex 8 n
    Bytes.backslash :: escape

def doubleQuoted (s : List Char) : Bytes := Bytes.quote :: (s.flatMap escapeChar ++ [Bytes.quote])

/-- The inside of single quotes; behind an end of line the text is indented again. -/
def singleBody (indent : Nat) : (fresh : Bool) → List Char → Bytes
  | _, [] => []
  | fresh, c :: rest =>
    if isBreak c then Utf8.encode c ++ singleBody indent true rest
    else
      let margin : Bytes := if fresh && !isSpace c then List.replicate indent Bytes.space else []
      let doubled : Bytes := if c = '\x27' then Utf8.encode c else []
      margin ++ doubled ++ Utf8.encode c ++ singleBody indent (fresh && isSpace c) rest

def singleQuoted (indent : Nat) (s : List Char) : Bytes :=
  let mark := Utf8.encode '\x27'
  mark ++ singleBody indent false s ++ mark

def indentWidth : Nat := 4

/-- The header of a block: an indentation when the text starts with a blank or an end of line, and how it ends. -/
def blockMark (s : List Char) : Bytes :=
  let leading : Bytes :=
    if s.head?.any fun c => isSpace c || isBreak c then Bytes.ofNat indentWidth else []
  let ending : Bytes := match s.reverse with
    | [] => "-"
    | [c] => if isBreak c then "+" else "-"
    | c :: d :: _ => if !isBreak c then "-" else if isBreak d then "+" else []
  "|" ++ leading ++ ending

/-- The lines of a block. A line is indented when it has anything on it. -/
def blockBody (indent : Nat) : (fresh : Bool) → List Char → Bytes
  | _, [] => []
  | fresh, c :: rest =>
    if isBreak c then
      let ending : Bytes := if c.toNat = 0x2028 || c.toNat = 0x2029 then Utf8.encode c else [Bytes.lf]
      ending ++ blockBody indent true rest
    else
      let margin : Bytes := if fresh then List.replicate indent Bytes.space else []
      margin ++ Utf8.encode c ++ blockBody indent false rest

/-- A text of several lines as a block. The end of the header line is the first line's own when that is empty. -/
def blockText (indent : Nat) (s : List Char) : Bytes :=
  let start : Bytes := if s.head?.any isBreak then [] else [Bytes.lf]
  blockMark s ++ start ++ blockBody indent true s

/-- The style of a text, and the text in it, without the end of its last line. -/
def writeChars (indent : Nat) (quotes : Bool) (s : List Char) : Bytes :=
  let t := Traits.of s
  if s.contains '\n' then
    if t.blockAllowed then blockText indent s else doubleQuoted s
  else if quotes then doubleQuoted s
  else if t.plainAllowed then s.flatMap Utf8.encode
  else if t.singleAllowed then singleQuoted indent s
  else doubleQuoted s

/-- A text as a scalar. Text that is not valid UTF-8 is written in base 64. -/
def writeText (indent : Nat) (s : Bytes) : Bytes :=
  match ofUtf8 s with
  | none => "!!binary " ++ Base64.encode s
  | some cs => writeChars indent (needsQuotes s) cs

/-- A scalar on a line of its own. A block that ends with an end of line needs no other. -/
def scalarLine (indent : Nat) (s : Bytes) : Bytes :=
  let written := writeText indent s
  if written.getLast? = some Bytes.lf then written else written ++ [Bytes.lf]

end Yaml

end ShaderForge
