import ShaderForge.Json.Value
import ShaderForge.Text.Utf8

/-!
# ShaderForge.Json.Reader

Reading JSON text. A text holds one value and nothing else; values nest at most `maxDepth` deep.
Broken UTF-8 and lone surrogates in strings are read as U+FFFD.

* `Json.read?` — the value of a text.
-/

namespace ShaderForge
namespace Json

def maxDepth : Nat := 10000

def isSpace (b : UInt8) : Bool := b = 0x20 || b = 0x09 || b = 0x0A || b = 0x0D

def skipSpace (s : Bytes) : Bytes := s.dropWhile isSpace

def unit? (a b c d : UInt8) : Option Nat := do
  let a ← Bytes.hexValue? a
  let b ← Bytes.hexValue? b
  let c ← Bytes.hexValue? c
  let d ← Bytes.hexValue? d
  return ((a * 16 + b) * 16 + c) * 16 + d

def isHighSurrogate (u : Nat) : Bool := 0xD800 ≤ u && u < 0xDC00
def isLowSurrogate (u : Nat) : Bool := 0xDC00 ≤ u && u < 0xE000

def pairChar (high low : Nat) : Char :=
  Char.ofNat (0x10000 + (high - 0xD800) * 0x400 + (low - 0xDC00))

/-- The character of a single code unit; a surrogate alone gives U+FFFD. -/
def unitChar (u : Nat) : Char :=
  if isHighSurrogate u || isLowSurrogate u then Utf8.replacement else Char.ofNat u

def unescape? (letter : UInt8) : Option UInt8 :=
  if letter = octet '"' || letter = octet '\\' || letter = octet '/' then some letter
  else if letter = octet 'b' then some 0x08
  else if letter = octet 'f' then some 0x0C
  else if letter = octet 'n' then some 0x0A
  else if letter = octet 'r' then some 0x0D
  else if letter = octet 't' then some 0x09
  else none

/-- What a string is written with: octets, and code units given by their number. -/
inductive Mark where
  | octet (b : UInt8)
  | unit (u : Nat)

def push (mark : Mark) (read : Option (List Mark × Bytes)) : Option (List Mark × Bytes) :=
  read.map fun (marks, rest) => (mark :: marks, rest)

def stringBody : Bytes → Option (List Mark × Bytes)
  | [] => none
  | Bytes.quote :: rest => some ([], rest)
  | Bytes.backslash :: 0x75 :: a :: b :: c :: d :: rest =>
    match unit? a b c d with
    | some u => push (.unit u) (stringBody rest)
    | none => none
  | Bytes.backslash :: letter :: rest =>
    match unescape? letter with
    | some b => push (.octet b) (stringBody rest)
    | none => none
  | b :: rest =>
    if b < 0x20 || b = Bytes.backslash then none else push (.octet b) (stringBody rest)

/-- The text of a row of marks. A high surrogate is held until its low half follows; without it the held
one gives U+FFFD. -/
def markText : (held : Option Nat) → List Mark → Bytes
  | none, [] => []
  | some u, [] => Utf8.encode (unitChar u)
  | none, .octet b :: marks => b :: markText none marks
  | some u, .octet b :: marks => Utf8.encode (unitChar u) ++ b :: markText none marks
  | none, .unit v :: marks =>
    if isHighSurrogate v then markText (some v) marks
    else Utf8.encode (unitChar v) ++ markText none marks
  | some u, .unit v :: marks =>
    if isLowSurrogate v then Utf8.encode (pairChar u v) ++ markText none marks
    else if isHighSurrogate v then Utf8.encode (unitChar u) ++ markText (some v) marks
    else Utf8.encode (unitChar u) ++ Utf8.encode (unitChar v) ++ markText none marks

def string? (s : Bytes) : Option (Bytes × Bytes) :=
  (stringBody s).map fun (marks, rest) => (Utf8.repair (markText none marks), rest)

def digits? (s : Bytes) : Option (Bytes × Bytes) :=
  match s.takeWhile Bytes.isDigit with
  | [] => none
  | ds => some (ds, s.dropWhile Bytes.isDigit)

def integerPart? (s : Bytes) : Option (Bytes × Bytes) :=
  match s with
  | 0x30 :: rest => some ([0x30], rest)
  | _ => digits? s

def fractionPart? (s : Bytes) : Option (Bytes × Bytes) :=
  match s with
  | 0x2E :: rest => (digits? rest).map fun (ds, rest) => (0x2E :: ds, rest)
  | _ => some ([], s)

def exponentPart? (s : Bytes) : Option (Bytes × Bytes) :=
  match s with
  | e :: rest =>
    if e = octet 'e' || e = octet 'E' then
      match rest with
      | sign :: rest' =>
        if sign = octet '+' || sign = octet '-' then
          (digits? rest').map fun (ds, rest) => (e :: sign :: ds, rest)
        else (digits? rest).map fun (ds, rest) => (e :: ds, rest)
      | [] => none
    else some ([], s)
  | [] => some ([], [])

def number? (s : Bytes) : Option (Bytes × Bytes) := do
  let (sign, s) := match s with
    | 0x2D :: rest => (("-" : Bytes), rest)
    | _ => ([], s)
  let (whole, s) ← integerPart? s
  let (fraction, s) ← fractionPart? s
  let (exponent, s) ← exponentPart? s
  return (sign ++ whole ++ fraction ++ exponent, s)

def word? (name : Bytes) (v : Json) (s : Bytes) : Option (Json × Bytes) :=
  (Bytes.after? name s).map fun rest => (v, rest)

mutual

/-- The value at the front of `s`, which may nest `depth` levels deeper. -/
def value? : (fuel depth : Nat) → Bytes → Option (Json × Bytes)
  | 0, _, _ => none
  | fuel + 1, depth, s =>
    match skipSpace s with
    | [] => none
    | b :: rest =>
      if b = octet '\x7b' then
        match depth, skipSpace rest with
        | 0, _ => none
        | _ + 1, 0x7D :: rest => some (.object [], rest)
        | depth + 1, rest => (members? fuel depth rest).map fun (ms, rest) => (.object ms, rest)
      else if b = octet '[' then
        match depth, skipSpace rest with
        | 0, _ => none
        | _ + 1, 0x5D :: rest => some (.array [], rest)
        | depth + 1, rest => (items? fuel depth rest).map fun (vs, rest) => (.array vs, rest)
      else if b = Bytes.quote then (string? rest).map fun (s, rest) => (.string s, rest)
      else if b = octet 't' then word? "true" (.bool true) (b :: rest)
      else if b = octet 'f' then word? "false" (.bool false) (b :: rest)
      else if b = octet 'n' then word? "null" .null (b :: rest)
      else (number? (b :: rest)).map fun (literal, rest) => (.number literal, rest)

def items? : (fuel depth : Nat) → Bytes → Option (List Json × Bytes)
  | 0, _, _ => none
  | fuel + 1, depth, s =>
    match value? fuel depth s with
    | none => none
    | some (v, rest) =>
      match skipSpace rest with
      | 0x2C :: rest => (items? fuel depth rest).map fun (vs, rest) => (v :: vs, rest)
      | 0x5D :: rest => some ([v], rest)
      | _ => none

def members? : (fuel depth : Nat) → Bytes → Option (List (Bytes × Json) × Bytes)
  | 0, _, _ => none
  | fuel + 1, depth, s =>
    match skipSpace s with
    | Bytes.quote :: rest =>
      match string? rest with
      | none => none
      | some (name, rest) =>
        match skipSpace rest with
        | 0x3A :: rest =>
          match value? fuel depth rest with
          | none => none
          | some (v, rest) =>
            match skipSpace rest with
            | 0x2C :: rest =>
              (members? fuel depth rest).map fun (ms, rest) => ((name, v) :: ms, rest)
            | 0x7D :: rest => some ([(name, v)], rest)
            | _ => none
        | _ => none
    | _ => none

end

/-- The value of a text that holds one value and nothing else. Every two steps of the reader take an
octet, so twice the length is fuel enough. -/
def read? (s : Bytes) : Option Json :=
  match value? (2 * s.length + 2) maxDepth s with
  | some (v, rest) => if (skipSpace rest).isEmpty then some v else none
  | none => none

end Json
end ShaderForge
