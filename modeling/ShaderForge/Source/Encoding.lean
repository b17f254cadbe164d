import ShaderForge.Text.Utf8

/-!
# ShaderForge.Source.Encoding

From the octets of a source file to its text. A byte-order mark decides the encoding and is removed; without one
the text is UTF-8. Whatever cannot be read becomes U+FFFD, and every line ends with a line feed.

* `decodeSource`       — the whole conversion; it never fails.
* `normalizeNewlines`  — CR LF and lone CR become LF.
* `utf16Text`          — code units to characters.
* `repairSequences`    — one U+FFFD for each broken-off UTF-8 sequence.
-/

namespace ShaderForge

def normalizeNewlines : Bytes → Bytes
  | [] => []
  | Bytes.cr :: Bytes.lf :: s => Bytes.lf :: normalizeNewlines s
  | b :: s => (if b = Bytes.cr then Bytes.lf else b) :: normalizeNewlines s

inductive ByteOrder where
  | little
  | big
  deriving DecidableEq, Repr

def ByteOrder.unit (order : ByteOrder) (a b : UInt8) : Nat :=
  match order with
  | .little => a.toNat + 256 * b.toNat
  | .big => 256 * a.toNat + b.toNat

/-- The code units of `s`; an octet left over at the end is told by `true`. -/
def codeUnits (order : ByteOrder) : Bytes → List Nat × Bool
  | [] => ([], false)
  | [_] => ([], true)
  | a :: b :: s =>
    let (units, odd) := codeUnits order s
    (order.unit a b :: units, odd)

def isSurrogate (u : Nat) : Bool := 0xD800 ≤ u && u ≤ 0xDFFF
def isTrailing (u : Nat) : Bool := 0xDC00 ≤ u && u ≤ 0xDFFF

/-- The character of a surrogate and the trailing surrogate after it. Two trailing ones make none. -/
def surrogatePair (first second : Nat) : Char :=
  if isTrailing first then Utf8.replacement
  else Char.ofNat (0x10000 + (first - 0xD800) * 0x400 + (second - 0xDC00))

/-- The characters of code units. A surrogate is held until the next unit decides whether the two make a
pair; one that makes none gives U+FFFD. -/
def utf16Text : (held : Option Nat) → List Nat → List Char
  | none, [] => []
  | some _, [] => [Utf8.replacement]
  | none, u :: us =>
    if isSurrogate u then utf16Text (some u) us else Char.ofNat u :: utf16Text none us
  | some held, u :: us =>
    if isTrailing u then surrogatePair held u :: utf16Text none us
    else Utf8.replacement ::
      (if isSurrogate u then utf16Text (some u) us else Char.ofNat u :: utf16Text none us)

def ofUtf16 (order : ByteOrder) (s : Bytes) : Bytes :=
  let (units, odd) := codeUnits order s
  (utf16Text none units ++ if odd then [Utf8.replacement] else []).flatMap Utf8.encode

/-- How many octets at the front are one broken-off sequence: the lead and those continuations that could
still have completed it. -/
def brokenLength : Bytes → Nat
  | [] => 0
  | lead :: rest =>
    match Utf8.expects lead, rest with
    | some (needed, lo, hi), b :: rest =>
      if lo ≤ b && b ≤ hi then
        2 + ((rest.take (needed - 2)).takeWhile Utf8.isContinuation).length
      else 1
    | _, _ => 1

/-- The text with one U+FFFD for each broken-off sequence; the first `skip` octets are already dealt with. -/
def repairFrom : Nat → Bytes → Bytes
  | _, [] => []
  | skip + 1, _ :: s => repairFrom skip s
  | 0, b :: s =>
    match Utf8.front? (b :: s) with
    | some (c, width) => Utf8.encode c ++ repairFrom (width - 1) s
    | none => Utf8.encode Utf8.replacement ++ repairFrom (brokenLength (b :: s) - 1) s

def repairSequences (s : Bytes) : Bytes := repairFrom 0 s

/-- Octets to UTF-8 text, as the byte-order mark says. Text behind a UTF-8 mark is taken as it is. -/
def decodeText : Bytes → Bytes
  | 0xEF :: 0xBB :: 0xBF :: s => s
  | 0xFF :: 0xFE :: s => ofUtf16 .little s
  | 0xFE :: 0xFF :: s => ofUtf16 .big s
  | s => repairSequences s

def decodeSource (s : Bytes) : Bytes := normalizeNewlines (decodeText s)

end ShaderForge
