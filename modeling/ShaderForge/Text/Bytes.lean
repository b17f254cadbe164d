/-!
# ShaderForge.Text.Bytes

Text is a list of octets. File contents, paths, names and messages need not be valid UTF-8, and every
position the tool reports is an octet position, so nothing here decodes.

* `utf8`        — the octets of a literal; a `String` coerces to `Bytes`.
* `Bytes.split` / `Bytes.join` — cut at every separator, and put the pieces back.
* `Bytes.replaceAll` — replace each leftmost non-overlapping occurrence.
* `Bytes.ofNat`, `Bytes.natOf?` — decimal numerals.
-/

namespace ShaderForge

abbrev Bytes := List UInt8

def utf8 (s : String) : Bytes := s.toUTF8.data.toList

instance : Coe String Bytes := ⟨utf8⟩

abbrev octet (c : Char) : UInt8 := c.toUInt8

namespace Bytes

@[match_pattern] abbrev tab : UInt8 := 0x09
@[match_pattern] abbrev lf : UInt8 := 0x0A
@[match_pattern] abbrev cr : UInt8 := 0x0D
@[match_pattern] abbrev space : UInt8 := 0x20
@[match_pattern] abbrev quote : UInt8 := 0x22
@[match_pattern] abbrev slash : UInt8 := 0x2F
@[match_pattern] abbrev backslash : UInt8 := 0x5C

def isDigit (b : UInt8) : Bool := 0x30 ≤ b && b ≤ 0x39
def isUpper (b : UInt8) : Bool := 0x41 ≤ b && b ≤ 0x5A
def isLower (b : UInt8) : Bool := 0x61 ≤ b && b ≤ 0x7A
def isLetter (b : UInt8) : Bool := isUpper b || isLower b

def lowerAscii (b : UInt8) : UInt8 := if isUpper b then b + 32 else b

def upperAscii (b : UInt8) : UInt8 := if isLower b then b - 32 else b

def hexValue? (b : UInt8) : Option Nat :=
  if isDigit b then some (b.toNat - 0x30)
  else if 0x61 ≤ b && b ≤ 0x66 then some (b.toNat - 0x61 + 10)
  else if 0x41 ≤ b && b ≤ 0x46 then some (b.toNat - 0x41 + 10)
  else none

def hexDigit (n : Nat) : UInt8 :=
  if n < 10 then UInt8.ofNat (0x30 + n) else UInt8.ofNat (0x61 + (n - 10))

def hex (width : Nat) (n : Nat) : Bytes :=
  (List.range width).reverse.map fun i => hexDigit (n / Nat.pow 16 i % 16)

/-- What follows `front` in `s`, if `s` starts with it. -/
def after? : (front s : Bytes) → Option Bytes
  | [], s => some s
  | _ :: _, [] => none
  | a :: p, b :: s => if a = b then after? p s else none

def startsWith (s front : Bytes) : Bool := (after? front s).isSome

def before? (back s : Bytes) : Option Bytes := (after? back.reverse s.reverse).map List.reverse

def endsWith (s back : Bytes) : Bool := (before? back s).isSome

def trimSuffix (s back : Bytes) : Bytes := (before? back s).getD s

/-- Cuts `s` at every `sep`. There is always at least one piece. -/
def split (sep : UInt8) : Bytes → List Bytes
  | [] => [[]]
  | b :: s =>
    if b = sep then [] :: split sep s
    else match split sep s with
      | [] => [[b]]
      | piece :: pieces => (b :: piece) :: pieces

def join (sep : Bytes) : List Bytes → Bytes
  | [] => []
  | [s] => s
  | s :: t :: rest => s ++ sep ++ join sep (t :: rest)

/-- The lines of a text; a final line feed opens one more, empty, line. -/
def lines (s : Bytes) : List Bytes := split lf s

def joinLines (ls : List Bytes) : Bytes := join [lf] ls

/-- Replaces each leftmost non-overlapping occurrence of a non-empty `old`; `skip` octets of an
occurrence already replaced are still to be passed over. -/
def replaceFrom (old new : Bytes) : Nat → Bytes → Bytes
  | _, [] => []
  | skip + 1, _ :: s => replaceFrom old new skip s
  | 0, b :: s =>
    if startsWith (b :: s) old then new ++ replaceFrom old new (old.length - 1) s
    else b :: replaceFrom old new 0 s

def replaceAll (old new s : Bytes) : Bytes := if old = [] then s else replaceFrom old new 0 s

def contains (s part : Bytes) : Bool :=
  match s with
  | [] => part.isEmpty
  | b :: r => startsWith (b :: r) part || contains r part

/-- The offset at which `part` first occurs in `s`; the length of `s` if it occurs nowhere. -/
def indexOf (part : Bytes) : Bytes → Nat
  | [] => 0
  | b :: s => if startsWith (b :: s) part then 0 else indexOf part s + 1

def cut? (sep : UInt8) : Bytes → Option (Bytes × Bytes)
  | [] => none
  | b :: s => if b = sep then some ([], s) else (cut? sep s).map fun (l, r) => (b :: l, r)

def ofNat (n : Nat) : Bytes := (Nat.toDigits 10 n).map Char.toUInt8

def ofInt : Int → Bytes
  | .ofNat n => ofNat n
  | .negSucc n => octet '-' :: ofNat (n + 1)

def digitsValue (s : Bytes) : Nat := s.foldl (fun n b => 10 * n + (b.toNat - 0x30)) 0

def natOf? (s : Bytes) : Option Nat := if s ≠ [] && s.all isDigit then some (digitsValue s) else none

def precedes : Bytes → Bytes → Bool
  | [], [] => false
  | [], _ :: _ => true
  | _ :: _, [] => false
  | a :: s, b :: t => a < b || (a = b && precedes s t)

def padRight (width : Nat) (s : Bytes) : Bytes := s ++ List.replicate (width - s.length) space

end Bytes

end ShaderForge
