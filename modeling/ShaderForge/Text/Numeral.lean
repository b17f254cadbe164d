import ShaderForge.Text.Bytes

/-!
# ShaderForge.Text.Numeral

Integers in program notation: an optional sign, a base mark (`0x`, `0b`, `0o`, or a leading `0` for octal) and digits
that underscores may group.

* `Numeral.signed`, `Numeral.unsigned` — 64-bit readers with the base taken from the text.
* `Numeral.signedIn`, `Numeral.unsignedIn` — the same in a given base, without marks or underscores.
-/

namespace ShaderForge

inductive NumeralFault where
  | malformed
  | outOfRange
  deriving DecidableEq, Repr

namespace Numeral

def underscore : UInt8 := octet '_'

def digit? (b : UInt8) : Option Nat :=
  if Bytes.isDigit b then some (b.toNat - 0x30)
  else if Bytes.isLetter b then some ((Bytes.lowerAscii b).toNat - 0x61 + 10)
  else none

def limit : Nat := 0x10000000000000000

/-- Reads digits from the front. The first octet that is no digit, or the first digit that is too much, decides. -/
def digits (base : Nat) (grouped : Bool) : (value : Nat) → Bytes → Except NumeralFault Nat
  | value, [] => .ok value
  | value, b :: s =>
    if grouped && b = underscore then digits base grouped value s
    else match digit? b with
      | none => .error .malformed
      | some d =>
        if base ≤ d then .error .malformed
        else if limit ≤ value * base + d then .error .outOfRange
        else digits base grouped (value * base + d) s

inductive Before where
  | start
  | digit
  | underscore
  | other
  deriving DecidableEq, Repr

def groupsOk (hex : Bool) : Before → Bytes → Bool
  | before, [] => before ≠ .underscore
  | before, b :: s =>
    if Bytes.isDigit b || (hex && (Bytes.hexValue? b).isSome) then groupsOk hex .digit s
    else if b = underscore then before = .digit && groupsOk hex .underscore s
    else before ≠ .underscore && groupsOk hex .other s

def baseOf? (b : UInt8) : Option Nat :=
  let b := Bytes.lowerAscii b
  if b = octet 'b' then some 2
  else if b = octet 'o' then some 8
  else if b = octet 'x' then some 16
  else none

/-- Are the underscores of an unsigned text in their places? A base mark counts as a digit. -/
def underscoresOk (s : Bytes) : Bool :=
  match s with
  | 0x30 :: b :: rest =>
    match baseOf? b with
    | some base => groupsOk (base = 16) .digit rest
    | none => groupsOk false .start s
  | _ => groupsOk false .start s

/-- The base of an unsigned text and its digits. A mark with nothing behind it is none. -/
def mark (s : Bytes) : Nat × Bytes :=
  match s with
  | 0x30 :: b :: c :: rest =>
    match baseOf? b with
    | some base => (base, c :: rest)
    | none => (8, b :: c :: rest)
  | 0x30 :: rest => (8, rest)
  | s => (10, s)

def unsigned (s : Bytes) : Except NumeralFault Nat := do
  if s = [] then throw .malformed
  let (base, rest) := mark s
  let n ← digits base true 0 rest
  if underscore ∈ s && !underscoresOk s then throw .malformed
  return n

def unsignedIn (base : Nat) (s : Bytes) : Except NumeralFault Nat :=
  if s = [] then .error .malformed else digits base false 0 s

def signedWith (read : Bytes → Except NumeralFault Nat) (s : Bytes) : Except NumeralFault Int :=
  match s with
  | 0x2D :: s => do
    let n ← read s
    if limit / 2 < n then throw .outOfRange else return -(n : Int)
  | 0x2B :: s => do
    let n ← read s
    if limit / 2 ≤ n then throw .outOfRange else return n
  | s => do
    let n ← read s
    if limit / 2 ≤ n then throw .outOfRange else return n

def signed (s : Bytes) : Except NumeralFault Int := signedWith unsigned s

def signedIn (base : Nat) (s : Bytes) : Except NumeralFault Int := signedWith (unsignedIn base) s

end Numeral

end ShaderForge
