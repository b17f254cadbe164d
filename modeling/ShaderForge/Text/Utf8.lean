import ShaderForge.Text.Bytes

/-!
# ShaderForge.Text.Utf8

Octets read as UTF-8. A text is a row of `Glyph`s: scalar values, and stray octets that start no
well-formed sequence. Every octet belongs to exactly one glyph.

* `Utf8.front?`  — the well-formed sequence at the front, with its width.
* `Utf8.glyphs`  — the whole text; `Glyph.bytes` gives the octets back.
* `Utf8.repair`  — each stray octet becomes U+FFFD.
-/

namespace ShaderForge

/-- One unit of a text that may be broken UTF-8. -/
inductive Glyph where
  | scalar (c : Char)
  | stray (b : UInt8)
  deriving DecidableEq, Repr, Inhabited

namespace Utf8

def encode (c : Char) : Bytes := String.utf8EncodeChar c

def replacement : Char := Char.ofNat 0xFFFD

def isContinuation (b : UInt8) : Bool := 0x80 ≤ b && b ≤ 0xBF

def payload (b : UInt8) : Nat := (b &&& 0x3F).toNat

/-- The octets that may follow `lead`: how many continuations a sequence needs and the range of the
first of them. Overlong forms, surrogates and values above U+10FFFF are shut out by that range. -/
def expects (lead : UInt8) : Option (Nat × UInt8 × UInt8) :=
  if 0xC2 ≤ lead && lead ≤ 0xDF then some (1, 0x80, 0xBF)
  else if lead = 0xE0 then some (2, 0xA0, 0xBF)
  else if lead = 0xED then some (2, 0x80, 0x9F)
  else if 0xE1 ≤ lead && lead ≤ 0xEF then some (2, 0x80, 0xBF)
  else if lead = 0xF0 then some (3, 0x90, 0xBF)
  else if lead = 0xF4 then some (3, 0x80, 0x8F)
  else if 0xF1 ≤ lead && lead ≤ 0xF3 then some (3, 0x80, 0xBF)
  else none

/-- The well-formed sequence at the front of `s`, with its width in octets. -/
def front? (s : Bytes) : Option (Char × Nat) :=
  match s with
  | [] => none
  | lead :: rest =>
    if lead < 0x80 then some (Char.ofNat lead.toNat, 1)
    else match expects lead, rest with
      | some (1, lo, hi), b :: _ =>
        if lo ≤ b && b ≤ hi then some (Char.ofNat ((lead &&& 0x1F).toNat * 64 + payload b), 2)
        else none
      | some (2, lo, hi), b :: c :: _ =>
        if lo ≤ b && b ≤ hi && isContinuation c then
          some (Char.ofNat (((lead &&& 0x0F).toNat * 64 + payload b) * 64 + payload c), 3)
        else none
      | some (3, lo, hi), b :: c :: d :: _ =>
        if lo ≤ b && b ≤ hi && isContinuation c && isContinuation d then
          some (Char.ofNat
            ((((lead &&& 0x07).toNat * 64 + payload b) * 64 + payload c) * 64 + payload d), 4)
        else none
      | _, _ => none

/-- The glyphs of a text of which the first `skip` octets belong to a glyph already read. -/
def glyphsFrom : Nat → Bytes → List Glyph
  | _, [] => []
  | skip + 1, _ :: s => glyphsFrom skip s
  | 0, b :: s =>
    match front? (b :: s) with
    | some (c, width) => .scalar c :: glyphsFrom (width - 1) s
    | none => .stray b :: glyphsFrom 0 s

def glyphs (s : Bytes) : List Glyph := glyphsFrom 0 s

end Utf8

namespace Glyph

def bytes : Glyph → Bytes
  | .scalar c => Utf8.encode c
  | .stray b => [b]

def isScalar : Glyph → Bool
  | .scalar _ => true
  | .stray _ => false

/-- The scalar value a reader shows: a stray octet is shown as U+FFFD. -/
def shown : Glyph → Char
  | .scalar c => c
  | .stray _ => Utf8.replacement

def concat (gs : List Glyph) : Bytes := gs.flatMap bytes

end Glyph

namespace Utf8

def isValid (s : Bytes) : Bool := (glyphs s).all Glyph.isScalar

def repair (s : Bytes) : Bytes := (glyphs s).flatMap fun g => encode g.shown

def count (s : Bytes) : Nat := (glyphs s).length

end Utf8

def Bytes.padGlyphs (width : Nat) (s : Bytes) : Bytes :=
  s ++ List.replicate (width - Utf8.count s) Bytes.space

end ShaderForge
