import ShaderForge.Source.Location
import ShaderForge.Text.Utf8

/-!
# ShaderForge.Pipeline.Diagnostics

The compiler sees the merged source, so its diagnostics name lines of that. They are put back to the files and
lines the reader knows. Texts are compared as they are shown, so a stray octet of the diagnostics passes for U+FFFD.

* `position?`  — a position at the front of a text.
* `remapText?` — replaces each `merged:line` by the line's origin.
-/

namespace ShaderForge

namespace Glyph

def isDigit : Glyph → Bool
  | .scalar c => c.isDigit
  | .stray _ => false

/-- What stands behind the glyphs that are shown as these characters. -/
def behind? : List Char → List Glyph → Option (List Glyph)
  | [], gs => some gs
  | _ :: _, [] => none
  | c :: cs, g :: gs => if g.shown = c then behind? cs gs else none

end Glyph

/-- How many glyphs a position `merged:digits` at the front of a text has. -/
def position? (merged : Path) (gs : List Glyph) : Option Nat := do
  let front := (Utf8.glyphs (merged ++ ":")).map Glyph.shown
  let rest ← Glyph.behind? front gs
  let digits := rest.takeWhile Glyph.isDigit
  if digits.isEmpty then none else some (front.length + digits.length)

/-- The line that a position names: the digits behind the octets that the path and the colon should have. Stray octets
may leave the position without so many. -/
def positionLine? (merged : Path) (written : Bytes) : Option Nat :=
  if written.length ≤ merged.length then none
  else some (Bytes.digitsValue (written.drop (merged.length + 1)))

def originText (map : SourceMap) (line : Nat) (written : Bytes) : Bytes :=
  match map.lookup? line with
  | some place => place.file ++ ":" ++ Bytes.ofNat place.line
  | none => written

/-- Puts positions back, up to one that is too short; the first `skip` glyphs belong to a position already replaced. -/
def remapFrom (merged : Path) (map : SourceMap) : Nat → List Glyph → Option Bytes
  | _, [] => some []
  | skip + 1, _ :: gs => remapFrom merged map skip gs
  | 0, g :: gs =>
    match position? merged (g :: gs) with
    | some width => do
      let written := Glyph.concat ((g :: gs).take width)
      let line ← positionLine? merged written
      return originText map line written ++ (← remapFrom merged map (width - 1) gs)
    | none => return g.bytes ++ (← remapFrom merged map 0 gs)

/-- The text with every position of the merged source put back to its origin. There is none if the path is not UTF-8
or a position is too short. -/
def remapText? (merged : Path) (map : SourceMap) (s : Bytes) : Option Bytes :=
  if Utf8.isValid merged then remapFrom merged map 0 (Utf8.glyphs s) else none

end ShaderForge
