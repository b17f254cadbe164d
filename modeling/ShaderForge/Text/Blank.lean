import ShaderForge.Text.Utf8

/-!
# ShaderForge.Text.Blank

White space in the wide sense: the ASCII blanks, NEL, the no-break space and the space separators.

* `isBlank`       — the class.
* `Bytes.trim`, `Bytes.trimLeft` — a text without the blanks around it.
* `Bytes.words`   — the maximal runs of non-blanks.
* `Bytes.squeeze` — the words with one space between them.
-/

namespace ShaderForge

def isBlank (c : Char) : Bool :=
  let n := c.toNat
  (0x09 ≤ n && n ≤ 0x0D) || n = 0x20 || n = 0x85 || n = 0xA0 || n = 0x1680 ||
    (0x2000 ≤ n && n ≤ 0x200A) || n = 0x2028 || n = 0x2029 || n = 0x202F || n = 0x205F || n = 0x3000

def Glyph.isBlank : Glyph → Bool
  | .scalar c => ShaderForge.isBlank c
  | .stray _ => false

namespace Bytes

def trimLeft (s : Bytes) : Bytes := Glyph.concat ((Utf8.glyphs s).dropWhile Glyph.isBlank)

def trimRight (s : Bytes) : Bytes :=
  Glyph.concat ((Utf8.glyphs s).reverse.dropWhile Glyph.isBlank).reverse

def trim (s : Bytes) : Bytes := trimRight (trimLeft s)

/-- The words of a row of glyphs; `word` is the one being read, its glyphs in reverse. -/
def wordsFrom (word : List Glyph) : List Glyph → List Bytes
  | [] => if word.isEmpty then [] else [Glyph.concat word.reverse]
  | g :: gs =>
    if g.isBlank then
      if word.isEmpty then wordsFrom [] gs else Glyph.concat word.reverse :: wordsFrom [] gs
    else wordsFrom (g :: word) gs

def words (s : Bytes) : List Bytes := wordsFrom [] (Utf8.glyphs s)

def squeeze (s : Bytes) : Bytes := join [space] (words s)

end Bytes

end ShaderForge
