import ShaderForge.Text.Utf8
import ShaderForge.Text.Printable

/-!
# ShaderForge.Text.Quoted

Texts in double quotes, as messages show them: printable characters stand for themselves, the rest is
escaped, and a stray octet is written `\xHH`.

* `Bytes.quoted` — the quoted form of a text.
-/

namespace ShaderForge

def shortEscape? (c : Char) : Option Char :=
  match c.toNat with
  | 0x07 => some 'a'
  | 0x08 => some 'b'
  | 0x09 => some 't'
  | 0x0A => some 'n'
  | 0x0B => some 'v'
  | 0x0C => some 'f'
  | 0x0D => some 'r'
  | _ => none

def escapeChar (c : Char) : Bytes :=
  let n := c.toNat
  if c = '"' || c = '\\' then [Bytes.backslash, octet c]
  else if isPrintable c then Utf8.encode c
  else match shortEscape? c with
    | some letter => [Bytes.backslash, octet letter]
    | none =>
      if n < 0x20 || n = 0x7F then "\\x" ++ Bytes.hex 2 n
      else if n < 0x10000 then "\\u" ++ Bytes.hex 4 n
      else "\\U" ++ Bytes.hex 8 n

def Glyph.escape : Glyph → Bytes
  | .scalar c => escapeChar c
  | .stray b => "\\x" ++ Bytes.hex 2 b.toNat

def Bytes.quoted (s : Bytes) : Bytes :=
  Bytes.quote :: ((Utf8.glyphs s).flatMap Glyph.escape ++ [Bytes.quote])

end ShaderForge
