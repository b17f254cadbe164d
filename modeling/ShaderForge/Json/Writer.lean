import ShaderForge.Json.Value
import ShaderForge.Text.Utf8

/-!
# ShaderForge.Json.Writer

Writing JSON text, on one line or indented. Characters that a browser would take for markup or for a line
end are written as escapes; a stray octet is written as U+FFFD.

* `Json.render`         — the compact text.
* `Json.renderIndented` — one item or member a line, two blanks a level.
-/

namespace ShaderForge
namespace Json

def shortEscape? (n : Nat) : Option Char :=
  match n with
  | 0x08 => some 'b'
  | 0x09 => some 't'
  | 0x0A => some 'n'
  | 0x0C => some 'f'
  | 0x0D => some 'r'
  | _ => none

def isGuarded (c : Char) : Bool :=
  c = '<' || c = '>' || c = '&' || c.toNat = 0x2028 || c.toNat = 0x2029

def escape (c : Char) : Bytes :=
  if c = '"' || c = '\\' then [Bytes.backslash, octet c]
  else match shortEscape? c.toNat with
    | some letter => [Bytes.backslash, octet letter]
    | none => if c.toNat < 0x20 || isGuarded c then "\\u" ++ Bytes.hex 4 c.toNat else Utf8.encode c

def renderString (s : Bytes) : Bytes :=
  Bytes.quote :: ((Utf8.glyphs s).flatMap (fun g => escape g.shown) ++ [Bytes.quote])

mutual

def render : Json → Bytes
  | .null => "null"
  | .bool true => "true"
  | .bool false => "false"
  | .number literal => literal
  | .string s => renderString s
  | .array items => "[" ++ renderItems items ++ "]"
  | .object members => "\x7b" ++ renderMembers members ++ "\x7d"

def renderItems : List Json → Bytes
  | [] => []
  | [v] => render v
  | v :: vs => render v ++ "," ++ renderItems vs

def renderMembers : List (Bytes × Json) → Bytes
  | [] => []
  | [(name, v)] => renderString name ++ ":" ++ render v
  | (name, v) :: ms => renderString name ++ ":" ++ render v ++ "," ++ renderMembers ms

end

def newLine (level : Nat) : Bytes := Bytes.lf :: List.replicate (2 * level) Bytes.space

mutual

/-- The text of a value whose first line stands at `level`. -/
def renderAt (level : Nat) : Json → Bytes
  | .array (v :: vs) =>
    "[" ++ newLine (level + 1) ++ renderItemsAt (level + 1) (v :: vs) ++ newLine level ++ "]"
  | .object (m :: ms) =>
    "\x7b" ++ newLine (level + 1) ++ renderMembersAt (level + 1) (m :: ms) ++ newLine level ++ "\x7d"
  | v => render v

def renderItemsAt (level : Nat) : List Json → Bytes
  | [] => []
  | [v] => renderAt level v
  | v :: vs => renderAt level v ++ "," ++ newLine level ++ renderItemsAt level vs

def renderMembersAt (level : Nat) : List (Bytes × Json) → Bytes
  | [] => []
  | [(name, v)] => renderString name ++ ": " ++ renderAt level v
  | (name, v) :: ms =>
    renderString name ++ ": " ++ renderAt level v ++ "," ++ newLine level ++ renderMembersAt level ms

end

def renderIndented (v : Json) : Bytes := renderAt 0 v

end Json
end ShaderForge
