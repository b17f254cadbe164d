import ShaderForge.Text.Bytes

/-!
# ShaderForge.Source.Comment

Comments become blanks. Line feeds stay and every octet keeps its place, so offsets and line numbers of the
blanked text are those of the source.

* `blankComments` — the text with its comments blanked.
-/

namespace ShaderForge

inductive CommentMode where
  | code
  | line
  | block
  deriving DecidableEq, Repr

def blankFrom : CommentMode → Bytes → Bytes
  | _, [] => []
  | .code, 0x2F :: 0x2F :: s => Bytes.space :: Bytes.space :: blankFrom .line s
  | .code, 0x2F :: 0x2A :: s => Bytes.space :: Bytes.space :: blankFrom .block s
  | .code, b :: s => b :: blankFrom .code s
  | .line, b :: s =>
    if b = Bytes.lf then b :: blankFrom .code s else Bytes.space :: blankFrom .line s
  | .block, 0x2A :: 0x2F :: s => Bytes.space :: Bytes.space :: blankFrom .code s
  | .block, b :: s => (if b = Bytes.lf then b else Bytes.space) :: blankFrom .block s

def blankComments (s : Bytes) : Bytes := blankFrom .code s

end ShaderForge
